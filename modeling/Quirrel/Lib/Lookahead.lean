import Mathlib.Data.List.Basic

set_option autoImplicit false

/-!
# Reading one token ahead

A reader that has its current token already reads the next one with the settings of the
moment. `Lookahead f read source h` says that the settings with which it read, after the
first token, are those that its source has for the tokens, when the token behind the
source has the settings `h`. `ReadsAs` is the relation between a reader and its source
under a condition that is exact, with a rule for each way to put readers together.
-/

namespace Quirrel.Lib

universe u

/-- The settings of the tokens and of the nodes that are passed, and the settings after
them. -/
structure Trace (Φ : Type u) where
  tokens : List Φ
  nodes : List Φ
  after : Φ

variable {Φ : Type u}

namespace Trace

/-- Nothing is read yet. -/
def start (f : Φ) : Trace Φ := ⟨[], [], f⟩

/-- One token, read with the features of that time. -/
def token (f : Φ) : Trace Φ := ⟨[f], [], f⟩

/-- One node, built with the features of that time. -/
def node (f : Φ) : Trace Φ := ⟨[], [f], f⟩

/-- One trace and then the next, from where the first ended. -/
def andThen (t : Trace Φ) (next : Φ → Trace Φ) : Trace Φ :=
  ⟨t.tokens ++ (next t.after).tokens, t.nodes ++ (next t.after).nodes, (next t.after).after⟩

/-- The settings are put back. -/
def restore (t : Trace Φ) (f : Φ) : Trace Φ := { t with after := f }

/-- A node is complete. -/
def done (t : Trace Φ) : Trace Φ := { t with nodes := t.nodes ++ [t.after] }

/-- An opening token, what is in between, and a closing token. -/
def enclosed (body : Φ → Trace Φ) (f : Φ) : Trace Φ := ((token f).andThen body).andThen token

end Trace

/-- The token `f` comes first, then what was read; the source comes first, then `h`. -/
def Lookahead (f : Φ) (read source : List Φ) (h : Φ) : Prop := f :: read = source ++ [h]

namespace Lookahead

theorem nil_iff {f h : Φ} : Lookahead f [] [] h ↔ h = f := by
  unfold Lookahead
  rw [List.nil_append, List.cons.injEq, eq_comm]
  exact and_iff_left rfl

theorem cons_iff {f p s h : Φ} {ps ss : List Φ} :
    Lookahead f (p :: ps) (s :: ss) h ↔ s = f ∧ Lookahead p ps ss h := by
  unfold Lookahead
  rw [List.cons_append, List.cons.injEq, @eq_comm Φ f]

/-- Two parts follow each other when the first one ends before the token that the second
one begins with. -/
theorem append_iff {p₂ s₂ : List Φ} {h : Φ} : ∀ {p₁ s₁ : List Φ} {f : Φ},
    p₁.length = s₁.length →
      (Lookahead f (p₁ ++ p₂) (s₁ ++ s₂) h ↔ ∃ x, Lookahead f p₁ s₁ x ∧ Lookahead x p₂ s₂ h) := by
  intro p₁
  induction p₁ with
  | nil =>
    intro s₁ f hlen
    obtain rfl := List.length_eq_zero_iff.mp hlen.symm
    constructor
    · exact fun h₂ => ⟨f, nil_iff.mpr rfl, h₂⟩
    · rintro ⟨x, h₁, h₂⟩
      obtain rfl := nil_iff.mp h₁
      exact h₂
  | cons p p₁ ih =>
    intro s₁ f hlen
    cases s₁ with
    | nil => cases hlen
    | cons s s₁ =>
      rw [List.cons_append, List.cons_append, cons_iff, ih (Nat.succ.inj hlen)]
      constructor
      · rintro ⟨hs, x, h₁, h₂⟩
        exact ⟨x, cons_iff.mpr ⟨hs, h₁⟩, h₂⟩
      · rintro ⟨x, h₁, h₂⟩
        exact ⟨(cons_iff.mp h₁).1, x, (cons_iff.mp h₁).2, h₂⟩

/-- The token behind the source is the last one that was read. -/
theorem last {f p h : Φ} {ps ss : List Φ} (hread : Lookahead f (ps ++ [p]) ss h) : p = h := by
  unfold Lookahead at hread
  rw [← List.cons_append] at hread
  exact List.singleton_inj.mp (List.append_inj_right' hread rfl)

end Lookahead

/-- A source begins with the settings that it is given. -/
def Begins (S : Φ → Trace Φ) : Prop :=
  ∀ f, (S f).tokens.head? = some f ∨ (S f).tokens = [] ∧ (S f).after = f

theorem Begins.eq_of_lookahead {S : Φ → Trace Φ} (hS : Begins S) {f x : Φ} {read : List Φ}
    (h : Lookahead x read (S f).tokens (S f).after) : x = f := by
  unfold Lookahead at h
  rcases hS f with hhead | ⟨hnil, hafter⟩
  · have hx := congrArg List.head? h
    rw [List.head?_append, hhead] at hx
    exact Option.some.inj hx
  · rw [hnil, hafter, List.nil_append] at h
    exact (List.cons.inj h).1

/-- The settings of the tokens and of the nodes are those of the source. -/
def Passes (P S : Φ → Trace Φ) (f : Φ) : Prop :=
  Lookahead f (P f).tokens (S f).tokens (S f).after ∧ (P f).nodes = (S f).nodes

/-- The reader passes the source exactly under the condition. -/
structure ReadsAs (P S : Φ → Trace Φ) (L : Φ → Prop) : Prop where
  tokens_length : ∀ f g, (P f).tokens.length = (S g).tokens.length
  nodes_length : ∀ f g, (P f).nodes.length = (S g).nodes.length
  begins : Begins S
  ends : ∀ f, (P f).nodes = (S f).nodes → (P f).after = (S f).after
  exact : ∀ f, Passes P S f ↔ L f

namespace ReadsAs

variable {P P₁ P₂ S S₁ S₂ : Φ → Trace Φ} {L L₁ L₂ : Φ → Prop}

theorem of_iff {L' : Φ → Prop} (h : ReadsAs P S L) (hl : ∀ f, L f ↔ L' f) : ReadsAs P S L' :=
  ⟨h.tokens_length, h.nodes_length, h.begins, h.ends, fun f => (h.exact f).trans (hl f)⟩

theorem start : ReadsAs (Φ := Φ) Trace.start Trace.start fun _ => True where
  tokens_length _ _ := rfl
  nodes_length _ _ := rfl
  begins _ := .inr ⟨rfl, rfl⟩
  ends _ _ := rfl
  exact _ := iff_of_true ⟨Lookahead.nil_iff.mpr rfl, rfl⟩ trivial

theorem node : ReadsAs (Φ := Φ) Trace.node Trace.node fun _ => True where
  tokens_length _ _ := rfl
  nodes_length _ _ := rfl
  begins _ := .inr ⟨rfl, rfl⟩
  ends _ _ := rfl
  exact _ := iff_of_true ⟨Lookahead.nil_iff.mpr rfl, rfl⟩ trivial

theorem token : ReadsAs (Φ := Φ) Trace.token Trace.token fun _ => True where
  tokens_length _ _ := rfl
  nodes_length _ _ := rfl
  begins _ := .inl rfl
  ends _ _ := rfl
  exact _ := iff_of_true ⟨Lookahead.cons_iff.mpr ⟨rfl, Lookahead.nil_iff.mpr rfl⟩, rfl⟩ trivial

/-- A token that changes the settings: the next one is read with the new settings. -/
theorem change (d : Φ → Φ) :
    ReadsAs (fun f => Trace.token (d f)) (fun f => (Trace.token f).restore (d f))
      fun _ => True where
  tokens_length _ _ := rfl
  nodes_length _ _ := rfl
  begins _ := .inl rfl
  ends _ _ := rfl
  exact _ := iff_of_true ⟨Lookahead.cons_iff.mpr ⟨rfl, Lookahead.nil_iff.mpr rfl⟩, rfl⟩ trivial

theorem andThen (h₁ : ReadsAs P₁ S₁ L₁) (h₂ : ReadsAs P₂ S₂ L₂) :
    ReadsAs (fun f => (P₁ f).andThen P₂) (fun f => (S₁ f).andThen S₂)
      fun f => L₁ f ∧ L₂ (S₁ f).after where
  tokens_length f g := by
    simp only [Trace.andThen, List.length_append, h₁.tokens_length f g,
      h₂.tokens_length _ (S₁ g).after]
  nodes_length f g := by
    simp only [Trace.andThen, List.length_append, h₁.nodes_length f g,
      h₂.nodes_length _ (S₁ g).after]
  begins f := by
    simp only [Trace.andThen]
    rcases h₁.begins f with hhead | ⟨hnil, hafter⟩
    · left
      rw [List.head?_append, hhead]
      rfl
    · rw [hnil, hafter, List.nil_append]
      exact h₂.begins f
  ends f hnodes := by
    obtain ⟨hn₁, hn₂⟩ := List.append_inj hnodes (h₁.nodes_length f f)
    have hafter := h₁.ends f hn₁
    rw [hafter] at hn₂
    show (P₂ (P₁ f).after).after = (S₂ (S₁ f).after).after
    rw [hafter]
    exact h₂.ends _ hn₂
  exact f := by
    rw [← h₁.exact f, ← h₂.exact (S₁ f).after]
    constructor
    · rintro ⟨htokens, hnodes⟩
      obtain ⟨hn₁, hn₂⟩ := List.append_inj hnodes (h₁.nodes_length f f)
      have hafter := h₁.ends f hn₁
      obtain ⟨x, hx, hrest⟩ := (Lookahead.append_iff (h₁.tokens_length f f)).mp htokens
      -- The rest of the source tells with what settings its first token is read.
      obtain rfl := h₂.begins.eq_of_lookahead hrest
      rw [hafter] at hrest hn₂
      exact ⟨⟨hx, hn₁⟩, hrest, hn₂⟩
    · rintro ⟨⟨hx, hn₁⟩, hrest, hn₂⟩
      have hafter := h₁.ends f hn₁
      constructor
      · refine (Lookahead.append_iff (h₁.tokens_length f f)).mpr ⟨_, hx, ?_⟩
        rw [hafter]
        exact hrest
      · show (P₁ f).nodes ++ _ = (S₁ f).nodes ++ _
        rw [hn₁, hafter, hn₂]

theorem done (h : ReadsAs P S L) :
    ReadsAs (fun f => (P f).done) (fun f => (S f).done) L where
  tokens_length := h.tokens_length
  nodes_length f g := by
    simp only [Trace.done, List.length_append, h.nodes_length f g, List.length_singleton]
  begins := h.begins
  ends f hnodes := h.ends f (List.append_inj_left hnodes (h.nodes_length f f))
  exact f := by
    rw [← h.exact f]
    refine and_congr_right fun _ => ⟨fun hnodes => ?_, fun hnodes => ?_⟩
    · exact List.append_inj_left hnodes (h.nodes_length f f)
    · show (P f).nodes ++ [(P f).after] = (S f).nodes ++ [(S f).after]
      rw [hnodes, h.ends f hnodes]

/-- The reader puts back what the source has anyway. -/
theorem restore (h : ReadsAs P S L) (hafter : ∀ f, (S f).after = f) :
    ReadsAs (fun f => (P f).restore f) S L where
  tokens_length := h.tokens_length
  nodes_length := h.nodes_length
  begins := h.begins
  ends f _ := (hafter f).symm
  exact := h.exact

/-- A scope without tokens of its own, after which the source puts the settings back and
the reader does not. -/
theorem scope (h : ReadsAs P S L) :
    ReadsAs (fun f => (P f).done) (fun f => ((S f).restore f).done)
      fun f => L f ∧ (S f).after = f where
  tokens_length := h.tokens_length
  nodes_length f g := by
    simp only [Trace.done, Trace.restore, List.length_append, h.nodes_length f g,
      List.length_singleton]
  begins f := (h.begins f).imp_right fun hnil => ⟨hnil.1, rfl⟩
  ends f hnodes :=
    List.singleton_inj.mp (List.append_inj_right hnodes (h.nodes_length f f))
  exact f := by
    rw [← h.exact f]
    constructor
    · rintro ⟨htokens, hnodes⟩
      obtain ⟨hn, hafter⟩ := List.append_inj hnodes (h.nodes_length f f)
      have hback : (S f).after = f := (h.ends f hn).symm.trans (List.singleton_inj.mp hafter)
      refine ⟨⟨?_, hn⟩, hback⟩
      rw [hback]
      exact htokens
    · rintro ⟨⟨htokens, hn⟩, hback⟩
      rw [hback] at htokens
      refine ⟨htokens, ?_⟩
      show (P f).nodes ++ [(P f).after] = (S f).nodes ++ [f]
      rw [hn, h.ends f hn, hback]

theorem enclosed (h : ReadsAs P S L) :
    ReadsAs (Trace.enclosed P) (Trace.enclosed S) L := by
  have hall := (token.andThen h).andThen (token (Φ := Φ))
  refine ⟨hall.tokens_length, hall.nodes_length, hall.begins, hall.ends, fun f => ?_⟩
  exact (hall.exact f).trans ⟨fun hl => hl.1.2, fun hl => ⟨⟨trivial, hl⟩, trivial⟩⟩

/-- A scope with tokens of its own. Whether the reader puts the settings back makes no
difference: it has read the token after the scope before. -/
theorem enclosedScope (h : ReadsAs P S L) (restores : Bool) :
    ReadsAs
      (fun f => (if restores then (Trace.enclosed P f).restore f else Trace.enclosed P f).done)
      (fun f => ((Trace.enclosed S f).restore f).done)
      fun f => L f ∧ (S f).after = f := by
  have hscope : ReadsAs (fun f => (Trace.enclosed P f).done)
      (fun f => ((Trace.enclosed S f).restore f).done) fun f => L f ∧ (S f).after = f :=
    h.enclosed.scope
  cases restores with
  | false => exact hscope
  | true =>
    have htrue : (fun f => (if true then (Trace.enclosed P f).restore f
        else Trace.enclosed P f).done) = fun f => ((Trace.enclosed P f).restore f).done := rfl
    rw [htrue]
    refine ⟨hscope.tokens_length, fun f g => ?_, hscope.begins, fun _ _ => rfl, fun f => ?_⟩
    · simp only [Trace.done, Trace.restore, List.length_append, h.enclosed.nodes_length f g,
        List.length_singleton]
    · rw [← hscope.exact f]
      constructor
      · rintro ⟨htokens, hnodes⟩
        refine ⟨htokens, ?_⟩
        have hn : (Trace.enclosed P f).nodes = (Trace.enclosed S f).nodes :=
          List.append_inj_left hnodes (h.enclosed.nodes_length f f)
        -- The closing token read the next one with the settings at the end of the scope.
        have hlast : (Trace.enclosed P f).after = f := Lookahead.last htokens
        show (Trace.enclosed P f).nodes ++ [_] = (Trace.enclosed S f).nodes ++ [f]
        rw [hn, hlast]
      · rintro ⟨htokens, hnodes⟩
        refine ⟨htokens, ?_⟩
        have hn : (Trace.enclosed P f).nodes = (Trace.enclosed S f).nodes :=
          List.append_inj_left hnodes (h.enclosed.nodes_length f f)
        show (Trace.enclosed P f).nodes ++ [f] = (Trace.enclosed S f).nodes ++ [f]
        rw [hn]

end ReadsAs

/-- A visitor has the settings of the source at every node exactly under the second
condition, where the first one holds. -/
structure VisitsAs (V S : Φ → Trace Φ) (L H : Φ → Prop) : Prop where
  length : ∀ f g, (V f).nodes.length = (S g).nodes.length
  after : ∀ f, L f → (V f).after = (S f).after
  exact : ∀ f, L f → ((V f).nodes = (S f).nodes ↔ H f)

namespace VisitsAs

variable {V V₁ V₂ S S₁ S₂ : Φ → Trace Φ} {L L₁ L₂ H H₁ H₂ : Φ → Prop}

theorem of_iff {L' H' : Φ → Prop} (h : VisitsAs V S L H) (hl : ∀ f, L' f ↔ L f)
    (hh : ∀ f, H f ↔ H' f) : VisitsAs V S L' H' where
  length := h.length
  after f hf := h.after f ((hl f).mp hf)
  exact f hf := (h.exact f ((hl f).mp hf)).trans (hh f)

/-- A visitor that depends on the settings which it starts with. -/
theorem of_forall {V : Φ → Φ → Trace Φ} {H : Φ → Φ → Prop} (h : ∀ f, VisitsAs (V f) S L (H f)) :
    VisitsAs (fun f => V f f) S L fun f => H f f where
  length f g := (h f).length f g
  after f := (h f).after f
  exact f := (h f).exact f

theorem start {S : Φ → Trace Φ} (hnodes : ∀ f, (S f).nodes = []) (hafter : ∀ f, (S f).after = f) :
    VisitsAs Trace.start S (fun _ => True) fun _ => True where
  length f g := by
    rw [hnodes g]
    rfl
  after f _ := (hafter f).symm
  exact f _ := iff_of_true (hnodes f).symm trivial

/-- A node at which the settings change. -/
theorem change (d : Φ → Φ) :
    VisitsAs (fun f => (Trace.node f).andThen fun f => .start (d f))
      (fun f => (Trace.node f).andThen fun f => (Trace.token f).restore (d f))
      (fun _ => True) fun _ => True where
  length _ _ := rfl
  after _ _ := rfl
  exact _ _ := iff_of_true rfl trivial

theorem andThen (h₁ : VisitsAs V₁ S₁ L₁ H₁) (h₂ : VisitsAs V₂ S₂ L₂ H₂) :
    VisitsAs (fun f => (V₁ f).andThen V₂) (fun f => (S₁ f).andThen S₂)
      (fun f => L₁ f ∧ L₂ (S₁ f).after) fun f => H₁ f ∧ H₂ (S₁ f).after where
  length f g := by
    simp only [Trace.andThen, List.length_append, h₁.length f g, h₂.length _ (S₁ g).after]
  after f hl := by
    show (V₂ (V₁ f).after).after = (S₂ (S₁ f).after).after
    rw [h₁.after f hl.1, h₂.after _ hl.2]
  exact f hl := by
    show (V₁ f).nodes ++ (V₂ (V₁ f).after).nodes = (S₁ f).nodes ++ (S₂ (S₁ f).after).nodes ↔ _
    rw [h₁.after f hl.1, ← h₁.exact f hl.1, ← h₂.exact _ hl.2]
    constructor
    · exact fun hnodes => List.append_inj hnodes (h₁.length f f)
    · rintro ⟨hn₁, hn₂⟩
      rw [hn₁, hn₂]

theorem done (h : VisitsAs V S L H) :
    VisitsAs (fun f => (V f).done) (fun f => (S f).done) L H where
  length f g := by
    simp only [Trace.done, List.length_append, h.length f g, List.length_singleton]
  after := h.after
  exact f hl := by
    show (V f).nodes ++ [(V f).after] = (S f).nodes ++ [(S f).after] ↔ _
    rw [h.after f hl, ← h.exact f hl]
    exact List.append_left_inj _

theorem scope (h : VisitsAs V S L H) :
    VisitsAs (fun f => (V f).done) (fun f => ((S f).restore f).done)
      (fun f => L f ∧ (S f).after = f) H where
  length f g := by
    simp only [Trace.done, Trace.restore, List.length_append, h.length f g, List.length_singleton]
  after f hl := (h.after f hl.1).trans hl.2
  exact f hl := by
    show (V f).nodes ++ [(V f).after] = (S f).nodes ++ [f] ↔ _
    rw [h.after f hl.1, hl.2, ← h.exact f hl.1]
    exact List.append_left_inj _

/-- The tokens around a scope are no nodes. -/
theorem enclosed (h : VisitsAs V S L H) : VisitsAs V (Trace.enclosed S) L H := by
  have hnodes : ∀ f, (Trace.enclosed S f).nodes = (S f).nodes := by
    intro f
    show [] ++ (S f).nodes ++ [] = _
    rw [List.nil_append, List.append_nil]
  refine ⟨fun f g => ?_, h.after, fun f hl => ?_⟩
  · rw [hnodes, h.length f g]
  · rw [hnodes]
    exact h.exact f hl

end VisitsAs

end Quirrel.Lib
