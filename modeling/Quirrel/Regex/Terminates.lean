import Mathlib.Algebra.Order.BigOperators.Group.List
import Mathlib.Algebra.Order.Group.Nat
import Quirrel.Regex.Compiled
import Quirrel.Regex.Match

/-!
# Matching ends

On the node array of a compiled pattern `matchnode` ends with a result for every text, within a
recursion no deeper than there are nodes (`matchnode_matches`). What a call measures is the interval
of its node and the one of what follows it (`Ready`): below the node the first one shrinks, in the
look ahead the first one is gone.
-/

set_option autoImplicit false

namespace Quirrel.Regex

open Quirrel.Lib Quirrel.Lib.Fallible

variable {α β : Type} {σ : Exec} {Q : α → Exec → Prop} {R : β → Exec → Prop}

/-- The computation ends with a value. -/
def Finishes (c : MatchM α) (σ : Exec) (Q : α → Exec → Prop) : Prop :=
  Ensures c σ (fun _ _ => False) Q

/-! ## Steps -/

theorem Finishes.pure {a : α} (h : Q a σ) : Finishes (Pure.pure a) σ Q := Ensures.pure h

/-- The rule of consequence. -/
theorem Finishes.mono {Q' : α → Exec → Prop} {c : MatchM α} (h : Finishes c σ Q)
    (hQ : ∀ a σ', Q a σ' → Q' a σ') : Finishes c σ Q' :=
  Ensures.mono h (fun _ _ he => he) hQ

/-- One computation after the other. -/
theorem Finishes.bind {c : MatchM α} {k : α → MatchM β} (h : Finishes c σ Q)
    (hk : ∀ a σ', Q a σ' → Finishes (k a) σ' R) : Finishes (c >>= k) σ R :=
  Ensures.bind (h.mono hk)

theorem Finishes.map {c : MatchM α} (f : α → β) (h : Finishes c σ fun a σ' => R (f a) σ') :
    Finishes (f <$> c) σ R := by
  rw [map_eq_pure_bind]
  exact h.bind fun _ _ ha => .pure ha

/-- A branch, with what its test says. -/
theorem Finishes.ite {p : Prop} [Decidable p] {c d : MatchM α} (hc : p → Finishes c σ Q)
    (hd : ¬p → Finishes d σ Q) : Finishes (if p then c else d) σ Q := by
  split
  · exact hc ‹_›
  · exact hd ‹_›

theorem Finishes.get_bind {k : Exec → MatchM β} (h : Finishes (k σ) σ R) :
    Finishes (get >>= k) σ R := h

theorem Finishes.modify_bind {f : Exec → Exec} {k : Unit → MatchM β}
    (h : Finishes (k ()) (f σ) R) : Finishes (modify f >>= k) σ R := h

theorem Finishes.setSubexp_bind {i : Int} {k : Unit → MatchM β}
    (h : Finishes (k ()) { σ with currsubexp := i } R) : Finishes (setSubexp i >>= k) σ R := h

/-- The node at an index that is there. -/
theorem nodeAt_eq {nodes : List SQRexNode} {i : Int} {j : Nat} {n : SQRexNode} (hi : i = j)
    (hn : nodes[j]? = some n) : nodeAt nodes i = Pure.pure n := by
  subst hi
  rw [nodeAt, if_pos (Int.natCast_nonneg j), Int.toNat_natCast, hn]

/-- A link that is there leads to its node. -/
theorem nodeOr_eq {nodes : List SQRexNode} {i : Int} {j : Nat} {n : SQRexNode} (hi : i = j)
    (hn : nodes[j]? = some n) (other : Option SQRexNode) :
    nodeOr nodes i other = Pure.pure (some n) := by
  have hne : i ≠ -1 := by rintro rfl; cases hi
  rw [nodeOr, if_pos hne, nodeAt_eq hi hn, map_pure]

/-- The link -1 leads to what follows outside. -/
theorem nodeOr_last (nodes : List SQRexNode) (other : Option SQRexNode) :
    nodeOr nodes (-1) other = Pure.pure other := by
  rw [nodeOr, if_neg (not_not.mpr rfl)]

/-- A character inside the text. -/
theorem charAt_eq {text : CString} {str : Nat} (h : str < text.length) :
    charAt text str = Pure.pure text[str].toInt := by
  rw [charAt, List.getElem?_eq_getElem h]

/-! ## What a match keeps -/

/-- The positions of the run of a loop, the last one first: none is before the one that it came from,
and only the last step may be to the same one. -/
def Advances (trail : List Nat) : Prop :=
  trail.Pairwise (· ≥ ·) ∧ trail.tail.Pairwise (· > ·)

/-- There is a match for every group, and every repetition that a step did not advance ended with
that step. -/
structure Exec.Sound (nsubexpr : Nat) (σ : Exec) : Prop where
  length : σ.rexMatches.length = nsubexpr
  advances : ∀ trail ∈ σ.repetitions, Advances trail

/-- The match from `str` on ends in the text and not before `str`. -/
def InText (text : CString) (str : Nat) (res : Option Nat) : Prop :=
  ∀ stop, res = some stop → str ≤ stop ∧ stop ≤ text.length

theorem InText.none {text : CString} {str : Nat} : InText text str none := nofun

/-- A place between the start and the end of the text. -/
theorem InText.of_le {text : CString} {str stop : Nat} (h : str ≤ stop) (h' : stop ≤ text.length) :
    InText text str (some stop) := by
  rintro _ ⟨⟩
  exact ⟨h, h'⟩

theorem InText.trans {text : CString} {str mid : Nat} {res : Option Nat} (h : str ≤ mid)
    (hres : InText text mid res) : InText text str res :=
  fun stop hstop => ⟨h.trans (hres stop hstop).1, (hres stop hstop).2⟩

/-- What holds after a match from `str` on. -/
def Exec.After (nsubexpr : Nat) (text : CString) (str : Nat) (res : Option Nat) (σ : Exec) : Prop :=
  σ.Sound nsubexpr ∧ InText text str res

/-- A matcher from a node on, for what it is ready for. -/
def Matches (nsubexpr : Nat) (text : CString) (c : MatchM (Option Nat)) (str : Nat) : Prop :=
  ∀ σ : Exec, σ.Sound nsubexpr → str ≤ text.length → Finishes c σ (Exec.After nsubexpr text str)

variable {nsubexpr lo hi : Nat} {nodes : List SQRexNode} {text : CString}

/-! ## Single nodes -/

/-- The walk over the list of a set ends, as the links rise. -/
theorem matchclass_finishes {i budget : Nat} {n : SQRexNode} (hrise : Rising nodes lo hi)
    (hn : nodes[i]? = some n) (hlo : lo ≤ i) (hi' : i < hi) (hbudget : hi ≤ i + budget) (c : Int) :
    Finishes (matchclass nodes budget n c) σ fun _ σ' => σ' = σ := by
  induction budget generalizing i n with
  | zero => exact absurd hi' (Nat.not_lt.mpr hbudget)
  | succ budget ih =>
    refine .ite (fun _ => .pure rfl) fun _ => .ite (fun hne => ?_) fun _ => .pure rfl
    obtain ⟨m, hm, hnext⟩ := hrise i hlo hi'
    cases hn.symm.trans hm
    obtain ⟨j, hj, hlt, hjlt⟩ := hnext.resolve_left hne
    obtain ⟨m, hm, -⟩ := hrise j (hlo.trans hlt.le) hjlt
    rw [nodeAt_eq hj hm]
    exact ih hm (hlo.trans hlt.le) hjlt (by omega)

/-- A test of one character ends behind it, or fails. -/
theorem single_finishes {str : Nat} {test : Int → MatchM Bool} (hs : σ.Sound nsubexpr)
    (hstr : str ≤ text.length) (htest : ∀ c, Finishes (test c) σ fun _ σ' => σ' = σ) :
    Finishes (single text str test) σ (Exec.After nsubexpr text str) := by
  refine .ite (fun _ => .pure ⟨hs, .none⟩) fun hne => ?_
  have hlt : str < text.length := lt_of_le_of_ne hstr hne
  rw [charAt_eq hlt]
  refine (htest _).bind ?_
  rintro b _ rfl
  exact .ite (fun _ => .pure ⟨hs, .of_le (Nat.le_succ _) hlt⟩) fun _ => .pure ⟨hs, .none⟩

/-- The test of a word boundary ends and moves nothing. -/
theorem wordBoundary_finishes {str : Nat} (hstr : str ≤ text.length) :
    Finishes (wordBoundary text str) σ fun _ σ' => σ' = σ := by
  refine .ite (fun hzero => ?_) fun hpos => .ite (fun heol => ?_) fun hne => ?_
  · refine .ite (fun hlt => ?_) fun _ => .pure rfl
    rw [charAt_eq hlt]
    exact .pure rfl
  · rw [charAt_eq (show str - 1 < text.length by omega)]
    exact .pure rfl
  · rw [charAt_eq (lt_of_le_of_ne hstr hne), charAt_eq (show str - 1 < text.length by omega)]
    exact .pure rfl

/-- A balanced match ends inside the text. -/
theorem scanBalanced_inText {cb ce : Int} {cs : CString} {cont str : Nat}
    (h : str + cs.length = text.length) : InText text str (scanBalanced cb ce cs cont str) := by
  induction cs generalizing cont str with
  | nil => exact .none
  | cons c cs ih =>
    have hrest : str + 1 + cs.length = text.length := by
      rw [← h, List.length_cons]
      omega
    have hle : str + 1 ≤ text.length := hrest ▸ Nat.le_add_right _ _
    rw [scanBalanced]
    split
    · split
      · exact .of_le (Nat.le_succ _) hle
      · exact .trans (Nat.le_succ _) (ih hrest)
    · exact .trans (Nat.le_succ _) (ih hrest)

/-- The nodes of a class, from the one that its head names on. -/
def SetOf (nodes : List SQRexNode) (budget : Nat) (n : SQRexNode) : Prop :=
  ∃ j m lo hi, n.left = (j : Nat) ∧ nodes[j]? = some m ∧ Rising nodes lo hi ∧ lo ≤ j ∧ j < hi ∧
    hi ≤ j + budget

/-- The list of a set has a first node, and the walk from it ends. -/
theorem SetOf.head {budget : Nat} {n : SQRexNode} (h : SetOf nodes budget n) :
    ∃ m, nodeAt nodes n.left = Pure.pure m ∧
      ∀ (c : Int) (σ : Exec), Finishes (matchclass nodes budget m c) σ fun _ σ' => σ' = σ := by
  obtain ⟨j, m, lo, hi, hleft, hm, hrise, hlo, hhi, hbudget⟩ := h
  exact ⟨m, nodeAt_eq hleft hm, fun c _ => matchclass_finishes hrise hm hlo hhi hbudget c⟩

/-- A node that takes one character matches inside the text. -/
theorem matchSingle_matches {budget str : Nat} {n : SQRexNode}
    (hset : n.type.isSet = true → SetOf nodes budget n) :
    Matches nsubexpr text (matchSingle nodes text budget n str) str := by
  intro σ hs hstr
  have hhere : ∀ (p : Prop) [Decidable p],
      Exec.After nsubexpr text str (if p then some str else none) σ := by
    intro p _
    split
    · exact ⟨hs, .of_le (Nat.le_refl _) hstr⟩
    · exact ⟨hs, .none⟩
  rw [matchSingle]
  split
  · refine (wordBoundary_finishes hstr).bind ?_
    rintro b _ rfl
    exact .pure (hhere _)
  · exact .pure (hhere _)
  · exact .pure (hhere _)
  · exact single_finishes hs hstr fun _ => .pure rfl
  · obtain ⟨m, hm, hclass⟩ := (hset (by rw [‹n.type = _›]; rfl)).head
    rw [hm]
    exact single_finishes hs hstr fun c => hclass c σ
  · obtain ⟨m, hm, hclass⟩ := (hset (by rw [‹n.type = _›]; rfl)).head
    rw [hm]
    refine single_finishes hs hstr fun c => (hclass c σ).bind ?_
    rintro _ _ rfl
    exact .pure rfl
  · exact single_finishes hs hstr fun _ => .pure rfl
  · refine .ite (fun _ => .pure ⟨hs, .none⟩) fun hne => ?_
    have hlt : str < text.length := lt_of_le_of_ne hstr hne
    rw [charAt_eq hlt]
    refine .ite (fun _ => .pure ⟨hs, .none⟩) fun _ => .pure ⟨hs, ?_⟩
    refine .trans (Nat.le_succ _) (scanBalanced_inText ?_)
    rw [List.length_drop]
    omega
  · exact single_finishes hs hstr fun _ => .pure rfl

/-! ## Quantifiers -/

/-- The loop of a repetition ends where it stands, or fails. -/
theorem leaveLoop_finishes {p0 p1 nmaches : Int} {str s : Nat} {trail : List Nat}
    (hs : σ.Sound nsubexpr) (htrail : Advances (s :: trail)) (hstr : str ≤ s)
    (hlen : s ≤ text.length) :
    Finishes (leaveLoop p0 p1 nmaches s trail) σ (Exec.After nsubexpr text str) := by
  refine .modify_bind (.pure ⟨⟨hs.length, ?_⟩, ?_⟩)
  · intro t ht
    rcases List.mem_cons.mp ht with rfl | ht
    · exact htrail
    · exact hs.advances t ht
  · split
    · exact .of_le hstr hlen
    · exact .none

/-- At most `0x10000` iterations: a loop without an upper bound goes on once more after `0xFFFF`. -/
theorem greedyLoop_matches {body : Nat → MatchM (Option Nat)} {stop : Nat → MatchM Bool}
    {p0 p1 nmaches : Int} {budget str s : Nat} {trail : List Nat}
    (hbody : ∀ s, Matches nsubexpr text (body s) s)
    (hstop : ∀ (s : Nat) (σ : Exec), σ.Sound nsubexpr → s ≤ text.length →
      Finishes (stop s) σ fun _ σ' => σ'.Sound nsubexpr)
    (hp1 : p1 ≤ 0xFFFF) (hmaches : nmaches ≤ 0x10000) (hbudget : 0x10000 < nmaches + budget)
    (hstr : str ≤ s) (htrail : (s :: trail).Pairwise (· > ·)) (hs : σ.Sound nsubexpr)
    (hlen : s ≤ text.length) :
    Finishes (greedyLoop text body stop p0 p1 budget nmaches s trail) σ
      (Exec.After nsubexpr text str) := by
  induction budget generalizing nmaches s trail σ with
  | zero => exact absurd hbudget (by simpa using hmaches)
  | succ budget ih =>
    have hge : (s :: trail).Pairwise (· ≥ ·) := htrail.imp fun h => Nat.le_of_lt h
    refine .ite (fun hmore => ?_) fun _ => leaveLoop_finishes hs ⟨hge, htrail.tail⟩ hstr hlen
    refine (hbody s σ hs hlen).bind fun r σ' hafter => ?_
    cases r with
    | none => exact leaveLoop_finishes hafter.1 ⟨hge, htrail.tail⟩ hstr hlen
    | some s' =>
      obtain ⟨hle, hlen'⟩ := hafter.2 s' rfl
      have hadv : Advances (s' :: s :: trail) := by
        refine ⟨List.pairwise_cons.mpr ⟨fun a ha => ?_, hge⟩, htrail⟩
        rcases List.mem_cons.mp ha with rfl | ha
        · exact hle
        · exact (List.rel_of_pairwise_cons hge ha).trans hle
      have hleave : ∀ {σ : Exec}, σ.Sound nsubexpr →
          Finishes (leaveLoop p0 p1 (nmaches + 1) s' (s :: trail)) σ (Exec.After nsubexpr text str) :=
        fun hs' => leaveLoop_finishes hs' hadv (hstr.trans hle) hlen'
      refine .ite (fun _ => hleave hafter.1) fun hne => ?_
      refine (hstop s' σ' hafter.1 hlen').bind fun stopped σ'' hs'' => ?_
      refine .ite (fun _ => hleave hs'') fun _ => .ite (fun _ => hleave hs'') fun _ => ?_
      -- the step advanced
      have hgt : s < s' := lt_of_le_of_ne hle (Ne.symm hne)
      refine ih (by omega) (by push_cast at hbudget; omega) (hstr.trans hle) ?_ hs'' hlen'
      refine List.pairwise_cons.mpr ⟨fun a ha => ?_, htrail⟩
      rcases List.mem_cons.mp ha with rfl | ha
      · exact hgt
      · exact (List.rel_of_pairwise_cons htrail ha).trans hgt

/-! ## What a call measures -/

/-- What follows a node is nothing, or a chain of at most `s` nodes. -/
inductive Cont (nsubexpr : Nat) (nodes : List SQRexNode) : Option SQRexNode → Nat → Prop
  | none {s : Nat} : Cont nsubexpr nodes none s
  | chain {j lo hi s : Nat} {n : SQRexNode} : nodes[j]? = some n →
      Built nsubexpr nodes (.chain j) lo hi → hi - lo ≤ s → Cont nsubexpr nodes (some n) s

/-- What the parameter `next` of a call is for the node `n`: where the node has a `next` of its own,
the two are the same, or the call of an alternative passed none. -/
def Follows (nsubexpr : Nat) (nodes : List SQRexNode) (n : SQRexNode) (next : Option SQRexNode)
    (s : Nat) : Prop :=
  n.next = -1 ∧ Cont nsubexpr nodes next s ∨
    ∃ j m, n.next = (j : Nat) ∧ nodes[j]? = some m ∧ Cont nsubexpr nodes (some m) s ∧
      (next = none ∨ next = some m)

/-- A call for a node that is `Built`, and for what follows it, with together at most `measure`
nodes. -/
def Ready (nsubexpr : Nat) (nodes : List SQRexNode) (n : SQRexNode) (next : Option SQRexNode)
    (measure : Nat) : Prop :=
  ∃ i lo hi s, nodes[i]? = some n ∧ Built nsubexpr nodes (.item i) lo hi ∧
    Follows nsubexpr nodes n next s ∧ hi - lo + s ≤ measure

variable {n : SQRexNode} {next : Option SQRexNode} {s : Nat}

/-- What may follow from a place may follow from a later one. -/
theorem Cont.mono {s' : Nat} (h : Cont nsubexpr nodes next s) (hle : s ≤ s') :
    Cont nsubexpr nodes next s' := by
  cases h with
  | none => exact .none
  | chain hn hb hs => exact .chain hn hb (hs.trans hle)

theorem Follows.cont (h : Follows nsubexpr nodes n next s) : Cont nsubexpr nodes next s := by
  rcases h with ⟨-, h⟩ | ⟨j, m, -, -, h, rfl | rfl⟩
  · exact h
  · exact .none
  · exact h

/-- What a quantifier stops at is what follows its node. -/
theorem Follows.greedystop (h : Follows nsubexpr nodes n next s) :
    ∃ g, nodeOr nodes n.next next = Pure.pure g ∧ Cont nsubexpr nodes g s ∧
      (next = none ∨ next = g) := by
  rcases h with ⟨hnext, h⟩ | ⟨j, m, hnext, hm, h, hor⟩
  · rw [hnext]
    exact ⟨next, nodeOr_last nodes next, h, Or.inr rfl⟩
  · exact ⟨some m, nodeOr_eq hnext hm next, h, hor⟩

/-- A chain that was built has a first node. -/
theorem Built.head {i : Nat} (h : Built nsubexpr nodes (.chain i) lo hi) :
    ∃ n, nodes[i]? = some n := by
  cases h with
  | last hn _ _ => exact ⟨_, hn⟩
  | next hn _ _ _ => exact ⟨_, hn⟩

/-- The two shapes of a chain, with the call for its first node. -/
theorem Built.chain_cases {i : Nat} (h : Built nsubexpr nodes (.chain i) lo hi)
    (hn : nodes[i]? = some n) :
    (n.next = -1 ∧ ∀ next s, Cont nsubexpr nodes next s → Ready nsubexpr nodes n next (hi - lo + s)) ∨
    ∃ j m mid, n.next = (j : Nat) ∧ nodes[j]? = some m ∧ lo < mid ∧
      Built nsubexpr nodes (.chain j) mid hi ∧
      ∀ next, next = none ∨ next = some m → Ready nsubexpr nodes n next (hi - lo) := by
  cases h with
  | last hi' hnext hb =>
    cases hn.symm.trans hi'
    exact Or.inl ⟨hnext, fun next s hc => ⟨i, lo, hi, s, hn, hb, Or.inl ⟨hnext, hc⟩, Nat.le_refl _⟩⟩
  | next hi' hnext hb hrest =>
    rename_i j mid n'
    cases hn.symm.trans hi'
    obtain ⟨m, hm⟩ := hrest.head
    refine Or.inr ⟨j, m, mid, hnext, hm, hb.lt, hrest, fun next hor => ?_⟩
    refine ⟨i, lo, mid, hi - mid, hn, hb, Or.inr ⟨j, m, hnext, hm, .chain hm hrest ?_, hor⟩, ?_⟩
    · exact Nat.le_refl _
    · have := hb.lt
      have := hrest.lt
      omega

/-- The interval of a part is in the array. -/
theorem Built.le_length {part : Part} (h : Built nsubexpr nodes part lo hi) :
    hi ≤ nodes.length := by
  have hlt : ∀ {i : Nat} {n : SQRexNode}, nodes[i]? = some n → i + 1 ≤ nodes.length :=
    fun hn => (List.getElem?_eq_some_iff.mp hn).1
  induction h with
  | leaf hn _ => exact hlt hn
  | set _ _ _ hj hhi hrise =>
    obtain ⟨n, hn, -⟩ := hrise (_ - 1) (by omega) (Nat.sub_lt (by omega) Nat.one_pos)
    have := hlt hn
    omega
  | group _ _ _ _ ih => exact ih
  | greedy hn _ _ _ _ _ _ => exact hlt hn
  | or _ _ _ _ _ _ _ ihr => exact ihr
  | last _ _ _ ih => exact ih
  | next _ _ _ _ _ ihr => exact ihr

/-! ## Chains -/

variable {matcher : SQRexNode → Nat → Option SQRexNode → MatchM (Option Nat)} {depth : Nat}

/-- A matcher for all calls of at most `depth` nodes. -/
def MatchesTo (nsubexpr : Nat) (nodes : List SQRexNode) (text : CString)
    (matcher : SQRexNode → Nat → Option SQRexNode → MatchM (Option Nat)) (depth : Nat) : Prop :=
  ∀ (n : SQRexNode) (next : Option SQRexNode) (str : Nat), Ready nsubexpr nodes n next depth →
    Matches nsubexpr text (matcher n str next) str

theorem Ready.mono {measure measure' : Nat} (h : Ready nsubexpr nodes n next measure)
    (hle : measure ≤ measure') : Ready nsubexpr nodes n next measure' := by
  obtain ⟨i, lo, hi, s, hn, hb, hf, hs⟩ := h
  exact ⟨i, lo, hi, s, hn, hb, hf, hs.trans hle⟩

/-- The loop over a branch of `|` ends, as each node of the chain is one further on. -/
theorem orLoop_matches {i budget str : Nat} (hmatcher : MatchesTo nsubexpr nodes text matcher depth)
    (hb : Built nsubexpr nodes (.chain i) lo hi) (hn : nodes[i]? = some n) (hdepth : hi - lo ≤ depth)
    (hbudget : hi - lo ≤ budget) :
    Matches nsubexpr text (orLoop nodes matcher budget n str) str := by
  induction budget generalizing i lo n str with
  | zero => exact absurd hb.lt (by omega)
  | succ budget ih =>
    intro σ hs hstr
    rcases hb.chain_cases hn with ⟨hnext, hready⟩ | ⟨j, m, mid, hnext, hm, hmid, hrest, hready⟩
    · refine (hmatcher n none str ((hready none 0 .none).mono hdepth) σ hs hstr).bind ?_
      rintro (_ | asd) σ' hafter
      · exact .pure hafter
      · exact .ite (fun hne => absurd hnext hne) fun _ => .pure hafter
    · refine (hmatcher n none str ((hready none (Or.inl rfl)).mono hdepth) σ hs hstr).bind ?_
      rintro (_ | asd) σ' hafter
      · exact .pure hafter
      · obtain ⟨hle, hlen⟩ := hafter.2 asd rfl
        refine .ite (fun _ => ?_) fun _ => .pure hafter
        rw [nodeAt_eq hnext hm]
        refine (ih hrest hm (by omega) (by omega) σ' hafter.1 hlen).mono fun _ _ h => ?_
        exact ⟨h.1, h.2.trans hle⟩

/-- The loop over a group ends, as each node of the chain is one further on. -/
theorem exprLoop_matches {i budget str : Nat} (hmatcher : MatchesTo nsubexpr nodes text matcher depth)
    (hb : Built nsubexpr nodes (.chain i) lo hi) (hn : nodes[i]? = some n)
    (hcont : Cont nsubexpr nodes next s) (hdepth : hi - lo + s ≤ depth) (hbudget : hi - lo ≤ budget) :
    Matches nsubexpr text (exprLoop nodes matcher next budget n str) str := by
  induction budget generalizing i lo n str with
  | zero => exact absurd hb.lt (by omega)
  | succ budget ih =>
    intro σ hs hstr
    rcases hb.chain_cases hn with ⟨hnext, hready⟩ | ⟨j, m, mid, hnext, hm, hmid, hrest, hready⟩
    · rw [exprLoop, hnext, nodeOr_last]
      refine (hmatcher n next str ((hready next s hcont).mono hdepth) σ hs hstr).bind ?_
      rintro (_ | cur) σ' hafter
      · exact .pure hafter
      · exact .ite (fun hne => absurd rfl hne) fun _ => .pure hafter
    · rw [exprLoop, nodeOr_eq hnext hm]
      refine (hmatcher n (some m) str ((hready _ (Or.inr rfl)).mono (by omega)) σ hs hstr).bind ?_
      rintro (_ | cur) σ' hafter
      · exact .pure hafter
      · obtain ⟨hle, hlen⟩ := hafter.2 cur rfl
        refine .ite (fun _ => ?_) fun _ => .pure hafter
        rw [nodeAt_eq hnext hm]
        refine (ih hrest hm (by omega) (by omega) σ' hafter.1 hlen).mono fun _ _ h => ?_
        exact ⟨h.1, h.2.trans hle⟩

/-! ## Captures -/

theorem setMatch_finishes {i : Int} {f : SQRexMatch → SQRexMatch} (hs : σ.Sound nsubexpr)
    (hi : 0 ≤ i ∧ i < nsubexpr) : Finishes (setMatch i f) σ fun _ σ' => σ'.Sound nsubexpr := by
  refine .get_bind (.ite (fun _ => Ensures.set ⟨?_, hs.advances⟩) fun hne => ?_)
  · exact (List.length_modify ..).trans hs.length
  · rw [hs.length] at hne
    exact absurd hi hne

/-- The capture that a group opens is one that the pattern counts. -/
theorem openCapture_finishes {str : Nat} (hs : σ.Sound nsubexpr) (hn : n.IsGroup nsubexpr) :
    Finishes (openCapture n str) σ fun capture σ' =>
      σ'.Sound nsubexpr ∧ ∀ i, capture = some i → 0 ≤ i ∧ i < nsubexpr := by
  refine .get_bind (.ite (fun hcap => ?_) fun _ => .pure ⟨hs, nofun⟩)
  have hi : 0 ≤ σ.currsubexp ∧ σ.currsubexp < nsubexpr :=
    hcap.2 ▸ (hn.resolve_left hcap.1).2
  refine (setMatch_finishes hs hi).bind fun _ σ' hs' => .setSubexp_bind (.pure ⟨?_, ?_⟩)
  · exact ⟨hs'.length, hs'.advances⟩
  · rintro _ ⟨⟩
    exact hi

/-- Closing a capture keeps the state sound. -/
theorem closeCapture_finishes {tempcap : Int} {capture : Option Int} {str cur : Nat}
    (hcap : ∀ i, capture = some i → 0 ≤ i ∧ i < nsubexpr)
    (h : σ.After nsubexpr text str (some cur)) :
    Finishes (closeCapture tempcap capture cur) σ (Exec.After nsubexpr text str) := by
  have hs : Exec.Sound nsubexpr { σ with currsubexp := tempcap } := ⟨h.1.length, h.1.advances⟩
  refine .setSubexp_bind ?_
  cases capture with
  | none => exact .pure ⟨hs, h.2⟩
  | some i => exact (setMatch_finishes hs (hcap i rfl)).bind fun _ _ hs' => .pure ⟨hs', h.2⟩

theorem dropCapture_finishes {capture : Option Int} {str : Nat}
    (hcap : ∀ i, capture = some i → 0 ≤ i ∧ i < nsubexpr) (hs : σ.Sound nsubexpr) :
    Finishes (dropCapture capture) σ (Exec.After nsubexpr text str) := by
  cases capture with
  | none => exact .pure ⟨hs, .none⟩
  | some i => exact (setMatch_finishes hs (hcap i rfl)).bind fun _ _ hs' => .pure ⟨hs', .none⟩

/-! ## `sqstd_rex_matchnode` -/

variable {budget str : Nat}

/-- A node that takes one character, without the depth. -/
theorem matchnode_single (ht : n.type.isLeaf = true ∨ n.type.isSet = true) :
    matchnode nodes text budget (depth + 1) n str next = matchSingle nodes text budget n str := by
  rw [matchnode]
  split
  all_goals first
    | rfl
    | rw [‹n.type = _›] at ht
      rcases ht with ht | ht <;> cases ht

theorem NodeType.not_isSet {type : NodeType} (h : type.isLeaf = true) : type.isSet ≠ true := by
  cases type with
  | opClass | opNclass => cases h
  | _ => exact nofun

/-- The branch of `matchnode` for a group. -/
theorem matchnode_group (hn : n.IsGroup nsubexpr) :
    matchnode nodes text budget (depth + 1) n str next = (do
      let m ← nodeAt nodes n.left
      let capture ← openCapture n str
      let tempcap := (← get).currsubexp
      match ← exprLoop nodes (matchnode nodes text budget depth) next budget m str with
      | some cur => closeCapture tempcap capture cur
      | none => dropCapture capture) := by
  cases n
  rcases hn with ht | ⟨ht, -⟩
  · cases ht
    rfl
  · cases ht
    rfl

/-- The branch of `matchnode` for a repetition. -/
theorem matchnode_greedy (ht : n.type = .opGreedy) :
    matchnode nodes text budget (depth + 1) n str next = (do
      let greedystop ← nodeOr nodes n.next next
      greedyLoop text
        (fun s => do matchnode nodes text budget depth (← nodeAt nodes n.left) s greedystop)
        (lookahead nodes (matchnode nodes text budget depth) greedystop next)
        n.p0 n.p1 budget 0 str []) := by
  rw [matchnode, ht]

/-- The branch of `matchnode` for `|`. -/
theorem matchnode_or (ht : n.type = .opOr) :
    matchnode nodes text budget (depth + 1) n str next = (do
      let l ← nodeAt nodes n.left
      match ← orLoop nodes (matchnode nodes text budget depth) budget l str with
      | some asd => return some asd
      | none => do
        let r ← nodeAt nodes n.right
        orLoop nodes (matchnode nodes text budget depth) budget r str) := by
  cases n
  cases ht
  rfl

/-- The look behind a repetition ends. -/
theorem lookahead_finishes {greedystop : Option SQRexNode}
    (hmatcher : MatchesTo nsubexpr nodes text matcher depth)
    (hcont : Cont nsubexpr nodes greedystop s) (hnext : next = none ∨ next = greedystop)
    (hdepth : s ≤ depth) (hs : σ.Sound nsubexpr) (hstr : str ≤ text.length) :
    Finishes (lookahead nodes matcher greedystop next str) σ fun _ σ' => σ'.Sound nsubexpr := by
  cases hcont with
  | none => exact .pure hs
  | chain hm hb hle =>
    rename_i j lo hi g
    refine .ite (fun _ => ?_) fun _ => .pure hs
    rcases hb.chain_cases hm with ⟨hlast, hready⟩ | ⟨k, m, mid, hlast, hk, hmid, hrest, hready⟩
    · -- without a `next` of its own it is the `next` of the call
      have hnone : lookaheadNext nodes g next = Pure.pure none := by
        unfold lookaheadNext
        rw [if_neg (not_not.mpr hlast)]
        rcases hnext with rfl | rfl
        · rfl
        · show nodeOr nodes g.next none = _
          rw [hlast, nodeOr_last]
      have hcall := (hready none 0 .none).mono (hle.trans hdepth)
      rw [hnone, pure_bind]
      exact (hmatcher g none str hcall σ hs hstr).bind fun _ _ hafter => .pure hafter.1
    · have hsome : lookaheadNext nodes g next = Pure.pure (some m) := by
        have hne : g.next ≠ -1 := by
          rw [hlast]
          exact nofun
        unfold lookaheadNext
        rw [if_pos hne, nodeAt_eq hlast hk, map_pure]
      have hcall := (hready (some m) (Or.inr rfl)).mono (hle.trans hdepth)
      rw [hsome, pure_bind]
      exact (hmatcher g (some m) str hcall σ hs hstr).bind fun _ _ hafter => .pure hafter.1

/-- The recursion is no deeper than the measure of the call. -/
theorem matchnode_matches (hnodes : nodes.length ≤ budget) (hloop : 0x10000 < budget) (depth : Nat) :
    MatchesTo nsubexpr nodes text (matchnode nodes text budget depth) depth := by
  -- on the depth of the recursion, and in it one case for each kind of node of a built expression
  induction depth with
  | zero =>
    rintro n next str ⟨i, lo, hi, s, hn, hb, hf, hle⟩
    exact absurd hb.lt (by omega)
  | succ depth ih =>
    rintro n next str ⟨i, lo, hi, s, hn, hb, hf, hle⟩
    have hlen := hb.le_length
    cases hb with
    | leaf hn' ht =>
      cases hn.symm.trans hn'
      rw [matchnode_single (Or.inl ht)]
      exact matchSingle_matches fun hset => absurd hset (NodeType.not_isSet ht)
    | set hn' ht hleft hj hhi hrise =>
      cases hn.symm.trans hn'
      rw [matchnode_single (Or.inr ht)]
      refine matchSingle_matches fun _ => ?_
      obtain ⟨m, hm, -⟩ := hrise _ hj hhi
      exact ⟨_, m, _, _, hleft, hm, hrise, hj, hhi, by omega⟩
    | group hn' hg hleft hchain =>
      cases hn.symm.trans hn'
      obtain ⟨m, hm⟩ := hchain.head
      have hlt := hchain.lt
      intro σ hs hstr
      rw [matchnode_group hg, nodeAt_eq hleft hm, pure_bind]
      -- the capture is open while the group is matched, and is closed or dropped behind it
      refine (openCapture_finishes hs hg).bind fun capture σ' hcap => .get_bind ?_
      have hloop : Matches nsubexpr text
          (exprLoop nodes (matchnode nodes text budget depth) next budget m str) str :=
        exprLoop_matches ih hchain hm hf.cont (by omega) (by omega)
      refine (hloop σ' hcap.1 hstr).bind ?_
      rintro (_ | cur) σ'' hafter
      · exact dropCapture_finishes hcap.2 hafter.1
      · exact closeCapture_finishes hcap.2 hafter
    | greedy hn' ht hleft hm hlast hitem =>
      cases hn.symm.trans hn'
      have hlt := hitem.lt
      -- the node behind the repeat tells where it may stop
      obtain ⟨g, hg, hcont, hnext⟩ := hf.greedystop
      intro σ hs hstr
      rw [matchnode_greedy ht, hg, pure_bind, nodeAt_eq hleft hm]
      refine greedyLoop_matches (fun s => ?_) ?_ ?_ (by omega) (by omega) (Nat.le_refl _)
        (List.pairwise_singleton _ _) hs hstr
      · exact ih _ g s ⟨_, _, _, _, hm, hitem, Or.inl ⟨hlast, hcont⟩, by omega⟩
      · exact fun s σ hs hs' => lookahead_finishes ih hcont hnext (by omega) hs hs'
      · exact Int.le_of_lt_add_one (Int.emod_lt_of_pos _ (by decide))
    | or hn' ht hleft hright hbl hbr =>
      cases hn.symm.trans hn'
      obtain ⟨l, hl⟩ := hbl.head
      obtain ⟨r, hr⟩ := hbr.head
      have hllt := hbl.lt
      have hrlt := hbr.lt
      intro σ hs hstr
      rw [matchnode_or ht, nodeAt_eq hleft hl, nodeAt_eq hright hr, pure_bind]
      refine (orLoop_matches ih hbl hl (by omega) (by omega) σ hs hstr).bind ?_
      rintro (_ | asd) σ' hafter
      · exact orLoop_matches ih hbr hr (by omega) (by omega) σ' hafter.1 hstr
      · exact .pure hafter

/-! ## Matching and searching -/

variable {e : SQRex}

/-- A bound that is enough for the nodes, for the repetitions of a quantifier and for the text. -/
def Enough (nodes : List SQRexNode) (text : CString) (depth budget : Nat) : Prop :=
  nodes.length ≤ depth ∧ nodes.length + 0x10000 < budget ∧ text.length < budget

/-- The first node of a compiled pattern matches from every place, given enough depth. -/
theorem root_matches (he : e.Compiled) (henough : Enough e.nodes text depth budget) (str : Nat) :
    ∃ n, nodeAt e.nodes 0 = Pure.pure n ∧ n.next = -1 ∧
      Matches e.nsubexpr text (matchnode e.nodes text budget depth n str none) str := by
  obtain ⟨n, hn, hnext⟩ := he.unlinked
  refine ⟨n, nodeAt_eq rfl hn, hnext, ?_⟩
  have hready : Ready e.nsubexpr e.nodes n none e.nodes.length :=
    ⟨0, 0, _, 0, hn, he.built, Or.inl ⟨hnext, .none⟩, Nat.le_refl _⟩
  obtain ⟨hdepth, hbudget, -⟩ := henough
  exact matchnode_matches (by omega) (by omega) depth n none str (hready.mono hdepth)

/-- `sqstd_rex_match` ends. -/
theorem rexMatch_finishes (he : e.Compiled) (henough : Enough e.nodes text depth budget)
    (hs : σ.Sound e.nsubexpr) :
    Finishes (rexMatch e.nodes text depth budget) σ fun _ σ' => σ'.Sound e.nsubexpr := by
  obtain ⟨n, hn, -, hmatch⟩ := root_matches he henough 0
  refine .setSubexp_bind ?_
  rw [hn, pure_bind]
  exact (hmatch { σ with currsubexp := 0 } ⟨hs.length, hs.advances⟩ (Nat.zero_le _)).bind fun _ _ h => .pure h.1

/-- The loop of a search over the nodes ends. -/
theorem searchNodes_finishes (he : e.Compiled) (henough : Enough e.nodes text depth budget)
    (hs : σ.Sound e.nsubexpr) (hstr : str ≤ text.length) :
    Finishes (searchNodes e.nodes text depth budget budget 0 str) σ fun _ σ' =>
      σ'.Sound e.nsubexpr := by
  obtain ⟨n, hn, hnext, hmatch⟩ := root_matches he henough str
  have hbudget : 2 ≤ budget := by
    have := henough.2.1
    omega
  -- the root has no `next`: one node, and the end
  obtain ⟨steps, hsteps⟩ := Nat.exists_eq_add_of_le hbudget
  suffices h : ∀ steps, Finishes (searchNodes e.nodes text depth budget (steps + 1 + 1) 0 str) σ
      fun _ σ' => σ'.Sound e.nsubexpr by
    conv in searchNodes _ _ _ _ budget _ _ => arg 5; rw [hsteps, Nat.add_comm]
    exact h steps
  intro steps
  refine .ite (fun _ => .setSubexp_bind ?_) fun h => absurd (by decide) h
  rw [hn, pure_bind]
  refine (hmatch { σ with currsubexp := 0 } ⟨hs.length, hs.advances⟩ hstr).bind ?_
  rintro (_ | cur) σ' hafter
  · exact .pure hafter.1
  · show Finishes (searchNodes e.nodes text depth budget (steps + 1) n.next cur) σ' _
    rw [hnext]
    exact .pure hafter.1

/-- The loop of a search over the text ends. -/
theorem searchLoop_finishes (he : e.Compiled) (henough : Enough e.nodes text depth budget)
    {steps textBegin : Nat} (hs : σ.Sound e.nsubexpr) (hbegin : textBegin < text.length)
    (hsteps : text.length ≤ textBegin + steps) :
    Finishes (searchLoop e.nodes text depth budget steps textBegin) σ fun _ σ' =>
      σ'.Sound e.nsubexpr := by
  induction steps generalizing textBegin σ with
  | zero => exact absurd hbegin (Nat.not_lt.mpr hsteps)
  | succ steps ih =>
    refine (searchNodes_finishes he henough hs hbegin.le).bind ?_
    rintro (_ | cur) σ' hs'
    · refine .ite (fun hne => ?_) fun _ => .pure hs'
      exact ih hs' (lt_of_le_of_ne hbegin hne) (by omega)
    · exact .pure hs'

/-- `sqstd_rex_searchrange` ends. -/
theorem searchrange_finishes (he : e.Compiled) (henough : Enough e.nodes text depth budget)
    (hs : σ.Sound e.nsubexpr) :
    Finishes (searchrange e.nodes text depth budget) σ fun _ σ' => σ'.Sound e.nsubexpr := by
  have hbudget := henough.2.2
  refine .ite (fun _ => .pure hs) fun hne => ?_
  exact searchLoop_finishes he henough hs (Nat.pos_of_ne_zero hne) (by omega)

/-- Any calls, one after the other. -/
theorem runCalls_finishes (he : e.Compiled) {calls : List Call}
    (henough : ∀ call ∈ calls, Enough e.nodes call.text depth budget) (hs : σ.Sound e.nsubexpr) :
    Finishes (runCalls e.nodes depth budget calls) σ fun _ σ' => σ'.Sound e.nsubexpr := by
  induction calls generalizing σ with
  | nil => exact .pure hs
  | cons call calls ih =>
    obtain ⟨hcall, hcalls⟩ := List.forall_mem_cons.mp henough
    cases call with
    | whole text =>
      refine (rexMatch_finishes he hcall hs).bind fun _ _ hs' => ?_
      exact (ih hcalls hs').bind fun _ _ hs'' => .pure hs''
    | search text =>
      refine (searchrange_finishes he hcall hs).bind fun _ _ hs' => ?_
      exact (ih hcalls hs').bind fun _ _ hs'' => .pure hs''

/-- For a pattern that the compiler accepts every match and every search ends, with no index but one
of the node array followed, and a step of a repetition that does not advance is the last one. -/
theorem matching_terminates {pattern : CString} (h : compile pattern = .ok e) (calls : List Call) :
    ∃ bound, ∀ depth budget, bound ≤ depth → bound ≤ budget →
      ∃ found σ, (runCalls e.nodes depth budget calls).result e.cleared = (.ok found, σ) ∧
        ∀ trail ∈ σ.repetitions, Advances trail := by
  have he : e.Compiled := by
    have hcompiled := compile_compiled pattern
    rw [h] at hcompiled
    exact hcompiled
  refine ⟨e.nodes.length + 0x10000 + 1 + (calls.map fun c => c.text.length).sum, ?_⟩
  intro depth budget hdepth hbudget
  have henough : ∀ call ∈ calls, Enough e.nodes call.text depth budget := by
    intro call hcall
    have hle : call.text.length ≤ (calls.map fun c => c.text.length).sum :=
      List.single_le_sum (fun _ _ => Nat.zero_le _) _ (List.mem_map_of_mem hcall)
    refine ⟨?_, ?_, ?_⟩ <;> omega
  have hcleared : e.cleared.Sound e.nsubexpr := ⟨List.length_replicate, nofun⟩
  obtain ⟨found, σ, hresult, hsound⟩ := (runCalls_finishes he henough hcleared).exists_ok
  exact ⟨found, σ, hresult, hsound.advances⟩

/-- The pattern `(a*)*` -/
def starOfStar : CString := [40, 97, 42, 41, 42]

/-- A repetition of a repetition ends too. -/
theorem starOfStar_terminates : ∃ e, compile starOfStar = .ok e ∧
    ∃ bound, ∀ depth budget, bound ≤ depth → bound ≤ budget →
      ∃ found σ,
        (runCalls e.nodes depth budget [.search [98, 97], .whole [97]]).result e.cleared =
            (.ok found, σ) ∧
          ∀ trail ∈ σ.repetitions, Advances trail := by
  have hok : ∃ e, compile starOfStar = .ok e := ⟨_, rfl⟩
  obtain ⟨e, h⟩ := hok
  exact ⟨e, h, matching_terminates h _⟩

end Quirrel.Regex
