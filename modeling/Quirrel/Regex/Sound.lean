import Quirrel.Regex.Language
import Quirrel.Regex.Terminates

/-!
# The matcher finds only what the pattern means

Whatever the order of the attempts, the captures and the lookahead: a position that `matchnode` returns
ends a stretch that the node describes (`matchnode_sound`). So each match and search of any sequence of
calls on one compiled pattern finds a stretch of its text that the pattern describes
(`found_spans`).
-/

set_option autoImplicit false

namespace Quirrel.Regex

open Quirrel.Lib

/-- From every state, what the computation returns satisfies `Q`, if it returns. -/
def Returns {α : Type} (c : MatchM α) (Q : α → Prop) : Prop :=
  ∀ σ, Fallible.Ensures c σ (fun _ _ => True) fun a _ => Q a

namespace Returns

variable {α β : Type} {Q : α → Prop} {R : β → Prop}

theorem pure {a : α} (h : Q a) : Returns (Pure.pure a) Q := fun _ => Fallible.Ensures.pure h

theorem throw {s : Stop} : Returns (throw s : MatchM α) Q := fun _ => Fallible.Ensures.throw trivial

/-- One computation after the other. -/
theorem bind {c : MatchM α} {k : α → MatchM β} (h : Returns c Q) (hk : ∀ a, Q a → Returns (k a) R) :
    Returns (c >>= k) R := fun σ =>
  Fallible.Ensures.bind ((h σ).mono (fun _ _ h => h) fun a σ' ha => hk a ha σ')

/-- Whatever is returned. -/
theorem any (c : MatchM α) : Returns c fun _ => True := fun σ => by
  unfold Fallible.Ensures
  split <;> trivial

/-- A branch, with what its test says. -/
theorem ite {p : Prop} [Decidable p] {c d : MatchM α} (hc : p → Returns c Q)
    (hd : ¬ p → Returns d Q) : Returns (if p then c else d) Q := by
  split
  · exact hc ‹_›
  · exact hd ‹_›

/-- The rule of consequence. -/
theorem mono {c : MatchM α} {Q' : α → Prop} (h : Returns c Q) (hQ : ∀ a, Q a → Q' a) :
    Returns c Q' := fun σ => (h σ).mono (fun _ _ h => h) fun a _ ha => hQ a ha

end Returns

variable {nodes : List SQRexNode} {text : CString}

/-- A match, if there is one, ends a stretch from `i` on. -/
abbrev Finds (c : MatchM (Option Nat)) (P : Nat → Prop) : Prop :=
  Returns c fun found => ∀ j, found = some j → P j

/-- A match that fails finds nothing. -/
theorem finds_none {P : Nat → Prop} : Finds (pure none) P := .pure nofun

/-- A match that ends at such a place finds one. -/
theorem finds_some {P : Nat → Prop} {j : Nat} (h : P j) : Finds (pure (some j)) P :=
  .pure fun j' hj => by
    cases hj
    exact h

/-! ## Single nodes -/

/-- What is read at an index is the node there. -/
theorem nodeAt_returns (i : Int) : Returns (nodeAt nodes i) (NodeAt nodes i) := by
  refine .ite (fun hi => ?_) fun _ => .throw
  split
  · next n hn => exact .pure ⟨i.toNat, (Int.toNat_of_nonneg hi).symm, hn⟩
  · exact .throw

/-- What is read in the text is a character of it. -/
theorem charAt_returns (str : Nat) :
    Returns (charAt text str) fun c => ∃ d, text[str]? = some d ∧ c = d.toInt := by
  unfold charAt
  split
  · next c hc => exact .pure ⟨c, hc, rfl⟩
  · exact .throw

/-- The walk over the list of a set decides membership. -/
theorem matchclass_returns (c : Int) (budget : Nat) (n : SQRexNode) :
    Returns (matchclass nodes budget n c) fun b => b = true ↔ InClass nodes n c := by
  induction budget generalizing n with
  | zero => exact .throw
  | succ budget ih =>
    refine .ite (fun hhere => .pure (iff_of_true rfl (.here hhere))) fun hhere => ?_
    refine .ite (fun hnext => ?_) fun hlast => .pure (iff_of_false nofun ?_)
    · refine (nodeAt_returns n.next).bind fun m hm => (ih m).mono fun b hb => hb.trans ?_
      constructor
      · exact fun hin => .there hnext hm hin
      · rintro (hhere' | ⟨-, hm', hin⟩)
        · exact absurd hhere' hhere
        · exact hm.unique hm' ▸ hin
    · rintro (hhere' | ⟨hnext, -, -⟩)
      · exact hhere hhere'
      · exact hlast hnext

/-- A test of one character finds the place behind it. -/
theorem single_finds {str : Nat} {test : Int → MatchM Bool} {P : Int → Prop}
    (htest : ∀ c, Returns (test c) fun b => b = true → P c) :
    Finds (single text str test) (CharFrom text P str) := by
  refine .ite (fun _ => finds_none) fun _ => ?_
  refine (charAt_returns str).bind fun c hc => (htest c).bind fun b hb => ?_
  obtain ⟨d, hd, rfl⟩ := hc
  refine .ite (fun htrue => finds_some ⟨d, hd, hb htrue, rfl⟩) fun _ => finds_none

/-- A space before a place in the text. -/
theorem blankBefore_iff {str : Nat} {c : Int8} (h : text[str - 1]? = some c) (hstr : str ≠ 0) :
    BlankBefore text str ↔ isspace c.toInt = true := by
  constructor
  · rintro (h0 | ⟨d, hd, hblank⟩)
    · exact absurd h0 hstr
    · cases h.symm.trans hd
      exact hblank
  · exact fun hblank => .inr ⟨c, h, hblank⟩

/-- A space behind a place in the text. -/
theorem blankAfter_iff {str : Nat} {c : Int8} (h : text[str]? = some c) :
    BlankAfter text str ↔ isspace c.toInt = true := by
  constructor
  · rintro (hend | ⟨d, hd, hblank⟩)
    · rw [hend, List.getElem?_eq_none (Nat.le_refl _)] at h
      cases h
    · cases h.symm.trans hd
      exact hblank
  · exact fun hblank => .inr ⟨c, h, hblank⟩

/-- The test decides whether there is a word boundary. -/
theorem wordBoundary_returns (str : Nat) :
    Returns (wordBoundary text str) fun b => b = true ↔ WordBoundary text str := by
  have hstart : BlankBefore text 0 := .inl rfl
  have hend : BlankAfter text text.length := .inl rfl
  refine .ite (fun h0 => ?_) fun h0 => ?_
  · subst h0
    refine .ite (fun _ => ?_) fun hnone => ?_
    · refine (charAt_returns 0).bind fun c hc => .pure ?_
      obtain ⟨d, hd, rfl⟩ := hc
      rw [WordBoundary, iff_true_left hstart, blankAfter_iff hd, Bool.not_eq_true',
        Bool.not_eq_true]
    · have hempty : 0 = text.length := (Nat.eq_zero_of_not_pos hnone).symm
      refine .pure (iff_of_false nofun fun h => h (iff_of_true hstart ?_))
      exact .inl hempty
  · refine .ite (fun hlen => ?_) fun _ => ?_
    · refine (charAt_returns (str - 1)).bind fun c hc => .pure ?_
      obtain ⟨d, hd, rfl⟩ := hc
      have hafter : BlankAfter text str := .inl hlen
      rw [WordBoundary, iff_true_right hafter, blankBefore_iff hd h0, Bool.not_eq_true',
        Bool.not_eq_true]
    · refine (charAt_returns str).bind fun c hc => (charAt_returns (str - 1)).bind fun c' hc' =>
        .pure ?_
      obtain ⟨d, hd, rfl⟩ := hc
      obtain ⟨d', hd', rfl⟩ := hc'
      rw [WordBoundary, blankBefore_iff hd' h0, blankAfter_iff hd, bne_iff_ne, ne_eq,
        Bool.eq_iff_iff]
      exact not_congr iff_comm

/-- With `cont` characters open, the text is `cont` balanced parts, each with its closing one. -/
def Closes (cb ce : Int) : Nat → CString → Nat → Prop
  | 0, _, n => n = 0
  | cont + 1, cs, n => ∃ body c rest, cs = body ++ c :: rest ∧ Balanced cb ce body ∧ c.toInt = ce ∧
      ∃ m, Closes cb ce cont rest m ∧ n = body.length + 1 + m

theorem Closes.other {cb ce : Int} {cont n : Nat} {c : Int8} {cs : CString}
    (hce : c.toInt ≠ ce) (hcb : c.toInt ≠ cb) (h : Closes cb ce (cont + 1) cs n) :
    Closes cb ce (cont + 1) (c :: cs) (n + 1) := by
  obtain ⟨body, d, rest, rfl, hbody, hd, m, hm, rfl⟩ := h
  refine ⟨c :: body, d, rest, rfl, .other hce hcb hbody, hd, m, hm, ?_⟩
  rw [List.length_cons]
  omega

theorem Closes.nest {cb ce : Int} {cont n : Nat} {c : Int8} {cs : CString}
    (hce : c.toInt ≠ ce) (hcb : c.toInt = cb) (h : Closes cb ce (cont + 1 + 1) cs n) :
    Closes cb ce (cont + 1) (c :: cs) (n + 1) := by
  obtain ⟨inner, d, rest, rfl, hinner, hd, m, ⟨body, d', rest', rfl, hbody, hd', m', hm', rfl⟩, rfl⟩
    := h
  refine ⟨c :: (inner ++ d :: body), d', rest', by simp, .nest hce hcb hinner hd hbody, hd', m', hm',
    ?_⟩
  simp only [List.length_cons, List.length_append]
  omega

/-- The scan of a balanced match ends where the brackets close. -/
theorem scanBalanced_closes {cb ce : Int} {cs : CString} {cont str j : Nat} (hcont : cont ≠ 0)
    (h : scanBalanced cb ce cs cont str = some j) : ∃ n, Closes cb ce cont cs n ∧ j = str + n := by
  induction cs generalizing cont str with
  | nil => cases h
  | cons c cs ih =>
    obtain ⟨k, rfl⟩ := Nat.exists_eq_succ_of_ne_zero hcont
    rw [scanBalanced] at h
    split at h
    · next hce =>
      split at h
      · next hk =>
        cases h
        have hk0 : k = 0 := hk
        subst hk0
        exact ⟨1, ⟨[], c, cs, rfl, .nil, hce, 0, rfl, rfl⟩, rfl⟩
      · next hk =>
        obtain ⟨n, hn, rfl⟩ := ih hk h
        exact ⟨n + 1, ⟨[], c, cs, rfl, .nil, hce, n, hn, by rw [List.length_nil]; omega⟩, by omega⟩
    · next hce =>
      split at h
      · next hcb =>
        obtain ⟨n, hn, rfl⟩ := ih (Nat.succ_ne_zero _) h
        exact ⟨n + 1, hn.nest hce hcb, by omega⟩
      · next hcb =>
        obtain ⟨n, hn, rfl⟩ := ih hcont h
        exact ⟨n + 1, hn.other hce hcb, by omega⟩

/-- A balanced match is accepted. -/
theorem balanced_finds (n : SQRexNode) (str : Nat) (ht : n.type = .opMb) (budget : Nat) :
    Finds (matchSingle nodes text budget n str) fun j => n.Accepts nodes text str j := by
  simp only [matchSingle, ht, SQRexNode.Accepts]
  refine .ite (fun _ => finds_none) fun _ => ?_
  refine (charAt_returns str).bind fun c hc => .ite (fun _ => finds_none) fun hopen => ?_
  obtain ⟨d, hd, rfl⟩ := hc
  refine .pure fun j hj => ?_
  obtain ⟨m, ⟨body, e, rest, hdrop, hbody, he, m', hm', hm⟩, rfl⟩ :=
    scanBalanced_closes Nat.one_ne_zero hj
  have hm0 : m' = 0 := hm'
  subst hm0
  obtain ⟨hlt, hget⟩ := List.getElem?_eq_some_iff.mp hd
  refine ⟨d, body, e, rest, ?_, not_not.mp hopen, hbody, he, by omega⟩
  rw [← hdrop, ← hget]
  exact List.drop_eq_getElem_cons hlt

/-- The nodes that do not call the matcher. -/
theorem matchSingle_finds (n : SQRexNode) (str budget : Nat)
    (ht : n.type.isLeaf = true ∨ n.type.isSet = true) (hg : n.type ≠ .opGreedy) :
    Finds (matchSingle nodes text budget n str) fun j => n.Accepts nodes text str j := by
  have hpure : ∀ {p : Int → Bool} {P : Int → Prop}, (∀ c, p c = true → P c) →
      ∀ c, Returns (pure (p c) : MatchM Bool) fun b => b = true → P c :=
    fun hp c => .pure (hp c)
  -- one case for each leaf and each set; groups, alternatives and repeats are not among them
  match hn : n.type with
  | .opMb => exact balanced_finds n str hn budget
  | .opWb =>
    simp only [matchSingle, hn, SQRexNode.Accepts]
    refine (wordBoundary_returns str).bind fun b hb => .pure fun j hj => ?_
    split at hj
    · next hleft =>
      cases hj
      exact ⟨hb.symm.trans (iff_of_eq hleft), rfl⟩
    · cases hj
  | .opBol =>
    simp only [matchSingle, hn, SQRexNode.Accepts]
    refine .pure fun j hj => ?_
    split at hj
    · cases hj
      exact ⟨‹_›, rfl⟩
    · cases hj
  | .opEol =>
    simp only [matchSingle, hn, SQRexNode.Accepts]
    refine .pure fun j hj => ?_
    split at hj
    · cases hj
      exact ⟨‹_›, rfl⟩
    · cases hj
  | .opDot =>
    simp only [matchSingle, hn, SQRexNode.Accepts]
    exact single_finds fun _ => .pure fun _ => trivial
  | .opClass =>
    simp only [matchSingle, hn, SQRexNode.Accepts]
    refine single_finds fun c => ?_
    refine (nodeAt_returns n.left).bind fun m hm => (matchclass_returns c budget m).mono ?_
    exact fun b hb htrue => ⟨m, hm, hb.mp htrue⟩
  | .opNclass =>
    simp only [matchSingle, hn, SQRexNode.Accepts]
    refine single_finds fun c => ?_
    refine (nodeAt_returns n.left).bind fun m hm => (matchclass_returns c budget m).bind ?_
    intro b hb
    -- a negated class accepts the characters that the class does not
    refine .pure fun hnot => ⟨m, hm, fun hin => ?_⟩
    rw [hb.mpr hin] at hnot
    cases hnot
  | .opCclass =>
    simp only [matchSingle, hn, SQRexNode.Accepts]
    exact single_finds (hpure fun _ h => h)
  | .opRange =>
    simp only [matchSingle, hn, SQRexNode.Accepts]
    exact single_finds (hpure fun _ h => of_decide_eq_true h)
  | .char d =>
    simp only [matchSingle, hn, SQRexNode.Accepts]
    exact single_finds (hpure fun _ h => of_decide_eq_true h)
  | .opGreedy => exact absurd hn hg
  | .opOr => simp [hn, NodeType.isLeaf, NodeType.isSet] at ht
  | .opExpr => simp [hn, NodeType.isLeaf, NodeType.isSet] at ht
  | .opNocapexpr => simp [hn, NodeType.isLeaf, NodeType.isSet] at ht

/-! ## Groups, alternatives and repetitions -/

/-- What the matcher returns for a node. -/
abbrev NodeSound (nodes : List SQRexNode) (text : CString)
    (matcher : SQRexNode → Nat → Option SQRexNode → MatchM (Option Nat)) : Prop :=
  ∀ n str next, Finds (matcher n str next) fun j => Spans nodes text (.node n) str j

section Loops

variable {matcher : SQRexNode → Nat → Option SQRexNode → MatchM (Option Nat)}

/-- The loop over a branch of `|` finds what the chain spans. -/
theorem orLoop_finds (hmatcher : NodeSound nodes text matcher) (budget : Nat) (temp : SQRexNode)
    (str : Nat) :
    Finds (orLoop nodes matcher budget temp str) fun j => Spans nodes text (.chain temp) str j := by
  induction budget generalizing temp str with
  | zero => exact .throw
  | succ budget ih =>
    refine (hmatcher temp str none).bind fun found hfound => ?_
    match found, hfound with
    | none, _ => exact finds_none
    | some k, hk =>
      have hfirst := hk k rfl
      refine .ite (fun hnext => ?_) fun hlast => finds_some (.last (not_not.mp hlast) hfirst)
      refine (nodeAt_returns temp.next).bind fun m hm => (ih m k).mono ?_
      exact fun found hrest j hj => .next hnext hm hfirst (hrest j hj)

/-- The loop over a group finds what the chain spans. -/
theorem exprLoop_finds (hmatcher : NodeSound nodes text matcher) (next : Option SQRexNode)
    (budget : Nat) (n : SQRexNode) (str : Nat) :
    Finds (exprLoop nodes matcher next budget n str) fun j => Spans nodes text (.chain n) str j := by
  induction budget generalizing n str with
  | zero => exact .throw
  | succ budget ih =>
    refine (Returns.any (nodeOr nodes n.next next)).bind fun follow _ => ?_
    refine (hmatcher n str follow).bind fun found hfound => ?_
    match found, hfound with
    | none, _ => exact finds_none
    | some k, hk =>
      have hfirst := hk k rfl
      refine .ite (fun hnext => ?_) fun hlast => finds_some (.last (not_not.mp hlast) hfirst)
      refine (nodeAt_returns n.next).bind fun m hm => (ih m k).mono ?_
      exact fun found hrest j hj => .next hnext hm hfirst (hrest j hj)

/-- The number of repetitions is between the bounds. -/
theorem satisfied_bounds {p0 p1 k : Int} (h : satisfied p0 p1 k = true) :
    p0 ≤ k ∧ (p1 = 0xFFFF ∨ k ≤ p1) := by
  simp only [satisfied, Bool.or_eq_true, Bool.and_eq_true, decide_eq_true_eq, ge_iff_le] at h
  omega

/-- The loop of a repetition ends where the number is right. -/
theorem leaveLoop_finds {p0 p1 nmaches : Int} {s : Nat} {trail : List Nat} {P : Nat → Prop}
    (h : satisfied p0 p1 nmaches = true → P s) : Finds (leaveLoop p0 p1 nmaches s trail) P := by
  refine (Returns.any _).bind fun _ _ => .pure fun j hj => ?_
  split at hj
  · cases hj
    exact h ‹_›
  · cases hj

/-- The loop of a quantifier, when `k` elements were found from `start` to `s`. -/
theorem greedyLoop_finds {body : Nat → MatchM (Option Nat)} {stop : Nat → MatchM Bool} {p0 p1 : Int}
    {index : Int} {start : Nat}
    (hbody : ∀ s, Finds (body s) fun j => ∃ m, NodeAt nodes index m ∧ Spans nodes text (.node m) s j)
    (budget : Nat) {k s : Nat} {trail : List Nat}
    (hk : Spans nodes text (.times k index) start s) :
    Finds (greedyLoop text body stop p0 p1 budget k s trail) fun j =>
      ∃ k : Nat, p0 ≤ k ∧ (p1 = 0xFFFF ∨ (k : Int) ≤ p1) ∧
        Spans nodes text (.times k index) start j := by
  have hleave : ∀ {k s : Nat} {trail : List Nat}, Spans nodes text (.times k index) start s →
      Finds (leaveLoop p0 p1 k s trail) fun j => ∃ k : Nat, p0 ≤ k ∧ (p1 = 0xFFFF ∨ (k : Int) ≤ p1) ∧
        Spans nodes text (.times k index) start j := fun hk =>
    leaveLoop_finds fun hsat => ⟨_, (satisfied_bounds hsat).1, (satisfied_bounds hsat).2, hk⟩
  induction budget generalizing k s trail with
  | zero => exact .throw
  | succ budget ih =>
    refine .ite (fun _ => ?_) fun _ => hleave hk
    refine (hbody s).bind fun found hfound => ?_
    match found, hfound with
    | none, _ => exact hleave hk
    | some s', hs' =>
      obtain ⟨m, hm, hspan⟩ := hs' s' rfl
      have hk' : Spans nodes text (.times (k + 1) index) start s' := .succ hk hm hspan
      refine .ite (fun _ => hleave hk') fun _ => ?_
      refine (Returns.any (stop s')).bind fun _ _ => ?_
      refine .ite (fun _ => hleave hk') fun _ => ?_
      exact .ite (fun _ => hleave hk') fun _ => ih hk'

end Loops

/-! ## The matcher -/

/-- Closing a capture ends where the group did. -/
theorem closeCapture_finds (tempcap : Int) (capture : Option Int) (cur : Nat) :
    Finds (closeCapture tempcap capture cur) fun j => j = cur := by
  refine (Returns.any _).bind fun _ _ => ?_
  cases capture with
  | none => exact finds_some rfl
  | some i => exact (Returns.any _).bind fun _ _ => finds_some rfl

theorem dropCapture_finds (capture : Option Int) (P : Nat → Prop) :
    Finds (dropCapture capture) P := by
  cases capture with
  | none => exact finds_none
  | some i => exact (Returns.any _).bind fun _ _ => finds_none

/-- A group, captured or not. -/
theorem group_finds {n : SQRexNode} {budget depth str : Nat} {next : Option SQRexNode}
    (ih : NodeSound nodes text (matchnode nodes text budget depth))
    (ht : n.type = .opExpr ∨ n.type = .opNocapexpr) :
    Finds (matchnode nodes text budget (depth + 1) n str next) fun j =>
      Spans nodes text (.node n) str j := by
  have hgroup : matchnode nodes text budget (depth + 1) n str next = (do
      let m ← nodeAt nodes n.left
      let capture ← openCapture n str
      let tempcap := (← get).currsubexp
      let found ← exprLoop nodes (matchnode nodes text budget depth) next budget m str
      found.elim (dropCapture capture) (closeCapture tempcap capture)) := by
    cases n
    rcases ht with ht | ht
    all_goals
      cases ht
      refine bind_congr fun m => bind_congr fun capture => bind_congr fun σ => bind_congr fun found => ?_
      cases found <;> rfl
  rw [hgroup]
  refine (nodeAt_returns n.left).bind fun m hm => (Returns.any _).bind fun capture _ => ?_
  refine (Returns.any _).bind fun σ _ => ?_
  refine (exprLoop_finds ih next budget m str).bind fun found hfound => ?_
  cases found with
  | none => exact dropCapture_finds capture _
  | some cur =>
    refine (closeCapture_finds σ.currsubexp capture cur).mono fun found h j hj => ?_
    cases h j hj
    exact .group ht hm (hfound _ rfl)

/-- A quantifier. -/
theorem greedy_finds {n : SQRexNode} {budget depth str : Nat} {next : Option SQRexNode}
    (ih : NodeSound nodes text (matchnode nodes text budget depth)) (ht : n.type = .opGreedy) :
    Finds (matchnode nodes text budget (depth + 1) n str next) fun j =>
      Spans nodes text (.node n) str j := by
  rw [matchnode_greedy ht]
  refine (Returns.any _).bind fun greedystop _ => ?_
  have hbody : ∀ s, Finds (do matchnode nodes text budget depth (← nodeAt nodes n.left) s greedystop)
      fun j => ∃ m, NodeAt nodes n.left m ∧ Spans nodes text (.node m) s j := fun s =>
    (nodeAt_returns n.left).bind fun m hm => (ih m s greedystop).mono fun found h j hj =>
      ⟨m, hm, h j hj⟩
  have hstart : Spans nodes text (.times 0 n.left) str str := .zero
  refine (greedyLoop_finds hbody budget hstart).mono fun found h j hj => ?_
  obtain ⟨k, hlo, hhi, hspan⟩ := h j hj
  exact .greedy ht hlo hhi hspan

/-- The matcher finds only what the pattern spans, by induction on the depth. -/
theorem matchnode_sound (nodes : List SQRexNode) (text : CString) (budget depth : Nat) :
    NodeSound nodes text (matchnode nodes text budget depth) := by
  induction depth with
  | zero => exact fun _ _ _ => .throw
  | succ depth ih =>
    intro n str next
    have hleaf : n.type.isLeaf = true ∨ n.type.isSet = true → n.type ≠ .opGreedy →
        Finds (matchnode nodes text budget (depth + 1) n str next) fun j =>
          Spans nodes text (.node n) str j := by
      intro hsingle hg
      rw [matchnode_single hsingle]
      exact (matchSingle_finds n str budget hsingle hg).mono fun found h j hj => .single (h j hj)
    match hn : n.type with
    | .opGreedy => exact greedy_finds ih hn
    | .opOr =>
      rw [matchnode_or hn]
      refine (nodeAt_returns n.left).bind fun l hl => ?_
      refine (orLoop_finds ih budget l str).bind fun found hfound => ?_
      match found, hfound with
      | some j, hj => exact finds_some (.left hn hl (hj j rfl))
      | none, _ =>
        refine (nodeAt_returns n.right).bind fun r hr => (orLoop_finds ih budget r str).mono ?_
        exact fun found h j hj => .right hn hr (h j hj)
    | .opExpr => exact group_finds ih (.inl hn)
    | .opNocapexpr => exact group_finds ih (.inr hn)
    | .opClass => exact hleaf (.inr (by rw [hn]; rfl)) (by rw [hn]; exact nofun)
    | .opNclass => exact hleaf (.inr (by rw [hn]; rfl)) (by rw [hn]; exact nofun)
    | .opDot => exact hleaf (.inl (by rw [hn]; rfl)) (by rw [hn]; exact nofun)
    | .opCclass => exact hleaf (.inl (by rw [hn]; rfl)) (by rw [hn]; exact nofun)
    | .opRange => exact hleaf (.inl (by rw [hn]; rfl)) (by rw [hn]; exact nofun)
    | .opEol => exact hleaf (.inl (by rw [hn]; rfl)) (by rw [hn]; exact nofun)
    | .opBol => exact hleaf (.inl (by rw [hn]; rfl)) (by rw [hn]; exact nofun)
    | .opWb => exact hleaf (.inl (by rw [hn]; rfl)) (by rw [hn]; exact nofun)
    | .opMb => exact hleaf (.inl (by rw [hn]; rfl)) (by rw [hn]; exact nofun)
    | .char c => exact hleaf (.inl (by rw [hn]; rfl)) (by rw [hn]; exact nofun)

/-! ## Matches and searches -/

/-- The stretches of the text that the pattern describes. The root is a node of its own. -/
def Described (nodes : List SQRexNode) (text : CString) (i j : Nat) : Prop :=
  ∃ root, nodes[0]? = some root ∧ Spans nodes text (.node root) i j

/-- A whole match is described by the pattern. -/
theorem rexMatch_sound (text : CString) (depth budget : Nat) :
    Returns (rexMatch nodes text depth budget) fun found =>
      found = true → Described nodes text 0 text.length := by
  refine (Returns.any _).bind fun _ _ => (nodeAt_returns 0).bind fun root hroot => ?_
  refine (matchnode_sound nodes text budget depth root 0 none).bind fun res hres => .pure ?_
  intro hfound
  obtain ⟨k, hk, hget⟩ := hroot
  cases Int.ofNat_eq_zero.mp hk.symm
  exact ⟨root, hget, hres _ (of_decide_eq_true hfound)⟩

/-- Of the first node alone the search takes what comes before, as it has no `next`. -/
theorem searchNodes_sound (text : CString) (depth budget steps str : Nat)
    (hroot : ∃ root, nodes[0]? = some root ∧ root.next = -1) :
    Finds (searchNodes nodes text depth budget steps 0 str) fun j => Described nodes text str j := by
  obtain ⟨root, hget, hnext⟩ := hroot
  cases steps with
  | zero => exact .throw
  | succ steps =>
    refine .ite (fun _ => (Returns.any _).bind fun _ _ => ?_) fun h => absurd (by decide) h
    refine (nodeAt_returns 0).bind fun n hn => ?_
    obtain ⟨k, hk, hget'⟩ := hn
    cases Int.ofNat_eq_zero.mp hk.symm
    cases hget.symm.trans hget'
    refine (matchnode_sound nodes text budget depth root str none).bind fun found hfound => ?_
    match found, hfound with
    | none, _ => exact finds_none
    | some cur, hcur =>
      have hdescribed : Described nodes text str cur := ⟨root, hget, hcur cur rfl⟩
      cases steps with
      | zero => exact .throw
      | succ steps =>
        refine .ite (fun h => absurd hnext h) fun _ => finds_some hdescribed

/-- A place that a search finds is described by the pattern. -/
theorem searchLoop_sound (text : CString) (depth budget steps str : Nat)
    (hroot : ∃ root, nodes[0]? = some root ∧ root.next = -1) (hstr : str < text.length) :
    Returns (searchLoop nodes text depth budget steps str) fun found =>
      ∀ i j, found = some (i, j) → i ≤ text.length ∧ Described nodes text i j := by
  induction steps generalizing str with
  | zero => exact .throw
  | succ steps ih =>
    refine (searchNodes_sound text depth budget budget str hroot).bind fun found hfound => ?_
    match found, hfound with
    | some cur, hcur =>
      refine .pure fun i j hij => ?_
      cases hij
      exact ⟨hstr.le, hcur cur rfl⟩
    | none, _ =>
      refine .ite (fun hne => ih (str + 1) ?_) fun _ => .pure nofun
      exact lt_of_le_of_ne hstr hne

/-- What a call found is a stretch of its text that the pattern describes, for a match the whole of
it. -/
def Call.Finds (nodes : List SQRexNode) (call : Call) (found : Option (Nat × Nat)) : Prop :=
  ∀ i j, found = some (i, j) → Described nodes call.text i j ∧ i ≤ j ∧ j ≤ call.text.length ∧
    ∀ text, call = .whole text → i = 0 ∧ j = text.length

/-- So it is for the range that is returned. -/
theorem searchrange_sound (text : CString) (depth budget : Nat)
    (hroot : ∃ root, nodes[0]? = some root ∧ root.next = -1) :
    Returns (searchrange nodes text depth budget) (Call.Finds nodes (.search text)) := by
  refine .ite (fun _ => .pure nofun) fun hne => ?_
  refine (searchLoop_sound text depth budget budget 0 hroot (Nat.pos_of_ne_zero hne)).mono ?_
  intro found h i j hij
  obtain ⟨hi, root, hget, hspan⟩ := h i j hij
  exact ⟨⟨root, hget, hspan⟩, (hspan.within hi).1, (hspan.within hi).2, nofun⟩

/-- So it is for every call of a sequence. -/
theorem runCalls_sound (depth budget : Nat) (hroot : ∃ root, nodes[0]? = some root ∧ root.next = -1)
    (calls : List Call) :
    Returns (runCalls nodes depth budget calls) (List.Forall₂ (Call.Finds nodes) calls) := by
  induction calls with
  | nil => exact .pure .nil
  | cons call calls ih =>
    cases call with
    | whole text =>
      refine (rexMatch_sound text depth budget).bind fun found hfound => ?_
      refine ih.bind fun rest hrest => .pure (.cons (fun i j hij => ?_) hrest)
      split at hij
      · next htrue =>
        cases hij
        refine ⟨hfound htrue, Nat.zero_le _, Nat.le_refl _, fun text' h => ?_⟩
        cases h
        exact ⟨rfl, rfl⟩
      · cases hij
    | search text =>
      refine (searchrange_sound text depth budget hroot).bind fun found hfound => ?_
      exact ih.bind fun rest hrest => .pure (.cons hfound hrest)

/-- On a pattern that the compiler accepts, any calls one after the other end, and what each one finds
is a stretch of its own text that the pattern describes. -/
theorem found_described {e : SQRex} {pattern : CString} (h : compile pattern = .ok e)
    (calls : List Call) :
    ∃ bound, ∀ depth budget, bound ≤ depth → bound ≤ budget →
      ∃ found σ, (runCalls e.nodes depth budget calls).result e.cleared = (.ok found, σ) ∧
        List.Forall₂ (Call.Finds e.nodes) calls found := by
  have he : e.Compiled := by
    have hcompiled := compile_compiled pattern
    rw [h] at hcompiled
    exact hcompiled
  refine ⟨e.nodes.length + 0x10000 + 1 + (calls.map fun c => c.text.length).sum, ?_⟩
  intro depth budget hdepth hbudget
  have henough : ∀ call ∈ calls, Enough e.nodes call.text depth budget := by
    intro call hcall
    have hle : call.text.length ≤ (calls.map fun c => c.text.length).sum :=
      List.single_le_sum (fun _ _ => Nat.zero_le _) _ (List.mem_map_of_mem hcall)
    refine ⟨?_, ?_, ?_⟩ <;> omega
  have hcleared : e.cleared.Sound e.nsubexpr := ⟨List.length_replicate, nofun⟩
  obtain ⟨found, σ, hresult, -⟩ := (runCalls_finishes he henough hcleared).exists_ok
  have hsound := runCalls_sound depth budget he.unlinked calls e.cleared
  unfold Fallible.Ensures at hsound
  rw [hresult] at hsound
  exact ⟨found, σ, hresult, hsound⟩

/-- The pattern `a|b+` -/
def letters : CString := [97, 124, 98, 43]

/-- A pattern of letters and a search for it. -/
theorem letters_described : ∃ e, compile letters = .ok e ∧
    ∃ bound, ∀ depth budget, bound ≤ depth → bound ≤ budget →
      ∃ found σ,
        (runCalls e.nodes depth budget [.search [120, 97, 98], .whole [98, 98]]).result e.cleared =
            (.ok found, σ) ∧
          List.Forall₂ (Call.Finds e.nodes) [.search [120, 97, 98], .whole [98, 98]] found := by
  have hok : ∃ e, compile letters = .ok e := ⟨_, rfl⟩
  obtain ⟨e, h⟩ := hok
  exact ⟨e, h, found_described h _⟩

end Quirrel.Regex
