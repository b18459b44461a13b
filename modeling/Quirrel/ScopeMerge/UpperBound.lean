import Quirrel.NodeEqualChecker.Exact
import Quirrel.ScopeMerge.Run

/-!
# When the join of two branches is an upper bound

`ValueRef::merge` keeps the flags of one branch when both branches have the same value, and the state
and the value of one branch for every variable that is not declared with `local`, parameters
included; a copy forgets that a variable was assigned. `upperBound_iff` says exactly when none of
this matters. The control example is `parameter_not_upperBound`.
-/

set_option autoImplicit false

namespace Quirrel.ScopeMerge

open NodeEqualChecker (Node CString erase check check_refl check_symm)

/-! ## What a join should be -/

/-- The positive flags of a variable that may be unknown. -/
def positive (v : Option ValueRef) : BitVec 32 := (v.map (·.flagsPositive)).getD 0

/-- The negative flags of a variable that may be unknown. -/
def negative (v : Option ValueRef) : BitVec 32 := (v.map (·.flagsNegative)).getD 0

/-- `r` says no more of a variable than each of `a` and `b`: its value is the value that both have,
and its flags are flags of both. -/
structure Bounds (a b r : Option ValueRef) : Prop where
  value : ∀ v, r = some v → v.hasValue = true → ∃ x y, a = some x ∧ b = some y ∧
    x.hasValue = true ∧ y.hasValue = true ∧ erase x.expression = erase v.expression ∧
    erase y.expression = erase v.expression
  positive : positive r &&& positive a = positive r ∧ positive r &&& positive b = positive r
  negative : negative r &&& negative a = negative r ∧ negative r &&& negative b = negative r

/-- The same up to `evalIndex` and to positions in the syntax tree. -/
structure ValueRef.Alike (v w : ValueRef) : Prop where
  info : v.info = w.info
  state : v.state = w.state
  expression : erase v.expression = erase w.expression
  origin : v.origin = w.origin
  originEvalIndex : v.originEvalIndex = w.originEvalIndex
  assigned : v.assigned = w.assigned
  lastAssigneeScope : v.lastAssigneeScope = w.lastAssigneeScope
  flagsPositive : v.flagsPositive = w.flagsPositive
  flagsNegative : v.flagsNegative = w.flagsNegative

/-- Two scopes have the same variables up to `evalIndex`. -/
def SameVariables (c c' : Chain) : Prop :=
  ∀ i n, Option.Rel ValueRef.Alike (entry c i n) (entry c' i n)

/-- The join of two branches of the trunk is an upper bound, does not depend on their order, and joins
the trunk with its own copy to the trunk; and no flag is both positive and negative. -/
structure UpperBound (t : Trunk) (ops ops' : List BranchOp) : Prop where
  bounds : ∀ i n, Bounds (entry (t.branch ops).chain i n) (entry (t.secondBranch ops ops').chain i n)
    (entry (merge (t.branch ops).chain (t.secondBranch ops ops').chain) i n)
  comm : SameVariables (merge (t.branch ops).chain (t.secondBranch ops ops').chain)
    (merge (t.secondBranch ops ops').chain (t.branch ops).chain)
  idem : SameVariables (merge t.chain (copy false t.chain)) t.chain
  disjoint : ∀ i n v,
    entry (merge (t.branch ops).chain (t.secondBranch ops ops').chain) i n = some v →
    v.flagsPositive &&& v.flagsNegative = 0

/-! ## When it is one -/

/-- Two values with the same flags. -/
def SameFlags (a b : ValueRef) : Prop :=
  a.flagsPositive = b.flagsPositive ∧ a.flagsNegative = b.flagsNegative

/-- The variables that two branches have under one name: the same variable; if it is a constant, with
the same state, value and flags; else with the same flags and the same value whenever the states are
the same and `check` takes the values for equal. -/
def Mergeable : Option ValueRef → Option ValueRef → Prop
  | none, none => True
  | none, some _ => False
  | some _, none => False
  | some a, some b => a.info = b.info ∧
    (a.isConstant = true → a.state = b.state ∧ erase a.expression = erase b.expression ∧
      SameFlags a b) ∧
    (a.isConstant = false → a.state = b.state → check a.expression b.expression = true →
      erase a.expression = erase b.expression ∧ SameFlags a b)

/-! ## One variable -/

namespace ValueRef

variable (v w : ValueRef)

theorem mergeAssignee_comm (d d' : Option Nat) : mergeAssignee d d' = mergeAssignee d' d := by
  cases d with
  | none => cases d' <;> rfl
  | some d =>
    cases d' with
    | none => rfl
    | some d' =>
      simp only [mergeAssignee]
      split
      · rename_i hlt
        rw [if_neg (by omega)]
      · split
        · rfl
        · congr 1
          omega

theorem mergeMatrix_comm (k k' : ValueRefState) : mergeMatrix k k' = mergeMatrix k' k := by
  cases k <;> cases k' <;> rfl

/-- States that differ join to a state without a value. -/
theorem mergeMatrix_of_ne {k k' : ValueRefState} (h : k ≠ k') :
    mergeMatrix k k' = .multiple ∨ mergeMatrix k k' = .unknown := by
  cases k <;> cases k' <;> first | exact absurd rfl h | exact Or.inl rfl | exact Or.inr rfl

/-- What `merge` never changes, and the marks. -/
theorem merge_marks : (v.merge w).info = v.info ∧ (v.merge w).origin = v.origin ∧
    (v.merge w).originEvalIndex = v.originEvalIndex ∧
    (v.merge w).assigned = (v.assigned && w.assigned) ∧
    (v.merge w).lastAssigneeScope = mergeAssignee v.lastAssigneeScope w.lastAssigneeScope := by
  have hkill : ∀ (u : ValueRef) (k : ValueRefState), (u.kill k).info = u.info ∧
      (u.kill k).origin = u.origin ∧ (u.kill k).originEvalIndex = u.originEvalIndex ∧
      (u.kill k).assigned = u.assigned ∧ (u.kill k).lastAssigneeScope = u.lastAssigneeScope := by
    intro u k
    rw [kill]
    split <;> exact ⟨rfl, rfl, rfl, rfl, rfl⟩
  simp only [merge]
  split
  · exact hkill _ _
  · split
    · exact ⟨rfl, rfl, rfl, rfl, rfl⟩
    · split
      · exact hkill _ _
      · exact ⟨rfl, rfl, rfl, rfl, rfl⟩

/-- The variable has the state `k`, the value `e` and no flags. -/
def Killed (r : ValueRef) (k : ValueRefState) (e : Option Node) : Prop :=
  r.state = k ∧ r.expression = e ∧ r.flagsPositive = 0 ∧ r.flagsNegative = 0

/-- States that differ. -/
theorem merge_of_state_ne (h : v.state ≠ w.state) :
    (v.isConstant = true → (v.merge w).Killed v.state v.expression) ∧
      (v.isConstant = false → (v.merge w).Killed (mergeMatrix w.state v.state) none) := by
  have hmerge : v.merge w = (v.mergeMarks w).kill (mergeMatrix w.state v.state) := by
    rw [merge]
    exact if_pos h
  rw [hmerge, kill]
  constructor
  · intro hconst
    rw [if_pos (show (v.mergeMarks w).isConstant = true from hconst)]
    exact ⟨rfl, rfl, rfl, rfl⟩
  · intro hvar
    rw [if_neg (by rw [show (v.mergeMarks w).isConstant = false from hvar]; exact Bool.false_ne_true)]
    exact ⟨rfl, rfl, rfl, rfl⟩

/-- The same state, and a constant or values that `check` takes for equal: only the marks change. -/
theorem merge_of_same (h : v.state = w.state)
    (hsame : v.isConstant = true ∨ check v.expression w.expression = true) :
    v.merge w = v.mergeMarks w := by
  have hstate : ¬ (v.mergeMarks w).state ≠ w.state := fun hne => hne h
  simp only [merge]
  rw [if_neg hstate]
  split
  · rfl
  · rename_i hvar
    have hcheck := hsame.resolve_left hvar
    rw [if_neg]
    rw [show check (v.mergeMarks w).expression w.expression = true from hcheck]
    exact Bool.false_ne_true

/-- The same state and other values. -/
theorem merge_of_not_check (h : v.state = w.state) (hvar : v.isConstant = false)
    (hcheck : check v.expression w.expression = false) :
    (v.merge w).Killed .multiple none := by
  have hstate : ¬ (v.mergeMarks w).state ≠ w.state := fun hne => hne h
  have hvar' : ¬ (v.mergeMarks w).isConstant = true := by
    rw [show (v.mergeMarks w).isConstant = false from hvar]
    exact Bool.false_ne_true
  simp only [merge]
  rw [if_neg hstate, if_neg hvar', if_pos]
  · rw [kill, if_neg hvar']
    exact ⟨rfl, rfl, rfl, rfl⟩
  · rw [show check (v.mergeMarks w).expression w.expression = false from hcheck]
    rfl

end ValueRef

/-! ## One name -/

section Entry

variable {a b : ValueRef}

/-- Without a value and without flags there is nothing to bound. -/
theorem bounds_of_killed {r : ValueRef} {k : ValueRefState} {x y : Option ValueRef}
    (h : r.Killed k none) (hk : k = .multiple ∨ k = .unknown) : Bounds x y (some r) := by
  obtain ⟨hstate, -, hpositive, hnegative⟩ := h
  constructor
  case value =>
    rintro v ⟨⟩ hvalue
    rw [ValueRef.hasValue, hstate] at hvalue
    rcases hk with rfl | rfl <;> exact absurd hvalue (by decide)
  case positive => simp [positive, hpositive]
  case negative => simp [negative, hnegative]

theorem bounds_of_same (hstate : a.state = b.state)
    (hexpr : erase a.expression = erase b.expression) (hflags : SameFlags a b) :
    Bounds (some a) (some b) (some (a.mergeMarks b)) := by
  constructor
  case value =>
    rintro v ⟨⟩ hvalue
    refine ⟨a, b, rfl, rfl, hvalue, ?_, rfl, hexpr.symm⟩
    rw [ValueRef.hasValue, ← hstate]
    exact hvalue
  case positive =>
    simp [positive, ValueRef.mergeMarks, ← hflags.1]
  case negative =>
    simp [negative, ValueRef.mergeMarks, ← hflags.2]

/-- Merges in both orders differ at most in state, value and flags. -/
theorem alike_merge (hinfo : a.info = b.info)
    (horigin : a.origin = b.origin ∧ a.originEvalIndex = b.originEvalIndex)
    (hstate : (a.merge b).state = (b.merge a).state)
    (hexpr : erase (a.merge b).expression = erase (b.merge a).expression)
    (hflags : SameFlags (a.merge b) (b.merge a)) : (a.merge b).Alike (b.merge a) := by
  obtain ⟨hi, ho, hx, has, hl⟩ := a.merge_marks b
  obtain ⟨hi', ho', hx', has', hl'⟩ := b.merge_marks a
  constructor
  case info => rw [hi, hi', hinfo]
  case state => exact hstate
  case expression => exact hexpr
  case origin => rw [ho, ho', horigin.1]
  case originEvalIndex => rw [hx, hx', horigin.2]
  case assigned => rw [has, has', Bool.and_comm]
  case lastAssigneeScope => rw [hl, hl', ValueRef.mergeAssignee_comm]
  case flagsPositive => exact hflags.1
  case flagsNegative => exact hflags.2

theorem alike_of_killed {k k' : ValueRefState} (hinfo : a.info = b.info)
    (horigin : a.origin = b.origin ∧ a.originEvalIndex = b.originEvalIndex)
    (h : (a.merge b).Killed k none) (h' : (b.merge a).Killed k' none) (hk : k = k') :
    (a.merge b).Alike (b.merge a) := by
  obtain ⟨hs, he, hp, hn⟩ := h
  obtain ⟨hs', he', hp', hn'⟩ := h'
  refine alike_merge hinfo horigin ?_ ?_ ⟨?_, ?_⟩
  · rw [hs, hs', hk]
  · rw [he, he']
  · rw [hp, hp']
  · rw [hn, hn']

theorem isConstant_eq (hinfo : a.info = b.info) : a.isConstant = b.isConstant :=
  congrArg SymbolInfo.isConstant hinfo

/-- The values are the same for `check`: what is merged is kept. -/
theorem alike_same_iff (hinfo : a.info = b.info)
    (horigin : a.origin = b.origin ∧ a.originEvalIndex = b.originEvalIndex)
    (hstate : a.state = b.state)
    (hsame : a.isConstant = true ∨ check a.expression b.expression = true) :
    (a.merge b).Alike (b.merge a) ↔
      erase a.expression = erase b.expression ∧ SameFlags a b := by
  have hsame' : b.isConstant = true ∨ check b.expression a.expression = true :=
    hsame.imp (fun h => isConstant_eq hinfo ▸ h) check_symm
  have hab := a.merge_of_same b hstate hsame
  have hba := b.merge_of_same a hstate.symm hsame'
  constructor
  · intro h
    have hexpr := h.expression
    have hpositive := h.flagsPositive
    have hnegative := h.flagsNegative
    rw [hab, hba] at hexpr hpositive hnegative
    exact ⟨hexpr, hpositive, hnegative⟩
  · rintro ⟨hexpr, hflags⟩
    apply alike_merge hinfo horigin <;> rw [hab, hba]
    · exact hstate
    · exact hexpr
    · exact hflags

theorem mergeable_of_alike (hinfo : a.info = b.info)
    (horigin : a.origin = b.origin ∧ a.originEvalIndex = b.originEvalIndex)
    (h : (a.merge b).Alike (b.merge a)) : Mergeable (some a) (some b) := by
  refine ⟨hinfo, ?_, ?_⟩
  · intro hconst
    have hstate : a.state = b.state := by
      by_contra hne
      -- Each side keeps its own state.
      have hab := (a.merge_of_state_ne b hne).1 hconst
      have hba := (b.merge_of_state_ne a (Ne.symm hne)).1 (isConstant_eq hinfo ▸ hconst)
      exact hne (hab.1.symm.trans (h.state.trans hba.1))
    exact ⟨hstate, (alike_same_iff hinfo horigin hstate (Or.inl hconst)).1 h⟩
  · intro _ hstate hcheck
    exact (alike_same_iff hinfo horigin hstate (Or.inr hcheck)).1 h

theorem bounds_alike_of_mergeable
    (horigin : a.origin = b.origin ∧ a.originEvalIndex = b.originEvalIndex)
    (h : Mergeable (some a) (some b)) :
    Bounds (some a) (some b) (some (a.merge b)) ∧ (a.merge b).Alike (b.merge a) := by
  obtain ⟨hinfo, hconstant, hvariable⟩ := h
  have hkept : a.state = b.state →
      (a.isConstant = true ∨ check a.expression b.expression = true) →
      erase a.expression = erase b.expression ∧ SameFlags a b →
      Bounds (some a) (some b) (some (a.merge b)) ∧ (a.merge b).Alike (b.merge a) := by
    intro hstate hsame heq
    refine ⟨?_, (alike_same_iff hinfo horigin hstate hsame).2 heq⟩
    rw [a.merge_of_same b hstate hsame]
    exact bounds_of_same hstate heq.1 heq.2
  cases hconst : a.isConstant with
  | true =>
    obtain ⟨hstate, heq⟩ := hconstant hconst
    exact hkept hstate (Or.inl hconst) heq
  | false =>
    have hconst' : b.isConstant = false := isConstant_eq hinfo ▸ hconst
    by_cases hstate : a.state = b.state
    · cases hcheck : check a.expression b.expression with
      | true => exact hkept hstate (Or.inr hcheck) (hvariable hconst hstate hcheck)
      | false =>
        have hcheck' : check b.expression a.expression = false := by
          rw [Bool.eq_false_iff] at hcheck ⊢
          exact fun h => hcheck (check_symm h)
        have hab := a.merge_of_not_check b hstate hconst hcheck
        have hba := b.merge_of_not_check a hstate.symm hconst' hcheck'
        exact ⟨bounds_of_killed hab (Or.inl rfl), alike_of_killed hinfo horigin hab hba rfl⟩
    · have hab := (a.merge_of_state_ne b hstate).2 hconst
      have hba := (b.merge_of_state_ne a (Ne.symm hstate)).2 hconst'
      exact ⟨bounds_of_killed hab (ValueRef.mergeMatrix_of_ne (Ne.symm hstate)),
        alike_of_killed hinfo horigin hab hba (ValueRef.mergeMatrix_comm _ _)⟩

/-- One name in two branches. -/
theorem bounds_and_alike_iff {x y : Option ValueRef}
    (horigin : ∀ a b, x = some a → y = some b → a.info = b.info →
      a.origin = b.origin ∧ a.originEvalIndex = b.originEvalIndex) :
    Bounds x y (mergeEntry x y) ∧ Option.Rel ValueRef.Alike (mergeEntry x y) (mergeEntry y x) ↔
      Mergeable x y := by
  cases x with
  | none =>
    cases y with
    | none =>
      rw [show mergeEntry none none = none from rfl]
      refine ⟨fun _ => trivial, fun _ => ⟨⟨?_, by simp [positive], by simp [negative]⟩, .none⟩⟩
      intro v hv
      cases hv
    | some b =>
      rw [show mergeEntry none (some b) = none from rfl,
        show mergeEntry (some b) none = some b from rfl]
      exact ⟨fun h => absurd h.2 nofun, False.elim⟩
  | some a =>
    cases y with
    | none =>
      rw [show mergeEntry none (some a) = none from rfl,
        show mergeEntry (some a) none = some a from rfl]
      exact ⟨fun h => absurd h.2 nofun, False.elim⟩
    | some b =>
      -- values of different variables are not merged: each order keeps its own first one
      by_cases hinfo : a.info = b.info
      · have horigin := horigin a b rfl rfl hinfo
        have hab : mergeEntry (some a) (some b) = some (a.merge b) := if_pos hinfo
        have hba : mergeEntry (some b) (some a) = some (b.merge a) := if_pos hinfo.symm
        rw [hab, hba]
        constructor
        · rintro ⟨-, ⟨halike⟩⟩
          exact mergeable_of_alike hinfo horigin halike
        · intro h
          obtain ⟨hbounds, halike⟩ := bounds_alike_of_mergeable horigin h
          exact ⟨hbounds, .some halike⟩
      · have hab : mergeEntry (some a) (some b) = some a := if_neg hinfo
        have hba : mergeEntry (some b) (some a) = some b := if_neg (Ne.symm hinfo)
        rw [hab, hba]
        constructor
        · rintro ⟨-, ⟨halike⟩⟩
          exact absurd halike.info hinfo
        · exact fun h => absurd h.1 hinfo

end Entry

/-! ## Whole scopes -/

/-- A variable that is merged with its copy is only not assigned any more. -/
theorem merge_copied (v : ValueRef) : v.merge v.copied = v.mergeMarks v.copied :=
  v.merge_of_same v.copied rfl (Or.inr (check_refl v.expression))

theorem alike_merge_copied_iff (v : ValueRef) :
    (v.merge v.copied).Alike v ↔ v.assigned = false := by
  rw [merge_copied]
  constructor
  · intro h
    have hassigned : (v.assigned && false) = v.assigned := h.assigned
    rw [← hassigned, Bool.and_false]
  · intro h
    have hassignee : ValueRef.mergeAssignee v.lastAssigneeScope none = v.lastAssigneeScope := by
      cases v.lastAssigneeScope <;> rfl
    exact ⟨rfl, rfl, rfl, rfl, rfl, show (v.assigned && false) = v.assigned by rw [h]; rfl,
      hassignee, rfl, rfl⟩

theorem sameVariables_merge_copy_iff (c : Chain) : SameVariables (merge c (copy false c)) c ↔
    ∀ i n v, entry c i n = some v → v.assigned = false := by
  have hentry : ∀ i n, entry (merge c (copy false c)) i n =
      mergeEntry (entry c i n) ((entry c i n).map ValueRef.copied) := by
    intro i n
    rw [entry_merge (length_copy false c).symm, entry_copy]
  constructor
  · intro h i n v hv
    have hrel := h i n
    rw [hentry, hv, Option.map_some, show mergeEntry (some v) (some v.copied) = some (v.merge v.copied)
      from if_pos rfl] at hrel
    cases hrel with
    | some halike => exact (alike_merge_copied_iff v).1 halike
  · intro h i n
    rw [hentry]
    cases hv : entry c i n with
    | none => exact .none
    | some v =>
      rw [Option.map_some, show mergeEntry (some v) (some v.copied) = some (v.merge v.copied)
        from if_pos rfl]
      exact .some ((alike_merge_copied_iff v).2 (h i n v hv))

/-- **The join is an upper bound** exactly when no variable of the trunk is marked as assigned and
the variables of the two branches can be merged. -/
theorem upperBound_iff (t : Trunk) (ops ops' : List BranchOp) : UpperBound t ops ops' ↔
    (∀ i n v, entry t.chain i n = some v → v.assigned = false) ∧
      ∀ i n, Mergeable (entry (t.branch ops).chain i n)
        (entry (t.secondBranch ops ops').chain i n) := by
  have hlength : (t.branch ops).chain.length = (t.secondBranch ops ops').chain.length := by
    rw [(t.follows_branch ops).length, (t.follows_secondBranch ops ops').length]
  have hiff := fun i n => bounds_and_alike_iff (fun a b ha hb hinfo =>
    @Trunk.origin_eq_of_info_eq t ops ops' i n a b ha hb hinfo)
  constructor
  · rintro ⟨hbounds, hcomm, hidem, -⟩
    refine ⟨(sameVariables_merge_copy_iff t.chain).1 hidem, ?_⟩
    intro i n
    have hb := hbounds i n
    have hc := hcomm i n
    rw [entry_merge hlength] at hb hc
    rw [entry_merge hlength.symm] at hc
    exact (hiff i n).1 ⟨hb, hc⟩
  · rintro ⟨hassigned, hmergeable⟩
    constructor
    case bounds =>
      intro i n
      rw [entry_merge hlength]
      exact ((hiff i n).2 (hmergeable i n)).1
    case comm =>
      intro i n
      rw [entry_merge hlength, entry_merge hlength.symm]
      exact ((hiff i n).2 (hmergeable i n)).2
    case idem => exact (sameVariables_merge_copy_iff t.chain).2 hassigned
    case disjoint => exact fun i n v _ => v.disjoint

/-! ## A parameter -/

/-- A function scope with the parameter `x`, of which nothing is known. -/
def parameterScope : VarScope where
  evalId := 0
  depth := 0
  owner := 0
  symbols := fun n =>
    if n = [120] then some { ValueRef.make ⟨0, .param⟩ 0 with state := .unknown } else none

/-- The trunk of a function with one parameter. -/
def parameterTrunk : Trunk where
  chain := [parameterScope]
  next := 1
  addr_lt := by
    intro i n v hv
    cases i with
    | zero =>
      rw [entry_zero, parameterScope] at hv
      dsimp only at hv
      split at hv
      · cases hv
        decide
      · cases hv
    | succ i => cases hv

/-- The identifier of a name. -/
def identifier (addr : Nat) (name : CString) : Node :=
  NodeEqualChecker.leaf addr .id .name (.text name)

/-- After `if (c) x = y; else x = z;` the analyser takes the parameter `x` for `y`. -/
theorem parameter_not_upperBound :
    ¬ UpperBound parameterTrunk [.assign [120] (identifier 1 [121]) false]
      [.assign [120] (identifier 2 [122]) false] := by
  intro h
  have hvalue := (h.bounds 0 [120]).value _ rfl rfl
  obtain ⟨x, y, hx, hy, -, -, hxe, hye⟩ := hvalue
  cases hx
  cases hy
  have heq : erase (some (identifier 1 [121])) = erase (some (identifier 2 [122])) :=
    hxe.trans hye.symm
  simp [erase, NodeEqualChecker.view, NodeEqualChecker.viewNode, identifier, NodeEqualChecker.leaf,
    NodeEqualChecker.shape, NodeEqualChecker.Value.meaning] at heq

end Quirrel.ScopeMerge
