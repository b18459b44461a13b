import Quirrel.ScopeMerge.Basic

/-!
# Branches of one trunk

Whatever the visitor does in a branch, a variable keeps its `SymbolInfo` and its origin, and a new
variable has a `SymbolInfo` of its own (`Branch.Follows.runOps`). So the entries that two branches of
one trunk have under one name have the same origin if they have the same `SymbolInfo`
(`origin_eq_of_info_eq`).
-/

set_option autoImplicit false

namespace Quirrel.ScopeMerge

open NodeEqualChecker (Node CString)

/-- The variable of a name in the `i`-th scope outwards. -/
def entry (ss : Chain) (i : Nat) (n : CString) : Option ValueRef :=
  match ss[i]? with
  | some s => s.symbols n
  | none => none

@[simp] theorem entry_nil (i : Nat) (n : CString) : entry [] i n = none := rfl

@[simp] theorem entry_zero (s : VarScope) (ss : Chain) (n : CString) :
    entry (s :: ss) 0 n = s.symbols n := rfl

@[simp] theorem entry_succ (s : VarScope) (ss : Chain) (i : Nat) (n : CString) :
    entry (s :: ss) (i + 1) n = entry ss i n := rfl

/-! ## Copies and merges -/

/-- A copy has the same scopes. -/
theorem length_copy (forClosure : Bool) (c : Chain) : (copy forClosure c).length = c.length := by
  induction c with
  | nil => rfl
  | cons s ss ih => rw [copy, List.length_cons, ih, List.length_cons]

/-- The copy of a scope chain has the copies of its entries. -/
theorem entry_copy (c : Chain) (i : Nat) (n : CString) :
    entry (copy false c) i n = (entry c i n).map ValueRef.copied := by
  induction c generalizing i with
  | nil => rfl
  | cons s ss ih =>
    cases i with
    | zero => rfl
    | succ i => exact ih i

theorem entry_mergeSymbols {ls rs : Chain} (h : ls.length = rs.length) (i : Nat) (n : CString) :
    entry (mergeSymbols ls rs) i n = mergeEntry (entry ls i n) (entry rs i n) := by
  induction ls generalizing rs i with
  | nil => cases rs <;> rfl
  | cons l ls ih =>
    cases rs with
    | nil => cases h
    | cons r rs =>
      cases i with
      | zero => rfl
      | succ i => exact ih (Nat.succ.inj h) i

/-- Two chains are merged entry by entry. -/
theorem entry_merge {ls rs : Chain} (h : ls.length = rs.length) (i : Nat) (n : CString) :
    entry (merge ls rs) i n = mergeEntry (entry ls i n) (entry rs i n) := by
  rw [← entry_mergeSymbols h]
  cases ls with
  | nil => cases rs <;> rfl
  | cons l ls =>
    cases rs with
    | nil => cases h
    | cons r rs => cases i <;> rfl

/-! ## What a change of variables keeps -/

/-- The second is the first after some changes. -/
structure ValueRef.Kept (v w : ValueRef) : Prop where
  info : w.info = v.info
  origin : w.origin = v.origin
  originEvalIndex : w.originEvalIndex = v.originEvalIndex

namespace ValueRef

theorem Kept.refl (v : ValueRef) : v.Kept v := ⟨rfl, rfl, rfl⟩

/-- What is kept twice is kept. -/
theorem Kept.trans {u v w : ValueRef} (h : u.Kept v) (h' : v.Kept w) : u.Kept w :=
  ⟨h'.info.trans h.info, h'.origin.trans h.origin, h'.originEvalIndex.trans h.originEvalIndex⟩

/-- A copy keeps where the value came from. -/
theorem kept_copied (v : ValueRef) : v.Kept v.copied := ⟨rfl, rfl, rfl⟩

theorem kept_kill (v : ValueRef) (k : ValueRefState) : v.Kept (v.kill k) := by
  rw [kill]
  split <;> exact ⟨rfl, rfl, rfl⟩

/-- An assignment keeps where the value came from. -/
theorem kept_assign (v : ValueRef) (rhs : Node) (nullable : Bool) (evalId : Int) (depth : Nat) :
    v.Kept (v.assign rhs nullable evalId depth) := ⟨rfl, rfl, rfl⟩

theorem kept_assignEq (v : ValueRef) (evalId : Int) : v.Kept (v.assignEq evalId) := by
  have h := v.kept_kill .unknown
  exact ⟨h.info, h.origin, h.originEvalIndex⟩

theorem kept_inc (v : ValueRef) : v.Kept v.inc := ⟨rfl, rfl, rfl⟩

/-- Flags are set without a change of the origin. -/
theorem kept_setFlags (v : ValueRef) (pf nf : BitVec 32) : v.Kept (v.setFlags pf nf) :=
  ⟨rfl, rfl, rfl⟩

/-- So is the mark of an assignment. -/
theorem kept_markAssigned (v : ValueRef) (depth : Nat) : v.Kept (v.markAssigned depth) :=
  ⟨rfl, rfl, rfl⟩

theorem kept_markUsed (v : ValueRef) (compound : Bool) : v.Kept (v.markUsed compound) := by
  rw [markUsed]
  split <;> exact ⟨rfl, rfl, rfl⟩

/-- A killed variable keeps its origin. -/
theorem kept_killVariable (v : ValueRef) :
    v.Kept v.killVariable := by
  rw [killVariable]
  split
  · exact .refl v
  · exact v.kept_kill .unknown

end ValueRef

/-- The second chain has the variables of the first one after some changes. -/
structure Chain.Kept (c c' : Chain) : Prop where
  length : c'.length = c.length
  entry : ∀ i n w, ScopeMerge.entry c' i n = some w →
    ∃ v : ValueRef, ScopeMerge.entry c i n = some v ∧ v.Kept w

theorem Chain.Kept.refl (c : Chain) : Chain.Kept c c :=
  ⟨rfl, fun _ _ w hw => ⟨w, hw, .refl w⟩⟩

theorem Chain.Kept.trans {a b c : Chain} (h : Chain.Kept a b) (h' : Chain.Kept b c) :
    Chain.Kept a c := by
  refine ⟨h'.length.trans h.length, ?_⟩
  intro i n w hw
  obtain ⟨v, hv, hvw⟩ := h'.entry i n w hw
  obtain ⟨u, hu, huv⟩ := h.entry i n v hv
  exact ⟨u, hu, huv.trans hvw⟩

/-- A change of the innermost scope, or of the other ones. -/
theorem Chain.Kept.cons {s s' : VarScope} {ss ss' : Chain}
    (hs : ∀ n w, s'.symbols n = some w → ∃ v : ValueRef, s.symbols n = some v ∧ v.Kept w)
    (hss : Chain.Kept ss ss') : Chain.Kept (s :: ss) (s' :: ss') := by
  refine ⟨congrArg Nat.succ hss.length, ?_⟩
  intro i n w hw
  cases i with
  | zero => exact hs n w hw
  | succ i => exact hss.entry i n w hw

/-- One symbol is changed, and it was there. -/
theorem kept_update {symbols : CString → Option ValueRef} {name : CString} {f : ValueRef → ValueRef}
    (hf : ∀ v : ValueRef, v.Kept (f v)) (n : CString) (w : ValueRef)
    (hw : Function.update symbols name ((symbols name).map f) n = some w) :
    ∃ v : ValueRef, symbols n = some v ∧ v.Kept w := by
  rw [Function.update_apply] at hw
  split at hw
  · rename_i hn
    obtain ⟨v, hv, rfl⟩ := Option.map_eq_some_iff.1 hw
    exact ⟨v, hn ▸ hv, hf v⟩
  · exact ⟨w, hw, .refl w⟩

/-- A change of one entry keeps the chain, when it keeps the entry. -/
theorem kept_updateInScopes {name : CString} {f : ValueRef → ValueRef} (hf : ∀ v : ValueRef, v.Kept (f v))
    {c c' : Chain} (h : updateInScopes name f c = some c') : Chain.Kept c c' := by
  induction c generalizing c' with
  | nil => cases h
  | cons s ss ih =>
    rw [updateInScopes] at h
    cases hname : s.symbols name with
    | some v =>
      rw [hname] at h
      cases h
      refine .cons ?_ (.refl ss)
      intro n w hw
      have hw : Function.update s.symbols name ((s.symbols name).map f) n = some w := by
        rw [hname]
        exact hw
      exact kept_update hf n w hw
    | none =>
      rw [hname] at h
      obtain ⟨ss', hss', rfl⟩ := Option.map_eq_some_iff.1 h
      exact .cons (fun n w hw => ⟨w, hw, .refl w⟩) (ih hss')

theorem kept_killInScope (owner : Nat) (name : CString) (c : Chain) :
    Chain.Kept c (killInScope owner name c) := by
  induction c with
  | nil => exact .refl []
  | cons s ss ih =>
    rw [killInScope]
    split
    · exact .cons (kept_update ValueRef.kept_killVariable) (.refl ss)
    · exact .cons (fun n w hw => ⟨w, hw, .refl w⟩) ih

/-- A call of a known function kills what it modifies and keeps the chain. -/
theorem kept_knownInvocation (modifiable : List (Nat × CString)) (c : Chain) :
    Chain.Kept c (modifiable.foldl (fun c m => killInScope m.1 m.2 c) c) := by
  induction modifiable generalizing c with
  | nil => exact .refl c
  | cons m ms ih => exact (kept_killInScope m.1 m.2 c).trans (ih _)

/-- A call of an unknown function kills what it may modify and keeps the chain. -/
theorem kept_unknownInvocation (c : Chain) :
    Chain.Kept c (c.map fun s =>
      { s with symbols := fun n => (s.symbols n).map ValueRef.killVariable }) := by
  induction c with
  | nil => exact .refl []
  | cons s ss ih =>
    refine .cons ?_ ih
    intro n w hw
    obtain ⟨v, hv, rfl⟩ := Option.map_eq_some_iff.1 hw
    exact ⟨v, hv, v.kept_killVariable⟩

/-! ## Runs -/

/-- The branch has the variables of the trunk after some changes and, besides, new variables whose
records have addresses from `lo` on. -/
structure Branch.Follows (trunk : Chain) (lo : Nat) (b : Branch) : Prop where
  length : b.chain.length = trunk.length
  lo_le : lo ≤ b.next
  entry : ∀ i n w, ScopeMerge.entry b.chain i n = some w →
    (∃ v : ValueRef, ScopeMerge.entry trunk i n = some v ∧ v.Kept w) ∨
      (lo ≤ w.info.addr ∧ w.info.addr < b.next ∧ w.origin = none ∧ w.originEvalIndex = -1)

variable {trunk : Chain} {lo : Nat} {b : Branch}

/-- A branch begins as a copy of the trunk. -/
theorem Branch.Follows.copy (trunk : Chain) (lo : Nat) :
    Branch.Follows trunk lo ⟨ScopeMerge.copy false trunk, lo⟩ := by
  refine ⟨length_copy false trunk, Nat.le_refl lo, ?_⟩
  intro i n w hw
  rw [entry_copy] at hw
  obtain ⟨v, hv, rfl⟩ := Option.map_eq_some_iff.1 hw
  exact Or.inl ⟨v, hv, v.kept_copied⟩

/-- A branch follows the trunk while its entries are kept. -/
theorem Branch.Follows.kept (h : Branch.Follows trunk lo b) {c : Chain}
    (hc : Chain.Kept b.chain c) : Branch.Follows trunk lo { b with chain := c } := by
  refine ⟨hc.length.trans h.length, h.lo_le, ?_⟩
  intro i n w hw
  obtain ⟨v, hv, hvw⟩ := hc.entry i n w hw
  rcases h.entry i n v hv with ⟨u, hu, huv⟩ | ⟨hlo, hlt, horigin, hindex⟩
  · exact Or.inl ⟨u, hu, huv.trans hvw⟩
  · right
    rw [hvw.info, hvw.origin, hvw.originEvalIndex]
    exact ⟨hlo, hlt, horigin, hindex⟩

theorem Branch.Follows.update (h : Branch.Follows trunk lo b) (name : CString)
    {f : ValueRef → ValueRef} (hf : ∀ v : ValueRef, v.Kept (f v)) :
    Branch.Follows trunk lo (b.update name f) := by
  apply h.kept
  cases hc : updateInScopes name f b.chain with
  | none => exact .refl b.chain
  | some c => exact kept_updateInScopes hf hc

/-- A new variable of a branch is not from the trunk. -/
theorem Branch.Follows.declare (h : Branch.Follows trunk lo b) (name : CString) {v : ValueRef}
    (hinfo : v.info.addr = b.next) (horigin : v.origin = none) (hindex : v.originEvalIndex = -1) :
    Branch.Follows trunk lo (b.declare name v) := by
  obtain ⟨chain, next⟩ := b
  cases chain with
  | nil => exact h
  | cons s ss =>
    refine ⟨h.length, Nat.le_succ_of_le h.lo_le, ?_⟩
    -- What was there keeps the bounds of its address.
    have hold : ∀ i n w, ScopeMerge.entry (s :: ss) i n = some w →
        (∃ v : ValueRef, ScopeMerge.entry trunk i n = some v ∧ v.Kept w) ∨
          (lo ≤ w.info.addr ∧ w.info.addr < next + 1 ∧ w.origin = none ∧
            w.originEvalIndex = -1) := by
      intro i n w hw
      rcases h.entry i n w hw with hkept | ⟨hlo, hlt, hrest⟩
      · exact Or.inl hkept
      · exact Or.inr ⟨hlo, Nat.lt_succ_of_lt hlt, hrest⟩
    intro i n w hw
    cases i with
    | succ i => exact hold (i + 1) n w hw
    | zero =>
      have hw : Function.update s.symbols name (some v) n = some w := hw
      rw [Function.update_apply] at hw
      split at hw
      · cases hw
        exact Or.inr ⟨hinfo ▸ h.lo_le, hinfo ▸ Nat.lt_succ_self next, horigin, hindex⟩
      · exact hold 0 n w hw

/-- An assignment in a branch keeps it following the trunk. -/
theorem Branch.Follows.assign (h : Branch.Follows trunk lo b) (name : CString) (rhs : Node)
    (nullable : Bool) : Branch.Follows trunk lo (b.assign name rhs nullable) := by
  rw [Branch.assign]
  split
  · rename_i chain hchain
    exact h.kept (kept_updateInScopes (fun v => v.kept_assign rhs nullable _ _) hchain)
  · exact h.declare name rfl rfl rfl

/-- One operation of the visitor. -/
theorem Branch.Follows.apply (h : Branch.Follows trunk lo b) (op : BranchOp) :
    Branch.Follows trunk lo (BranchOp.apply b op) := by
  cases op with
  | assign name rhs nullable => exact h.assign name rhs nullable
  | assignEq name => exact h.update name fun v => v.kept_assignEq _
  | inc name => exact h.update name ValueRef.kept_inc
  | setFlags name pf nf => exact h.update name fun v => v.kept_setFlags pf nf
  | markAssigned name => exact h.update name fun v => v.kept_markAssigned _
  | markUsed name compound => exact h.update name fun v => v.kept_markUsed compound
  | knownInvocation modifiable => exact h.kept (kept_knownInvocation modifiable b.chain)
  | unknownInvocation => exact h.kept (kept_unknownInvocation b.chain)

/-- Any sequence of operations. -/
theorem Branch.Follows.runOps (h : Branch.Follows trunk lo b) (ops : List BranchOp) :
    Branch.Follows trunk lo (ScopeMerge.runOps b ops) := by
  induction ops generalizing b with
  | nil => exact h
  | cons op ops ih => exact ih (h.apply op)

/-- A trunk scope, with the address of the next `SymbolInfo`. -/
structure Trunk where
  chain : Chain
  next : Nat
  addr_lt : ∀ i n v, entry chain i n = some v → v.info.addr < next

/-- The first branch, after its operations. -/
def Trunk.branch (t : Trunk) (ops : List BranchOp) : Branch :=
  runOps ⟨copy false t.chain, t.next⟩ ops

/-- The second branch: it is visited after the first one, whose new records are there already. -/
def Trunk.secondBranch (t : Trunk) (ops ops' : List BranchOp) : Branch :=
  runOps ⟨copy false t.chain, (t.branch ops).next⟩ ops'

/-- The first branch follows the trunk. -/
theorem Trunk.follows_branch (t : Trunk) (ops : List BranchOp) :
    Branch.Follows t.chain t.next (t.branch ops) :=
  (Branch.Follows.copy t.chain t.next).runOps ops

/-- The second branch follows the trunk, with addresses behind those of the first. -/
theorem Trunk.follows_secondBranch (t : Trunk) (ops ops' : List BranchOp) :
    Branch.Follows t.chain (t.branch ops).next (t.secondBranch ops ops') :=
  (Branch.Follows.copy t.chain _).runOps ops'

/-- One record, one origin. -/
theorem Trunk.origin_eq_of_info_eq (t : Trunk) (ops ops' : List BranchOp) {i : Nat} {n : CString}
    {a b : ValueRef} (ha : entry (t.branch ops).chain i n = some a)
    (hb : entry (t.secondBranch ops ops').chain i n = some b) (hinfo : a.info = b.info) :
    a.origin = b.origin ∧ a.originEvalIndex = b.originEvalIndex := by
  have hle := (t.follows_branch ops).lo_le
  rcases (t.follows_branch ops).entry i n a ha with ⟨v, hv, hva⟩ | ⟨hlo, hlt, horigin, hindex⟩
  · have haddr := t.addr_lt i n v hv
    rw [← hva.info, hinfo] at haddr
    rcases (t.follows_secondBranch ops ops').entry i n b hb with ⟨w, hw, hwb⟩ | ⟨hlo', -⟩
    · obtain rfl : v = w := Option.some.inj (hv.symm.trans hw)
      rw [hva.origin, hva.originEvalIndex, hwb.origin, hwb.originEvalIndex]
      exact ⟨rfl, rfl⟩
    · omega
  · rw [hinfo] at hlo hlt
    rcases (t.follows_secondBranch ops ops').entry i n b hb with ⟨w, hw, hwb⟩ | ⟨hlo', -⟩
    · have haddr := t.addr_lt i n w hw
      rw [← hwb.info] at haddr
      omega
    · omega

end Quirrel.ScopeMerge
