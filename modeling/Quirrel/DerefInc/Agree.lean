import Quirrel.DerefInc.Basic

/-!
# When `DerefInc` is read, compute and write

`derefInc_eq_iff` says for every container, key, operator and operand when the two do the
same. An index beyond 32 bits, a slot that the arithmetic moves, removes or frees, and an
immutable container are where they part.
-/

set_option autoImplicit false

namespace Quirrel.DerefInc

open Quirrel.Table (SQTable)
open Quirrel.Class (isField isNativeField memberIdx SQInstance)

variable {K V D O R E : Type} [DecidableEq K] (vm : Vm K V D O R E)

/-- The slot that `Get` and `Set` find in the container itself. -/
def slot (self : Self O) (key : K) (w : World K V D R) : Option SlotPtr :=
  match self.obj with
  | .inst addr =>
    match (vm.classes addr).members.lookup key with
    | some idx => if isField idx then some (.field addr idx) else none
    | none => none
  | .table addr => (w.node vm addr key).map (.node addr (w.tables addr).block)
  | .array addr =>
    match vm.tointeger key with
    | none => none
    | some nidx =>
      if nidx.toNat < (w.arrays addr).values.length then
        some (.element addr (w.arrays addr).block nidx.toNat)
      else none
  | .userdata _ | .other _ => none

/-- The slot that was found before the arithmetic is good for the write: it is the slot of
the key, or it comes to the same where the bytes are written. -/
inductive SlotLasts (self : Self O) (key : K) (v : V) (w : World K V D R) (p : SlotPtr) : Prop
  | same (h : slot vm self key w = some p)
  | written (q : SlotPtr) (hslot : slot vm self key w = some q) (hp : w.HasSlot p)
      (hvp : w.load vm p = v) (hvq : w.load vm q = v)
  | fallBack (hnone : slot vm self key w = none) (hp : w.HasSlot p)
      (hset : set vm self key v w = (.ok (), w.store p v))

/-- Reading and computing change nothing, and raise no error but the one for an immutable
container. -/
def QuietRead (op : Nat) (self : Self O) (key : K) (incr : V) (w : World K V D R) : Prop :=
  match get vm self key w with
  | (.error err, w₁) => err = vm.immutableError self ∧ w₁ = w
  | (.ok tmp, w₁) =>
    match vm.arithOp op tmp incr w₁ with
    | (.error err, w₂) => err = vm.immutableError self ∧ w₂ = w
    | (.ok _, w₂) => w₂ = w

/-- The condition for `derefInc` to do what `readComputeWrite` does. -/
def Settled (op : Nat) (self : Self O) (key : K) (incr : V) (w : World K V D R) : Prop :=
  if self.immutable then QuietRead vm op self key incr w
  else
    match instanceValue vm self key w with
    | none => True
    | some p =>
      match vm.arithOp op (realval vm (w.load vm p)) incr w with
      | (.error err, w₁) => slot vm self key w = none → err = vm.idxError key ∧ w₁ = w
      | (.ok target, w₁) => slot vm self key w ≠ none ∧ SlotLasts vm self key target w₁ p

variable {vm} {self : Self O} {key : K} {w : World K V D R} {p : SlotPtr}

/-! ## The slot of a key -/

/-- A slot is a node of a table, an element of an array or a field of an instance. -/
inductive SlotIs (vm : Vm K V D O R E) (self : Self O) (key : K) (w : World K V D R) :
    SlotPtr → Prop
  | node (addr i : Nat) (hobj : self.obj = .table addr) (hi : w.node vm addr key = some i) :
      SlotIs vm self key w (.node addr (w.tables addr).block i)
  | element (addr : Nat) (n : BitVec 64) (hobj : self.obj = .array addr)
      (hn : vm.tointeger key = some n) (hlt : n.toNat < (w.arrays addr).values.length) :
      SlotIs vm self key w (.element addr (w.arrays addr).block n.toNat)
  | field (addr idx : Nat) (hobj : self.obj = .inst addr)
      (hidx : (vm.classes addr).members.lookup key = some idx) (hfield : isField idx = true) :
      SlotIs vm self key w (.field addr idx)

theorem slot_cases (h : slot vm self key w = some p) : SlotIs vm self key w p := by
  unfold slot at h
  split at h
  case h_1 addr hobj =>
    split at h
    case h_1 idx hidx =>
      split at h
      case isTrue hfield =>
        cases h
        exact .field addr idx hobj hidx hfield
      case isFalse => cases h
    case h_2 => cases h
  case h_2 addr hobj =>
    obtain ⟨i, hi, rfl⟩ := Option.map_eq_some_iff.mp h
    exact .node addr i hobj hi
  case h_3 addr hobj =>
    split at h
    case h_1 => cases h
    case h_2 n hn =>
      split at h
      case isTrue hlt =>
        cases h
        exact .element addr n hobj hn hlt
      case isFalse => cases h
  case h_4 => cases h
  case h_5 => cases h

theorem hasSlot_of_slot (h : slot vm self key w = some p) : w.HasSlot p := by
  cases slot_cases h with
  | node addr i hobj hi => exact rfl
  | element addr n hobj hn hlt => exact ⟨rfl, hlt⟩
  | field addr idx hobj hidx hfield => trivial

/-- An index of the array is below the size, so its low 32 bits are all of it. -/
theorem instanceValue_of_slot (h : slot vm self key w = some p) :
    instanceValue vm self key w = some p := by
  unfold instanceValue
  cases slot_cases h with
  | node addr i hobj hi => simp only [hobj, hi, Option.map_some]
  | element addr n hobj hn hlt =>
    have hsmall : (n.setWidth 32).toNat = n.toNat := by
      rw [BitVec.toNat_setWidth]
      exact Nat.mod_eq_of_lt (hlt.trans (w.arrays addr).size_lt)
    simp only [hobj, hn, hsmall, if_pos hlt]
  | field addr idx hobj hidx hfield => simp only [hobj, hidx, if_pos hfield]

omit [DecidableEq K] in
theorem propagateImmutable_of_mutable (himm : self.immutable = false) (v : V) :
    propagateImmutable vm self v = v :=
  if_neg (himm ▸ Bool.false_ne_true)

theorem get_of_slot (himm : self.immutable = false) (h : slot vm self key w = some p) :
    get vm self key w = (.ok (realval vm (w.load vm p)), w) := by
  unfold get
  cases slot_cases h with
  | node addr i hobj hi =>
    simp only [hobj, hi, propagateImmutable_of_mutable himm]
    rfl
  | element addr n hobj hn hlt =>
    simp only [hobj, hn, List.getElem?_eq_getElem hlt, propagateImmutable_of_mutable himm,
      World.load, List.getD_eq_getElem _ _ hlt]
  | field addr idx hobj hidx hfield =>
    simp only [hobj, hidx, propagateImmutable_of_mutable himm, SQInstance.getMember,
      if_pos hfield, vm.realval_eq]
    rfl

theorem set_of_slot (himm : self.immutable = false) (h : slot vm self key w = some p) (v : V) :
    set vm self key v w = (.ok (), w.store p v) := by
  rw [set, if_neg (himm ▸ Bool.false_ne_true)]
  cases slot_cases h with
  | node addr i hobj hi =>
    simp only [hobj, hi]
    rfl
  | element addr n hobj hn hlt =>
    simp only [hobj, hn, if_pos hlt]
    rfl
  | field addr idx hobj hidx hfield =>
    simp only [hobj, hidx, if_pos hfield]
    rfl

/-! ## Native fields, and slots that are not found -/

/-- What a lookup by 32 bits finds beside the slot of the key is in an array, whose index
is out of range. -/
theorem get_of_no_slot (hp : instanceValue vm self key w = some p)
    (h : slot vm self key w = none) : get vm self key w = (.error (vm.idxError key), w) := by
  unfold instanceValue at hp
  unfold slot at h
  unfold get
  cases hobj : self.obj with
  | array addr =>
    simp only [hobj] at hp h ⊢
    cases hn : vm.tointeger key with
    | none =>
      simp only [hn] at hp
      cases hp
    | some n =>
      simp only [hn] at h ⊢
      split at h
      case isTrue => cases h
      case isFalse hge => rw [List.getElem?_eq_none (Nat.le_of_not_lt hge)]
  | table addr =>
    simp only [hobj] at hp h
    cases hp.symm.trans h
  | inst addr =>
    simp only [hobj] at hp h
    cases hp.symm.trans h
  | userdata addr =>
    simp only [hobj] at hp
    cases hp
  | other obj =>
    simp only [hobj] at hp
    cases hp

theorem nativeField_eq_none (hp : instanceValue vm self key w = some p) :
    nativeField vm self key = none := by
  unfold instanceValue at hp
  unfold nativeField
  cases hobj : self.obj with
  | inst addr =>
    simp only [hobj] at hp ⊢
    split at hp
    case h_2 => cases hp
    case h_1 idx hidx =>
      split at hp
      case isFalse => cases hp
      case isTrue hfield => rw [if_pos hfield]
  | _ => rfl

theorem derefInc_of_nativeField {op : Nat} {incr : V} {postfixOp : Bool}
    {addr idx : Nat} (himm : self.immutable = false)
    (h : nativeField vm self key = some (addr, idx)) :
    derefInc vm op self key incr postfixOp w = readComputeWrite vm op self key incr postfixOp w := by
  rw [derefInc, if_neg (himm ▸ Bool.false_ne_true), h]
  -- a native field: the class of the instance has the key as a member of that kind
  unfold nativeField at h
  split at h
  case h_2 => cases h
  case h_1 addr' hobj =>
    split at h
    case h_2 => cases h
    case h_1 idx' hidx =>
      split at h
      case isTrue => cases h
      case isFalse hfield =>
        split at h
        case isFalse => cases h
        case isTrue hnative =>
          cases h
          -- the value read is that of the field, and both ways store it there
          have hget : get vm self key w = (.ok ((w.instances addr).getMember vm.classOps
              (vm.classes addr) idx), w) := by
            simp only [get, hobj, hidx, propagateImmutable_of_mutable himm]
          rw [readComputeWrite, hget]
          dsimp only
          cases vm.arithOp op ((w.instances addr).getMember vm.classOps (vm.classes addr) idx)
            incr w with
          | mk res w₁ =>
            cases res with
            | error err => rfl
            | ok target =>
              cases hfields : (w₁.instances addr).setNativeField vm.classOps (vm.classes addr)
                (memberIdx idx) target with
              | none =>
                have hset : set vm self key target w₁ = (.error vm.nativeFieldError, w₁) := by
                  rw [set, if_neg (himm ▸ Bool.false_ne_true)]
                  simp only [hobj, hidx, if_neg hfield, if_pos hnative, hfields]
                simp only [hset, hfields]
              | some i =>
                have hset : set vm self key target w₁ = (.ok (), w₁.setInstance addr i) := by
                  rw [set, if_neg (himm ▸ Bool.false_ne_true)]
                  simp only [hobj, hidx, if_neg hfield, if_pos hnative, hfields]
                simp only [hset, hfields]

/-! ## The write -/

omit [DecidableEq K] in
theorem load_of_setVal_eq {T : SQTable K V} {i j : Nat} {v : V} (hij : i ≠ j)
    (h : T.setVal i v = T.setVal j v) : (T.nodes i).val = v ∧ (T.nodes j).val = v := by
  have hval : Function.update T.valAt i v = Function.update T.valAt j v := by
    rw [← SQTable.valAt_setVal, ← SQTable.valAt_setVal, h]
  constructor
  · have hi := congrFun hval i
    rw [Function.update_self, Function.update_of_ne hij] at hi
    exact hi.symm
  · have hj := congrFun hval j
    rw [Function.update_self, Function.update_of_ne (Ne.symm hij)] at hj
    exact hj

omit [DecidableEq K] in
theorem setVal_of_val {T : SQTable K V} {i : Nat} {v : V} (h : (T.nodes i).val = v) :
    T.setVal i v = T := by
  subst h
  have hnodes : Function.update T.nodes i { T.nodes i with val := (T.nodes i).val } = T.nodes :=
    Function.update_eq_self i T.nodes
  unfold SQTable.setVal SQTable.setNode
  rw [hnodes]

/-- The old slot of the key, where there is a slot still, is the new one or another node of
the table. -/
theorem slot_eq_or_node {w' : World K V D R} {q : SlotPtr} (hp : slot vm self key w = some p)
    (hq : slot vm self key w' = some q) (hslot : w'.HasSlot p) :
    p = q ∨ ∃ addr i j, i ≠ j ∧ p = .node addr (w.tables addr).block i ∧
      q = .node addr (w'.tables addr).block j := by
  cases slot_cases hp with
  | node addr i hobj hi =>
    cases slot_cases hq with
    | node addr' j hobj' hj =>
      cases hobj.symm.trans hobj'
      have hblock : (w'.tables addr).block = (w.tables addr).block := hslot
      by_cases hij : i = j
      · subst hij
        rw [hblock]
        exact .inl rfl
      · exact .inr ⟨addr, i, j, hij, rfl, rfl⟩
    | element addr' n hobj' _ _ => cases hobj.symm.trans hobj'
    | field addr' idx hobj' _ _ => cases hobj.symm.trans hobj'
  | element addr n hobj hn hlt =>
    cases slot_cases hq with
    | element addr' n' hobj' hn' hlt' =>
      cases hobj.symm.trans hobj'
      cases hn.symm.trans hn'
      have hblock : (w'.arrays addr).block = (w.arrays addr).block := hslot.1
      rw [hblock]
      exact .inl rfl
    | node addr' i hobj' _ => cases hobj.symm.trans hobj'
    | field addr' idx hobj' _ _ => cases hobj.symm.trans hobj'
  | field addr idx hobj hidx hfield =>
    cases slot_cases hq with
    | field addr' idx' hobj' hidx' _ =>
      cases hobj.symm.trans hobj'
      cases hidx.symm.trans hidx'
      exact .inl rfl
    | node addr' i hobj' _ => cases hobj.symm.trans hobj'
    | element addr' n hobj' _ _ => cases hobj.symm.trans hobj'

/-- Writing in the old slot and in the new one comes to the same exactly when they are one
slot, or both have the value already. -/
theorem store_eq_iff {w' : World K V D R} {q : SlotPtr} {v : V}
    (hp : slot vm self key w = some p) (hq : slot vm self key w' = some q) (hslot : w'.HasSlot p) :
    w'.store p v = w'.store q v ↔ p = q ∨ w'.load vm p = v ∧ w'.load vm q = v := by
  rcases slot_eq_or_node hp hq hslot with rfl | ⟨addr, i, j, hij, rfl, rfl⟩
  · exact ⟨fun _ => .inl rfl, fun _ => rfl⟩
  constructor
  · intro h
    have htable := congrArg (fun w : World K V D R => (w.tables addr).table) h
    simp only [World.store, World.setTable, Function.update_self] at htable
    exact .inr (load_of_setVal_eq hij htable)
  · rintro (h | ⟨hi, hj⟩)
    · rw [h]
    · have hT : (w'.tables addr).table.setVal i v = (w'.tables addr).table.setVal j v :=
        (setVal_of_val hi).trans (setVal_of_val hj).symm
      rw [World.store, World.store, hT]

/-- The write through the pointer is what `Set` does exactly when the slot lasts. -/
theorem slotLasts_iff {w' : World K V D R} {v : V} (himm : self.immutable = false)
    (hp : slot vm self key w = some p) :
    SlotLasts vm self key v w' p ↔ w'.HasSlot p ∧ set vm self key v w' = (.ok (), w'.store p v) := by
  constructor
  · intro h
    cases h with
    | same h => exact ⟨hasSlot_of_slot h, set_of_slot himm h v⟩
    | written q hq hslot hvp hvq =>
      refine ⟨hslot, ?_⟩
      rw [set_of_slot himm hq, (store_eq_iff hp hq hslot).mpr (.inr ⟨hvp, hvq⟩)]
    | fallBack hnone hslot hset => exact ⟨hslot, hset⟩
  · rintro ⟨hslot, hset⟩
    cases hq : slot vm self key w' with
    | none => exact .fallBack hq hslot hset
    | some q =>
      rw [set_of_slot himm hq, Prod.mk.injEq] at hset
      rcases (store_eq_iff hp hq hslot).mp hset.2.symm with rfl | ⟨hvp, hvq⟩
      · exact .same hq
      · exact .written q hq hslot hvp hvq

/-! ## The assignments -/

section Assignments

variable {op : Nat} {incr : V} {postfixOp : Bool}

/-- On an immutable container the second way ends in the same error, if in no other. -/
theorem derefInc_immutable_iff (himm : self.immutable = true) :
    derefInc vm op self key incr postfixOp w = readComputeWrite vm op self key incr postfixOp w ↔
      QuietRead vm op self key incr w := by
  rw [derefInc, if_pos himm, readComputeWrite, QuietRead]
  cases get vm self key w with
  | mk read w₁ =>
    cases read with
    | error err =>
      simp only [Outcome.error.injEq]
      exact and_congr eq_comm eq_comm
    | ok tmp =>
      dsimp only
      cases vm.arithOp op tmp incr w₁ with
      | mk res w₂ =>
        cases res with
        | error err =>
          simp only [Outcome.error.injEq]
          exact and_congr eq_comm eq_comm
        | ok target =>
          simp only [set, if_pos himm, Outcome.error.injEq, true_and]
          exact eq_comm

/-- Where nothing was found, the source calls `Get` and `Set` itself. -/
theorem derefInc_of_none (himm : self.immutable = false)
    (hp : instanceValue vm self key w = none) :
    derefInc vm op self key incr postfixOp w
      = readComputeWrite vm op self key incr postfixOp w := by
  cases hnative : nativeField vm self key with
  | some found => exact derefInc_of_nativeField himm hnative
  | none =>
    rw [derefInc, if_neg (himm ▸ Bool.false_ne_true), hnative, hp]
    rfl

/-- The found slot is not the slot of the key: the index is not one of the array. -/
theorem derefInc_beside_iff (himm : self.immutable = false)
    (hp : instanceValue vm self key w = some p) (hslot : slot vm self key w = none) :
    derefInc vm op self key incr postfixOp w = readComputeWrite vm op self key incr postfixOp w ↔
      match vm.arithOp op (realval vm (w.load vm p)) incr w with
      | (.error err, w₁) => err = vm.idxError key ∧ w₁ = w
      | (.ok _, _) => False := by
  rw [derefInc, if_neg (himm ▸ Bool.false_ne_true), nativeField_eq_none hp, hp, readComputeWrite,
    get_of_no_slot hp hslot]
  dsimp only
  cases vm.arithOp op (realval vm (w.load vm p)) incr w with
  | mk res w₁ =>
    cases res with
    | error err => simp only [Outcome.error.injEq]
    | ok target =>
      -- A value, or a write to freed memory, against an error.
      dsimp only
      rw [iff_false]
      split <;> exact nofun

/-- The found slot is the slot of the key. -/
theorem derefInc_found_iff (himm : self.immutable = false)
    (hslot : slot vm self key w = some p) :
    derefInc vm op self key incr postfixOp w = readComputeWrite vm op self key incr postfixOp w ↔
      match vm.arithOp op (realval vm (w.load vm p)) incr w with
      | (.error _, _) => True
      | (.ok target, w₁) => SlotLasts vm self key target w₁ p := by
  have hp := instanceValue_of_slot hslot
  rw [derefInc, if_neg (himm ▸ Bool.false_ne_true), nativeField_eq_none hp, hp, readComputeWrite,
    get_of_slot himm hslot]
  dsimp only
  cases vm.arithOp op (realval vm (w.load vm p)) incr w with
  | mk res w₁ =>
    cases res with
    | error err => simp only
    | ok target =>
      dsimp only
      rw [slotLasts_iff himm hslot]
      cases hset : set vm self key target w₁ with
      | mk written w₂ =>
        by_cases hhas : w₁.HasSlot p
        · rw [if_pos hhas]
          cases written with
          | error err =>
            simp only [reduceCtorEq, false_iff, not_and, Prod.mk.injEq, false_and, not_false_eq_true,
              implies_true]
          | ok _ =>
            simp only [Outcome.value.injEq, true_and, hhas, Prod.mk.injEq]
            exact eq_comm
        · rw [if_neg hhas]
          cases written <;> exact ⟨nofun, fun h => absurd h.1 hhas⟩

/-- `DerefInc` does what `Get`, `ARITH_OP` and `Set` do exactly when the slot that it found
is the slot of the key, before the arithmetic and after it. -/
theorem derefInc_eq_iff (op : Nat) (self : Self O) (key : K) (incr : V) (postfixOp : Bool)
    (w : World K V D R) :
    derefInc vm op self key incr postfixOp w = readComputeWrite vm op self key incr postfixOp w ↔
      Settled vm op self key incr w := by
  unfold Settled
  cases himm : self.immutable with
  | true =>
    rw [if_pos rfl]
    exact derefInc_immutable_iff himm
  | false =>
    rw [if_neg Bool.false_ne_true]
    cases hp : instanceValue vm self key w with
    | none => exact iff_of_true (derefInc_of_none himm hp) trivial
    | some p =>
      cases hslot : slot vm self key w with
      | none =>
        rw [derefInc_beside_iff himm hp hslot]
        dsimp only
        split
        · simp only [forall_const]
        · simp only [ne_eq, not_true_eq_false, false_and]
      | some q =>
        cases (instanceValue_of_slot hslot).symm.trans hp
        rw [derefInc_found_iff himm hslot]
        dsimp only
        split
        · simp only [reduceCtorEq, false_implies]
        · simp only [ne_eq, reduceCtorEq, not_false_eq_true, true_and]

/-- Arithmetic on numbers runs no metamethod: only the index of an array can differ. -/
theorem derefInc_eq_of_quiet_arith (himm : self.immutable = false)
    (hindex : instanceValue vm self key w = slot vm self key w)
    (harith : ∀ tmp res w₁, vm.arithOp op tmp incr w = (res, w₁) → w₁ = w) :
    derefInc vm op self key incr postfixOp w
      = readComputeWrite vm op self key incr postfixOp w := by
  cases hslot : slot vm self key w with
  | none => exact derefInc_of_none himm (hindex.trans hslot)
  | some p =>
    rw [derefInc_found_iff himm hslot]
    split
    · trivial
    case h_2 target w₁ hres =>
      cases harith _ _ _ hres
      exact .same hslot

end Assignments

/-! ## An index beyond 32 bits -/

/-- Integers as keys and values, and arithmetic that adds. -/
def adder : Vm (BitVec 64) Int Unit Unit Unit String where
  tableOps := ⟨BitVec.toNat, fun _ => none, 0, id⟩
  classOps := {
    null := 0, realval := id, setImmutable := id, isClosure := fun _ => false,
    isNativeClosure := fun _ => false, cloneWithBase := fun _ v => v,
    getMetaMethodIdxByName := fun _ => none, isConstructorStr := fun _ => false,
    instanceHeader := fun _ => 0, getNativeField := fun _ _ => 0,
    setNativeField := fun _ _ _ => none }
  realval_eq := rfl
  classes _ := ⟨none, ∅, [], [], [], fun _ => 0, none, 0, 0⟩
  tointeger k := some k
  arithOp _ a b w := (.ok (a + b), w)
  fallBackGet _ _ w := (.noMatch, w)
  fallBackSet _ _ _ w := (.noMatch, w)
  getOther _ _ _ := .noMatch
  typeMethod _ _ _ := none
  immutableError _ := "trying to modify immutable 'array'"
  idxError _ := "the index does not exist"
  indexingError _ _ := "indexing array with integer"
  settingError _ := "trying to set 'null'"
  nativeFieldError := "type mismatch in native field assignment"

/-- `[10]` -/
def oneElement : World (BitVec 64) Int Unit Unit where
  tables _ := ⟨⟨0, fun _ => ⟨0, none, none⟩, 0, 0, 0, []⟩, 0⟩
  arrays _ := ⟨[10], 0, by decide⟩
  instances _ := ⟨0, 0, [], ()⟩
  rest := ()

/-- `a[4294967296] += 1` adds to the first element, where `a[4294967296]` is an index error. -/
theorem truncated_index : derefInc adder 0 ⟨.array 0, false⟩ 0x100000000#64 1 false oneElement
    ≠ readComputeWrite adder 0 ⟨.array 0, false⟩ 0x100000000#64 1 false oneElement := by
  have hderef : derefInc adder 0 ⟨.array 0, false⟩ 0x100000000#64 1 false oneElement
      = .value 11 (oneElement.setElement 0 0 11) := rfl
  have hread : readComputeWrite adder 0 ⟨.array 0, false⟩ 0x100000000#64 1 false oneElement
      = .error "the index does not exist" oneElement := rfl
  rw [hderef, hread]
  exact nofun

end Quirrel.DerefInc
