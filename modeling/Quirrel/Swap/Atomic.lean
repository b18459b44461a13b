import Quirrel.Class.Placed
import Quirrel.Swap.Basic
import Quirrel.Table.FiniteMap

/-!
# When `swap` is atomic

On an array and on an instance that lacks a key, `swap` raises an error and changes nothing. On a
table that lacks a key it goes on after it has set the error, and stores null. Where it stores, it
stores what reading gave: a weak reference is read through, and `SQInstance::Set` refuses a method
and converts a number for a native field. `swap_atomic_iff` says exactly when none of this happens.
-/

set_option autoImplicit false

namespace Quirrel.Swap

open Quirrel.Lib

universe u

variable {K V : Type u} [DecidableEq K] (ops : Ops K V)

/-- The call raised an error and left the container, or it exchanged the values of two slots. -/
def AtomicSwap (o : Container K V) (key1 key2 : K) (r : Result K V) : Prop :=
  (r.ret < 0 ∧ r.container = o) ∨
    (0 ≤ r.ret ∧ (o.slot ops key1).isSome ∧ (o.slot ops key2).isSome ∧
      ∀ k, r.container.slot ops k = o.slot ops (Equiv.swap key1 key2 k))

/-- Member `dst` can take the value of member `src` and then has just this value. A field takes what
reading `src` gives, so this must be what `src` stores. A native field takes what its type can hold.
A value that is refused must be the one that `dst` has. -/
def Accepts (i : Class.SQInstance V ByteMemory) (c : Class.SQClass K V) (src dst : Nat) : Prop :=
  if Class.isField dst then i.getMember ops.classOps c src = memberValue ops i c src
  else if Class.isNativeField dst then
    match c.nativefields[Class.memberIdx dst]? with
    | none => memberValue ops i c dst = memberValue ops i c src
    | some desc =>
      match desc.encode ops.scalarOps (i.getMember ops.classOps c src) with
      | some bs => desc.decode ops.scalarOps ops.baseOps bs = memberValue ops i c src
      | none => memberValue ops i c dst = memberValue ops i c src
  else memberValue ops i c dst = memberValue ops i c src

/-- What `swap` needs to exchange the values of two slots: in a table both keys, and no weak
reference in their slots; in an instance that has both keys, members that take each other's value. -/
def Swappable (o : Container K V) (key1 key2 : K) : Prop :=
  match o with
  | .table _ => ∃ v1 v2, o.slot ops key1 = some v1 ∧ o.slot ops key2 = some v2 ∧
      ops.tableOps.realval v1 = v1 ∧ ops.tableOps.realval v2 = v2
  | .instance i c => ∀ idx1 idx2, c.members.lookup key1 = some idx1 →
      c.members.lookup key2 = some idx2 → Accepts ops i c idx2 idx1 ∧ Accepts ops i c idx1 idx2
  | .array _ | .other => False

/-! ## Two stores -/

section Stores

variable {α : Type u} {f : K → Option α} {k1 k2 : K} {v1 v2 w1 w2 : α}

/-- Two stores one after the other exchange two values only if they store these values. -/
theorem update_eq_swap_iff (h1 : f k1 = some v1) (h2 : f k2 = some v2) (hsame : k1 = k2 → w1 = w2) :
    (∀ k, Function.update (Function.update f k1 (some w2)) k2 (some w1) k =
      f (Equiv.swap k1 k2 k)) ↔ w1 = v1 ∧ w2 = v2 := by
  constructor
  · intro h
    have hk2 : w1 = v1 := by
      have h2' := h k2
      rw [Function.update_self, Equiv.swap_apply_right, h1] at h2'
      exact Option.some.inj h2'
    refine ⟨hk2, ?_⟩
    by_cases heq : k1 = k2
    · rw [heq] at h1
      rw [← hsame heq, hk2]
      exact Option.some.inj (h1.symm.trans h2)
    · have h1' := h k1
      rw [Function.update_of_ne heq, Function.update_self, Equiv.swap_apply_left, h2] at h1'
      exact Option.some.inj h1'
  · rintro ⟨rfl, rfl⟩ k
    by_cases hk2 : k = k2
    · rw [hk2, Function.update_self, Equiv.swap_apply_right, h1]
    · rw [Function.update_of_ne hk2]
      by_cases hk1 : k = k1
      · rw [hk1, Function.update_self, Equiv.swap_apply_left, h2]
      · rw [Function.update_of_ne hk1, Equiv.swap_apply_of_ne_of_ne hk1 hk2]

end Stores

/-- A call that returned normally. -/
theorem atomicSwap_pushed_iff {o o' : Container K V} {key1 key2 : K} {e : Option String} {v1 v2 : V}
    (h1 : o.slot ops key1 = some v1) (h2 : o.slot ops key2 = some v2) :
    AtomicSwap ops o key1 key2 (pushed o' e) ↔
      ∀ k, o'.slot ops k = o.slot ops (Equiv.swap key1 key2 k) := by
  simp [AtomicSwap, pushed, h1, h2]

theorem atomicSwap_sqThrowerror (o : Container K V) (key1 key2 : K) (msg : String) :
    AtomicSwap ops o key1 key2 (sqThrowerror o msg) := by
  left
  exact ⟨show (-1 : Int) < 0 by decide, rfl⟩

/-! ## Arrays -/

section Arrays

omit [DecidableEq K] in
theorem getElem?_swapValues {values : List V} {k1 k2 : Nat} (h1 : k1 < values.length)
    (h2 : k2 < values.length) (k : Nat) :
    (swapValues values k1 k2)[k]? = values[Equiv.swap k1 k2 k]? := by
  simp only [swapValues, List.getElem?_eq_getElem h1, List.getElem?_eq_getElem h2]
  by_cases hk2 : k = k2
  · rw [hk2, Equiv.swap_apply_right, List.getElem?_set_self (by rwa [List.length_set]),
      List.getElem?_eq_getElem h1]
  · rw [List.getElem?_set_ne (Ne.symm hk2)]
    by_cases hk1 : k = k1
    · rw [hk1, Equiv.swap_apply_left, List.getElem?_set_self h1, List.getElem?_eq_getElem h2]
    · rw [List.getElem?_set_ne (Ne.symm hk1), Equiv.swap_apply_of_ne_of_ne hk1 hk2]

omit [DecidableEq K] in
/-- On an array `swap` raises an error and changes nothing, or it exchanges two stored values. -/
theorem swapArray_atomic (values : List V) (key1 key2 : K) :
    (∃ msg, swapArray ops values key1 key2 = sqThrowerror (.array values) msg) ∨
      ∃ k1 k2 values', swapArray ops values key1 key2 = pushed (.array values') none ∧
        k1 < values.length ∧ k2 < values.length ∧
        ∀ k : Nat, values'[k]? = values[Equiv.swap k1 k2 k]? := by
  simp only [swapArray]
  split
  · exact Or.inl ⟨_, rfl⟩
  · split
    · exact Or.inl ⟨_, rfl⟩
    · rename_i hrange
      right
      have h1 : (arrayIndex ops values.length key1).toNat < values.length := by omega
      have h2 : (arrayIndex ops values.length key2).toNat < values.length := by omega
      exact ⟨_, _, _, rfl, h1, h2, getElem?_swapValues h1 h2⟩

end Arrays

/-! ## Tables -/

section Tables

variable {ops} {t : Table.SQTable K V} {m : Finmap fun _ : K => V}

theorem slot_table (R : Table.Represents ops.tableOps t m) (k : K) :
    (Container.table t).slot ops k = m.lookup k := by
  rcases Table.getNode_cases R.wf k with ⟨n, hn, hg⟩ | ⟨hnew, hg⟩
  · have hv : m.lookup k = some (t.valAt n) := R.holds.1 ⟨n, hn, rfl⟩
    rw [Container.slot, hg, hv]
    rfl
  · have hk : m.lookup k = none := Finmap.lookup_eq_none.2 (R.stores.not_mem_iff.2 hnew)
    rw [Container.slot, hg, hk]
    rfl

theorem readBoth_of_represents (R : Table.Represents ops.tableOps t m) (key1 key2 : K) :
    ∃ val1 val2 missing, readBoth ops t key1 key2 = some (val1, val2, missing) ∧
      ∀ v1 v2, m.lookup key1 = some v1 → m.lookup key2 = some v2 →
        val1 = ops.tableOps.realval v1 ∧ val2 = ops.tableOps.realval v2 := by
  rw [readBoth, Table.get_eq_lookup R, Table.get_eq_lookup R]
  cases h1 : m.lookup key1 with
  | none => exact ⟨_, _, _, rfl, nofun⟩
  | some v1 =>
    cases h2 : m.lookup key2 with
    | none => exact ⟨_, _, _, rfl, nofun⟩
    | some v2 =>
      refine ⟨_, _, _, rfl, ?_⟩
      rintro v1' v2' ⟨⟩ ⟨⟩
      exact ⟨rfl, rfl⟩

/-- A store to a key of the table. -/
theorem slot_set (R : Table.Represents ops.tableOps t m) {key : K} (hkey : key ∈ m) {val : V}
    {t' : Table.SQTable K V}
    (R' : Table.Represents ops.tableOps t' (if key ∈ m then m.insert key val else m)) (k : K) :
    (Container.table t').slot ops k =
      Function.update ((Container.table t).slot ops) key (some val) k := by
  rw [if_pos hkey] at R'
  rw [slot_table R']
  by_cases hk : k = key
  · rw [hk, Finmap.lookup_insert, Function.update_self]
  · rw [Finmap.lookup_insert_of_ne _ hk, Function.update_of_ne hk, slot_table R]

theorem swapTable_of_represents (R : Table.Represents ops.tableOps t m) (key1 key2 : K) :
    ∃ t' e, swapTable ops t key1 key2 = some (pushed (.table t') e) ∧
      ∀ v1 v2, m.lookup key1 = some v1 → m.lookup key2 = some v2 → ∀ k,
        (Container.table t').slot ops k = Function.update (Function.update
          ((Container.table t).slot ops) key1 (some (ops.tableOps.realval v2)))
          key2 (some (ops.tableOps.realval v1)) k := by
  obtain ⟨val1, val2, missing, hread, hvals⟩ := readBoth_of_represents R key1 key2
  obtain ⟨t1, hset1, R1⟩ := Table.set_represents R key1 val2
  obtain ⟨t2, hset2, R2⟩ := Table.set_represents R1 key2 val1
  refine ⟨t2, if missing then some "the index doesn't exist" else none, ?_, ?_⟩
  · rw [swapTable, hread]
    simp only [Option.bind_eq_bind, Option.bind_some, hset1, hset2]
  · intro v1 v2 h1 h2 k
    obtain ⟨rfl, rfl⟩ := hvals v1 v2 h1 h2
    have hkey1 : key1 ∈ m := Finmap.mem_iff.2 ⟨v1, h1⟩
    have hkey2 : key2 ∈ if key1 ∈ m then m.insert key1 (ops.tableOps.realval v2) else m := by
      rw [if_pos hkey1]
      exact Finmap.mem_insert.2 (Or.inr (Finmap.mem_iff.2 ⟨v2, h2⟩))
    rw [slot_set R1 hkey2 R2, funext (slot_set R hkey1 R1)]

/-- **Tables**: `swap` is atomic only if both keys are there and no slot has a weak reference. -/
theorem swapTable_atomic_iff (R : Table.Represents ops.tableOps t m) (key1 key2 : K) :
    ∃ r, swapTable ops t key1 key2 = some r ∧
      (AtomicSwap ops (.table t) key1 key2 r ↔ Swappable ops (.table t) key1 key2) := by
  obtain ⟨t', e, hswap, hslots⟩ := swapTable_of_represents R key1 key2
  refine ⟨_, hswap, ?_⟩
  cases h1 : (Container.table t).slot ops key1 with
  | none => simp [AtomicSwap, Swappable, pushed, h1]
  | some v1 =>
    cases h2 : (Container.table t).slot ops key2 with
    | none => simp [AtomicSwap, Swappable, pushed, h2]
    | some v2 =>
      have hm1 : m.lookup key1 = some v1 := by rw [← slot_table R, h1]
      have hm2 : m.lookup key2 = some v2 := by rw [← slot_table R, h2]
      have hsame : key1 = key2 → ops.tableOps.realval v1 = ops.tableOps.realval v2 := by
        rintro rfl
        rw [Option.some.inj (h1.symm.trans h2)]
      rw [atomicSwap_pushed_iff ops h1 h2]
      simp only [hslots v1 v2 hm1 hm2]
      rw [update_eq_swap_iff h1 h2 hsame]
      simp [Swappable, h1, h2]

end Tables

/-! ## Instances -/

section Instances

variable {ops} {i : Class.SQInstance V ByteMemory} {c : Class.SQClass K V}

/-- If the member is a native field, no other native field of the class shares a byte with it. -/
def OwnBytes (c : Class.SQClass K V) (idx : Nat) : Prop :=
  Class.isNativeField idx = true → ∀ key idx' d d', c.members.lookup key = some idx' →
    idx' ≠ idx → Class.isNativeField idx' = true →
    c.nativefields[Class.memberIdx idx]? = some d → c.nativefields[Class.memberIdx idx']? = some d' →
    d.Apart d'

/-- What the member has after a store. -/
def kept (ops : Ops K V) (i : Class.SQInstance V ByteMemory) (c : Class.SQClass K V) (idx : Nat)
    (val : V) : V :=
  if Class.isField idx then val
  else if Class.isNativeField idx then
    match c.nativefields[Class.memberIdx idx]? with
    | none => memberValue ops i c idx
    | some desc =>
      match desc.encode ops.scalarOps val with
      | some bs => desc.decode ops.scalarOps ops.baseOps bs
      | none => memberValue ops i c idx
  else memberValue ops i c idx

omit [DecidableEq K] in
theorem accepts_iff (src dst : Nat) : Accepts ops i c src dst ↔
    kept ops i c dst (i.getMember ops.classOps c src) = memberValue ops i c src := by
  rw [Accepts, kept]
  split
  · rfl
  · split
    · split
      · rfl
      · split <;> rfl
    · rfl

omit [DecidableEq K] in
theorem memberValue_of_field {idx : Nat} (h : Class.isField idx = true) :
    memberValue ops i c idx = i.values.getD (Class.memberIdx idx) ops.classOps.null :=
  if_pos h

omit [DecidableEq K] in
theorem memberValue_of_native {idx : Nat} (hf : Class.isField idx = false)
    (hn : Class.isNativeField idx = true) {desc : Class.NativeFieldDesc}
    (hdesc : c.nativefields[Class.memberIdx idx]? = some desc) :
    memberValue ops i c idx = ops.classOps.getNativeField desc i.inlineud := by
  simp [memberValue, Class.SQInstance.getMember, hf, hn, hdesc]

omit [DecidableEq K] in
omit [DecidableEq K] in
/-- A store to the values leaves what is not a field. -/
theorem memberValue_setMemberField_of_not_field {idx idx' : Nat} {val : V}
    (hf : Class.isField idx' = false) :
    memberValue ops (i.setMemberField idx val) c idx' = memberValue ops i c idx' := by
  simp [memberValue, Class.SQInstance.getMember, Class.SQInstance.setMemberField, hf]

omit [DecidableEq K] in
/-- A store to the userdata leaves what is not a native field. -/
theorem memberValue_inlineud_of_not_native {idx' : Nat} {ud : ByteMemory}
    (hn : Class.isNativeField idx' = false) :
    memberValue ops { i with inlineud := ud } c idx' = memberValue ops i c idx' := by
  simp [memberValue, Class.SQInstance.getMember, hn]

/-- What `Set` does to the slots of an instance. -/
theorem slot_instanceSet (hplaced : c.Placed) (hlen : i.values.length = c.defaultvalues.length)
    {key : K} {idx : Nat} (hidx : c.members.lookup key = some idx) (hown : OwnBytes c idx) (val : V)
    (k : K) :
    (Container.instance (instanceSet ops i c key val).1 c).slot ops k =
      Function.update ((Container.instance i c).slot ops) key (some (kept ops i c idx val)) k := by
  have hplace := hplaced.place key idx hidx
  -- The same member, or one with an index of its own.
  have hupdate : ∀ i', memberValue ops i' c idx = kept ops i c idx val →
      (∀ k' idx', c.members.lookup k' = some idx' → idx' ≠ idx →
        memberValue ops i' c idx' = memberValue ops i c idx') →
      (Container.instance i' c).slot ops k =
        Function.update ((Container.instance i c).slot ops) key (some (kept ops i c idx val)) k := by
    intro i' hself hother
    by_cases hk : k = key
    · rw [hk, Function.update_self, Container.slot, hidx, Option.map_some, hself]
    · rw [Function.update_of_ne hk, Container.slot, Container.slot]
      cases hidx' : c.members.lookup k with
      | none => rfl
      | some idx' =>
        have hne : idx' ≠ idx := by
          rintro rfl
          exact hk (hplaced.distinct k key _ hidx' hidx)
        rw [Option.map_some, Option.map_some, hother k idx' hidx' hne]
  simp only [instanceSet, hidx]
  cases hf : Class.isField idx with
  | true =>
    simp only [if_true]
    apply hupdate
    · have hpos : Class.memberIdx idx < i.values.length := hlen ▸ hplace.position_lt.1 hf
      simp [memberValue_of_field hf, kept, hf, Class.SQInstance.setMemberField, hpos]
    · intro k' idx' hidx' hne
      cases hf' : Class.isField idx' with
      | false => exact memberValue_setMemberField_of_not_field hf'
      | true =>
        have hpos : Class.memberIdx idx ≠ Class.memberIdx idx' := fun heq =>
          hne (hplace.field_eq (hplaced.place k' idx' hidx') hf hf' heq).symm
        simp [memberValue_of_field hf', Class.SQInstance.setMemberField, List.getElem?_set_ne hpos]
  | false =>
    simp only [Bool.false_eq_true, if_false]
    cases hn : Class.isNativeField idx with
    | false =>
      simp only [Bool.false_eq_true, if_false]
      apply hupdate
      · simp [kept, hf, hn]
      · exact fun _ _ _ _ => rfl
    | true =>
      simp only [if_true]
      have hpos := hplace.position_lt.2.1 hn
      have hdesc := List.getElem?_eq_getElem hpos
      generalize hd : c.nativefields[Class.memberIdx idx] = desc at hdesc
      cases henc : desc.encode ops.scalarOps val with
      | none =>
        have hset : i.setNativeField ops.classOps c (Class.memberIdx idx) val = none := by
          simp [Class.SQInstance.setNativeField, hdesc, Ops.classOps, Class.nativeOps, henc]
        rw [hset]
        apply hupdate
        · simp [kept, hf, hn, hdesc, henc]
        · exact fun _ _ _ _ => rfl
      | some bs =>
        have hset : i.setNativeField ops.classOps c (Class.memberIdx idx) val =
            some { i with inlineud := writeBytes i.inlineud desc.offset bs } := by
          simp [Class.SQInstance.setNativeField, hdesc, Ops.classOps, Class.nativeOps, henc]
        rw [hset]
        apply hupdate
        · rw [memberValue_of_native hf hn hdesc]
          simp only [kept, hf, hn, hdesc, henc]
          exact Class.nativeOps_get_set _ _ henc
        · intro k' idx' hidx' hne
          cases hn' : Class.isNativeField idx' with
          | false => exact memberValue_inlineud_of_not_native hn'
          | true =>
            have hpos' := (hplaced.place k' idx' hidx').position_lt.2.1 hn'
            have hdesc' := List.getElem?_eq_getElem hpos'
            have hf' : Class.isField idx' = false := by
              cases hf' : Class.isField idx' with
              | false => rfl
              | true =>
                simp only [Class.isField, Class.isNativeField, beq_iff_eq] at hf' hn'
                exact absurd (hf'.symm.trans hn') (by decide)
            rw [memberValue_of_native hf' hn' hdesc', memberValue_of_native hf' hn' hdesc']
            exact Class.nativeOps_get_set_of_apart _ _ henc
              (hown hn k' idx' desc _ hidx' hne hn' hdesc hdesc')

omit [DecidableEq K] in
/-- What a member has after a store depends on the instance only through what it had. -/
theorem kept_congr {i' : Class.SQInstance V ByteMemory} {idx : Nat} {val : V}
    (h : memberValue ops i' c idx = memberValue ops i c idx) :
    kept ops i' c idx val = kept ops i c idx val := by
  rw [kept, kept, h]

omit [DecidableEq K] in
/-- The same value stored once more. -/
theorem kept_kept {i' : Class.SQInstance V ByteMemory} {idx : Nat} {val : V}
    (h : memberValue ops i' c idx = kept ops i c idx val) :
    kept ops i' c idx val = kept ops i c idx val := by
  simp only [kept] at h ⊢
  rw [h]
  split
  · rfl
  · split
    · cases c.nativefields[Class.memberIdx idx]? with
      | none => rfl
      | some desc => cases henc : desc.encode ops.scalarOps val <;> simp only [henc]
    · rfl

theorem length_instanceSet (key : K) (val : V) :
    (instanceSet ops i c key val).1.values.length = i.values.length := by
  rw [instanceSet]
  cases c.members.lookup key with
  | none => rfl
  | some idx =>
    simp only
    split
    · exact List.length_set
    · split
      · cases hset : i.setNativeField ops.classOps c (Class.memberIdx idx) val with
        | none => rfl
        | some i' =>
          obtain ⟨-, -, hvalues⟩ := Class.setNativeField_block hset
          exact congrArg List.length hvalues
      · rfl

/-- The second store meets the member as if the first had not been, or makes the same store. -/
theorem kept_instanceSet (hplaced : c.Placed) (hlen : i.values.length = c.defaultvalues.length)
    {key1 key2 : K} {idx1 idx2 : Nat} (h1 : c.members.lookup key1 = some idx1)
    (h2 : c.members.lookup key2 = some idx2) (hown : OwnBytes c idx1) {val1 val2 : V}
    (hsame : key1 = key2 → val1 = val2) :
    kept ops (instanceSet ops i c key1 val2).1 c idx2 val1 = kept ops i c idx2 val1 := by
  have hslot : (Container.instance (instanceSet ops i c key1 val2).1 c).slot ops key2 = _ :=
    slot_instanceSet hplaced hlen h1 hown val2 key2
  rw [Container.slot, h2, Option.map_some] at hslot
  by_cases heq : key1 = key2
  · obtain rfl : idx1 = idx2 := Option.some.inj (h1.symm.trans (heq ▸ h2))
    rw [heq, Function.update_self] at hslot
    rw [hsame heq, heq]
    exact kept_kept (Option.some.inj hslot)
  · rw [Function.update_of_ne (Ne.symm heq), Container.slot, h2, Option.map_some] at hslot
    exact kept_congr (Option.some.inj hslot)

/-- **Instances**: `swap` is atomic only if a key is missing or each member takes the other's value.
-/
theorem swapInstance_atomic_iff (hplaced : c.Placed)
    (hlen : i.values.length = c.defaultvalues.length) {key1 key2 : K}
    (hown : ∀ idx1 idx2, c.members.lookup key1 = some idx1 → c.members.lookup key2 = some idx2 →
      OwnBytes c idx1 ∧ OwnBytes c idx2) :
    AtomicSwap ops (.instance i c) key1 key2 (swapInstance ops i c key1 key2) ↔
      Swappable ops (.instance i c) key1 key2 := by
  -- a key that is missing raises before anything is written
  cases h1 : c.members.lookup key1 with
  | none =>
    simp only [swapInstance, instanceGet, h1, Option.map_none, Swappable]
    exact ⟨fun _ => nofun, fun _ => atomicSwap_sqThrowerror _ _ _ _ _⟩
  | some idx1 =>
    cases h2 : c.members.lookup key2 with
    | none =>
      simp only [swapInstance, instanceGet, h1, h2, Option.map_none, Option.map_some, Swappable]
      exact ⟨fun _ _ _ _ => nofun, fun _ => atomicSwap_sqThrowerror _ _ _ _ _⟩
    | some idx2 =>
      obtain ⟨hown1, hown2⟩ := hown idx1 idx2 h1 h2
      let val1 := i.getMember ops.classOps c idx1
      let val2 := i.getMember ops.classOps c idx2
      have hval : key1 = key2 → val1 = val2 := by
        intro heq
        obtain rfl : idx1 = idx2 := Option.some.inj (h1.symm.trans (heq ▸ h2))
        rfl
      have hslot1 : (Container.instance i c).slot ops key1 = some (memberValue ops i c idx1) := by
        rw [Container.slot, h1, Option.map_some]
      have hslot2 : (Container.instance i c).slot ops key2 = some (memberValue ops i c idx2) := by
        rw [Container.slot, h2, Option.map_some]
      have hswap : swapInstance ops i c key1 key2 = pushed (.instance (instanceSet ops
          (instanceSet ops i c key1 val2).1 c key2 val1).1 c) none := by
        simp only [swapInstance, instanceGet, h1, h2, Option.map_some, val1, val2]
      have hlen1 : (instanceSet ops i c key1 val2).1.values.length = c.defaultvalues.length :=
        (length_instanceSet key1 val2).trans hlen
      -- what the two stores leave in each slot
      have hslots : ∀ k, (Container.instance (instanceSet ops (instanceSet ops i c key1 val2).1 c
          key2 val1).1 c).slot ops k = Function.update (Function.update
            ((Container.instance i c).slot ops) key1 (some (kept ops i c idx1 val2)))
            key2 (some (kept ops i c idx2 val1)) k := by
        intro k
        rw [slot_instanceSet hplaced hlen1 h2 hown2,
          kept_instanceSet hplaced hlen h1 h2 hown1 hval,
          funext (slot_instanceSet hplaced hlen h1 hown1 val2)]
      -- under one key for both, the second store leaves what the first one did
      have hkept : key1 = key2 → kept ops i c idx2 val1 = kept ops i c idx1 val2 := by
        intro heq
        obtain rfl : idx1 = idx2 := Option.some.inj (h1.symm.trans (heq ▸ h2))
        rfl
      rw [hswap, atomicSwap_pushed_iff ops hslot1 hslot2]
      simp only [hslots]
      rw [update_eq_swap_iff hslot1 hslot2 hkept, ← accepts_iff, ← accepts_iff, and_comm]
      constructor
      · rintro ⟨ha, hb⟩ j1 j2 hj1 hj2
        obtain rfl : idx1 = j1 := Option.some.inj (h1.symm.trans hj1)
        obtain rfl : idx2 = j2 := Option.some.inj (h2.symm.trans hj2)
        exact ⟨ha, hb⟩
      · exact fun h => h idx1 idx2 h1 h2

end Instances

/-! ## The native -/

/-- A container that a run reaches: a table after operations on a new one, or a live instance. -/
inductive Reached : Container K V → Prop
  | tableRun {depth : Nat} {nInitialSize : Int} {tableOps : List (Table.TableOp K V)}
      {t : Table.SQTable K V}
      (hrun : Table.runOps ops.tableOps (depth + 2) nInitialSize tableOps = some t) :
      Reached (.table t)
  | liveInstance {sites : Nat → Class.Site K} {s : Class.State K V ByteMemory} {inst : Nat}
      {i : Class.SQInstance V ByteMemory} {c : Class.SQClass K V}
      (hrun : Class.RunOf ops.classOps sites (fun _ _ => True) s)
      (hi : s.heap.instances inst = some i) (hc : s.heap.classes i.cls = some c) :
      Reached (.instance i c)

/-- If both keys are members of an instance, neither is a native field that shares a byte with
another one. -/
def Separate (o : Container K V) (key1 key2 : K) : Prop :=
  match o with
  | .instance _ c => ∀ idx1 idx2, c.members.lookup key1 = some idx1 →
      c.members.lookup key2 = some idx2 → OwnBytes c idx1 ∧ OwnBytes c idx2
  | .table _ | .array _ | .other => True

variable {ops}

/-- **`swap` is atomic** on an immutable container and, while native fields are separate, exactly on
keys that can be swapped. -/
theorem swap_atomic_iff {o : Container K V} (ho : Reached ops o) (immutable : Bool)
    (key1 key2 : K) :
    ∃ r, swap ops immutable o key1 key2 = some r ∧
      (immutable = true → AtomicSwap ops o key1 key2 r) ∧
      (Separate o key1 key2 → (AtomicSwap ops o key1 key2 r ↔
        immutable = true ∨ Swappable ops o key1 key2)) := by
  cases immutable with
  | true =>
    have hatomic := atomicSwap_sqThrowerror ops o key1 key2 "Cannot modify immutable object"
    exact ⟨_, rfl, fun _ => hatomic, fun _ => ⟨fun _ => Or.inl rfl, fun _ => hatomic⟩⟩
  | false =>
    have hlift : ∀ {p : Prop}, (false = true ∨ p) ↔ p := by simp
    cases ho with
    | @tableRun depth nInitialSize tableOps t hrun =>
      obtain ⟨t', hrun', R⟩ := Table.runOps_represents depth nInitialSize tableOps
        (o := ops.tableOps)
      obtain rfl : t = t' := Option.some.inj (hrun.symm.trans hrun')
      obtain ⟨r, hswap, hiff⟩ := swapTable_atomic_iff R key1 key2
      exact ⟨r, hswap, nofun, fun _ => hiff.trans hlift.symm⟩
    | @liveInstance sites s inst i c hrun hi hc =>
      have hplaces := hrun.placesHold
      have hplaced := hplaces.placed _ c hc
      obtain ⟨d, hd, -, hlen⟩ := hplaces.values inst i hi
      obtain rfl : c = d := Option.some.inj (hc.symm.trans hd)
      refine ⟨_, rfl, nofun, ?_⟩
      intro hseparate
      rw [hlift]
      exact swapInstance_atomic_iff hplaced hlen hseparate

/-- Numbers as keys and as values, which are integers in native fields. -/
def numberOps : Ops Nat Nat where
  tableOps := { hashObj := id, stringAddr := fun _ => none, null := 0, realval := id }
  scalarOps :=
    { toScalar := fun n => some (.integer (.ofNat n))
      ofScalar := fun s => match s with
        | .integer n => n.toInt.toNat
        | .float _ => 0
        | .bool b => b.toNat }
  baseOps :=
    { null := 0, realval := id, setImmutable := id, isClosure := fun _ => false
      isNativeClosure := fun _ => false, cloneWithBase := fun _ => id
      getMetaMethodIdxByName := fun _ => none, isConstructorStr := fun _ => false
      instanceHeader := fun n => n
      getNativeField := fun _ _ => 0
      setNativeField := fun _ _ _ => none }
  isNumeric _ := true
  tointeger n := n

theorem swap_two_keys_atomic :
    ∃ t r, Table.runOps numberOps.tableOps 2 4 [.newSlot 1 10, .newSlot 2 20] = some t ∧
      swap numberOps false (.table t) 1 2 = some r ∧ AtomicSwap numberOps (.table t) 1 2 r := by
  obtain ⟨t, hrun, R⟩ := Table.runOps_represents (o := numberOps.tableOps) 0 4
    [.newSlot 1 10, .newSlot 2 20]
  have h1 : (Container.table t).slot numberOps 1 = some 10 := by
    rw [slot_table R]
    simp [Table.specOps, Table.specOp]
  have h2 : (Container.table t).slot numberOps 2 = some 20 := by
    rw [slot_table R]
    simp [Table.specOps, Table.specOp]
  obtain ⟨r, hswap, -, hiff⟩ := swap_atomic_iff (.tableRun hrun) false 1 2
  exact ⟨t, r, hrun, hswap, (hiff trivial).2 (Or.inr ⟨10, 20, h1, h2, rfl, rfl⟩)⟩

/-- `{[1] = 10}.swap(1, 2)` returns without an error, and the slot of 1 is null. -/
theorem swap_missing_key_not_atomic :
    ∃ t r, Table.runOps numberOps.tableOps 2 4 [.newSlot 1 10] = some t ∧
      swap numberOps false (.table t) 1 2 = some r ∧ r.ret = 1 ∧
      (Container.table t).slot numberOps 1 = some 10 ∧
      r.container.slot numberOps 1 = some numberOps.tableOps.null ∧
      ¬ AtomicSwap numberOps (.table t) 1 2 r := by
  have hall : (Table.runOps numberOps.tableOps 2 4 [.newSlot 1 10]).bind (fun t =>
      (swap numberOps false (.table t) 1 2).map fun r =>
        ((Container.table t).slot numberOps 1, (Container.table t).slot numberOps 2, r.ret,
          r.container.slot numberOps 1)) = some (some 10, none, 1, some 0) := by
    decide +kernel
  obtain ⟨t, hrun, hall⟩ := Option.bind_eq_some_iff.1 hall
  obtain ⟨r, hswap, hall⟩ := Option.map_eq_some_iff.1 hall
  simp only [Prod.mk.injEq] at hall
  obtain ⟨h1, h2, hret, hnull⟩ := hall
  refine ⟨t, r, hrun, hswap, hret, h1, hnull, ?_⟩
  rintro (⟨hneg, -⟩ | ⟨-, -, hsome, -⟩)
  · rw [hret] at hneg
    exact absurd hneg (by decide)
  · rw [h2] at hsome
    exact absurd hsome Bool.false_ne_true

end Quirrel.Swap
