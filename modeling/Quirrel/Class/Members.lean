import Mathlib.Data.Finset.Card
import Quirrel.Class.Basic

/-!
# The member table of a class

A stored member index has a kind and a position below `2 ^ 22`, so it is not zero and fits 24 bits
(`SQClass.WellFormed.idx_bounds`). Positions stay that small because a class never has more fields,
methods or native fields than members. Every operation on a class keeps this, and on a locked class
only an absent key can change its index (`lookup_newSlot_of_locked`).
-/

set_option autoImplicit false

namespace Quirrel.Class

universe u v w

variable {K : Type u} {V : Type v} {D : Type w}

/-! ## Kinds and positions -/

theorem and_eq_zero_of_lt {i : Nat} (hi : i < 2 ^ 22) (a : Nat) : i &&& a <<< 22 = 0 := by
  apply Nat.eq_of_testBit_eq
  intro j
  rw [Nat.testBit_and, Nat.testBit_shiftLeft, Nat.zero_testBit]
  rcases Nat.lt_or_ge j 22 with hj | hj
  · simp [Nat.not_le.2 hj]
  · have hbit : i.testBit j = false :=
      Nat.testBit_lt_two_pow (Nat.lt_of_lt_of_le hi (Nat.pow_le_pow_right (by decide) hj))
    simp [hbit]

/-- The kind bits of an index are those that were set. -/
theorem kind_or {i : Nat} (hi : i < 2 ^ 22) (a : Nat) :
    (a <<< 22 ||| i) &&& memberKindMask = a <<< 22 &&& memberKindMask := by
  rw [Nat.and_or_distrib_right, memberKindMask, and_eq_zero_of_lt hi, Nat.or_zero]

/-- The index of a field is one. -/
theorem isField_makeFieldIdx {i : Nat} (hi : i < 2 ^ 22) : isField (makeFieldIdx i) = true := by
  rw [isField, makeFieldIdx, memberTypeField, kind_or hi]
  rfl

/-- The index of a method is no field. -/
theorem not_field_makeMethodIdx {i : Nat} (hi : i < 2 ^ 22) :
    (isField (makeMethodIdx i) || isNativeField (makeMethodIdx i)) = false := by
  rw [isField, isNativeField, makeMethodIdx, memberTypeMethod, kind_or hi]
  rfl

/-- An index that a class may store. -/
inductive StoredIdx : Nat → Prop
  | field {i : Nat} (hi : i < 2 ^ 22) : StoredIdx (makeFieldIdx i)
  | method {i : Nat} (hi : i < 2 ^ 22) : StoredIdx (makeMethodIdx i)
  | nativeField {i : Nat} (hi : i < 2 ^ 22) : StoredIdx (makeNativeFieldIdx i)

theorem or_bounds {a i : Nat} (ha : 0 < a) (ha' : a < 4) (hi : i < 2 ^ 22) :
    0 < a <<< 22 ||| i ∧ a <<< 22 ||| i < 2 ^ 24 := by
  rw [← Nat.shiftLeft_add_eq_or_of_lt hi, Nat.shiftLeft_eq]
  omega

/-- A stored index is positive and below 2^24. -/
theorem StoredIdx.bounds {idx : Nat} (h : StoredIdx idx) : 0 < idx ∧ idx < 2 ^ 24 := by
  cases h with
  | field hi => exact or_bounds (by decide) (by decide) hi
  | method hi => exact or_bounds (by decide) (by decide) hi
  | nativeField hi => exact or_bounds (by decide) (by decide) hi

/-- Different fields have different indices. -/
theorem makeFieldIdx_inj {i j : Nat} (hi : i < 2 ^ 22) (hj : j < 2 ^ 22)
    (h : makeFieldIdx i = makeFieldIdx j) : i = j := by
  rw [makeFieldIdx, makeFieldIdx, memberTypeField, ← Nat.shiftLeft_add_eq_or_of_lt hi,
    ← Nat.shiftLeft_add_eq_or_of_lt hj] at h
  omega

/-! ## Well-formed classes -/

variable [DecidableEq K]

/-- What every class keeps: each field position belongs to a key, and there are at most as many
methods and native fields as members. -/
structure SQClass.WellFormed (c : SQClass K V) : Prop where
  stored : ∀ key idx, c.members.lookup key = some idx → StoredIdx idx
  fields : ∀ i, i < c.defaultvalues.length → ∃ key, c.members.lookup key = some (makeFieldIdx i)
  fields_le : c.defaultvalues.length ≤ memberMaxCount
  methods_le : c.methods.length ≤ c.countUsed
  nativefields_le : c.nativefields.length ≤ c.countUsed

/-- Distinct field positions belong to distinct keys. -/
theorem SQClass.WellFormed.fields_le_countUsed {c : SQClass K V} (h : c.WellFormed) :
    c.defaultvalues.length ≤ c.countUsed := by
  have hlt : ∀ i, i < c.defaultvalues.length → i < 2 ^ 22 := fun i hi =>
    Nat.lt_trans (Nat.lt_of_lt_of_le hi h.fields_le) (by decide)
  have hinj : Set.InjOn makeFieldIdx (Finset.range c.defaultvalues.length : Set Nat) := by
    intro i hi j hj hij
    exact makeFieldIdx_inj (hlt i (by simpa using hi)) (hlt j (by simpa using hj)) hij
  have hsub : (Finset.range c.defaultvalues.length).image makeFieldIdx
      ⊆ c.members.keys.image fun key => (c.members.lookup key).getD 0 := by
    intro idx hidx
    obtain ⟨i, hi, rfl⟩ := Finset.mem_image.1 hidx
    obtain ⟨key, hkey⟩ := h.fields i (Finset.mem_range.1 hi)
    apply Finset.mem_image.2
    refine ⟨key, ?_, by rw [hkey, Option.getD_some]⟩
    exact Finmap.mem_keys.2 (Finmap.lookup_isSome.1 (by rw [hkey]; rfl))
  calc c.defaultvalues.length
      = ((Finset.range c.defaultvalues.length).image makeFieldIdx).card := by
        rw [Finset.card_image_of_injOn hinj, Finset.card_range]
    _ ≤ (c.members.keys.image fun key => (c.members.lookup key).getD 0).card :=
        Finset.card_le_card hsub
    _ ≤ c.countUsed := Finset.card_image_le

variable (ops : ObjectOps K V D)

/-- A new class is well formed. -/
theorem wellFormed_create_none : (SQClass.create ops none : SQClass K V).WellFormed where
  stored key idx h := by simp [SQClass.create] at h
  fields i hi := by simp [SQClass.create] at hi
  fields_le := Nat.zero_le _
  methods_le := Nat.zero_le _
  nativefields_le := Nat.zero_le _

/-- A derived class is well formed when its base is. -/
theorem SQClass.WellFormed.create {b : SQClass K V} (h : b.WellFormed) (addr : Nat) :
    (SQClass.create ops (some (addr, b))).WellFormed :=
  ⟨h.stored, h.fields, h.fields_le, h.methods_le, h.nativefields_le⟩

theorem SQClass.WellFormed.withLockedTypeId {c : SQClass K V} (h : c.WellFormed) (id : Nat) :
    ({ c with lockedTypeId := id } : SQClass K V).WellFormed :=
  ⟨h.stored, h.fields, h.fields_le, h.methods_le, h.nativefields_le⟩

theorem SQClass.WellFormed.withUdSize {c : SQClass K V} (h : c.WellFormed) (udsize : Int) :
    ({ c with udsize := udsize } : SQClass K V).WellFormed :=
  ⟨h.stored, h.fields, h.fields_le, h.methods_le, h.nativefields_le⟩

/-! ## A new member -/

section Insert

variable {c : SQClass K V} {key : K} {idx : Nat}

theorem countUsed_insert (h : key ∉ c.members) :
    (c.members.insert key idx).keys.card = c.countUsed + 1 := by
  have hkeys : (c.members.insert key idx).keys = insert key c.members.keys := by
    ext k
    simp [Finmap.mem_keys, Finmap.mem_insert]
  rw [hkeys, Finset.card_insert_of_notMem (fun hk => h (Finmap.mem_keys.1 hk))]
  rfl

theorem countUsed_le_insert : c.countUsed ≤ (c.members.insert key idx).keys.card := by
  apply Finset.card_le_card
  intro k hk
  rw [Finmap.mem_keys] at hk ⊢
  exact Finmap.mem_insert.2 (Or.inr hk)

/-- A new member keeps the indices stored. -/
theorem stored_insert (h : c.WellFormed) (hidx : StoredIdx idx) (k : K) (j : Nat)
    (hk : (c.members.insert key idx).lookup k = some j) : StoredIdx j := by
  cases Decidable.em (k = key) with
  | inl heq =>
    rw [heq, Finmap.lookup_insert] at hk
    cases hk
    exact hidx
  | inr hne =>
    rw [Finmap.lookup_insert_of_ne _ hne] at hk
    exact h.stored k j hk

/-- A key that is not a field gives no field position up. -/
theorem fields_insert (h : c.WellFormed) (hkey : ∀ j, c.members.lookup key = some j → ¬ isField j)
    (i : Nat) (hi : i < c.defaultvalues.length) :
    ∃ k, (c.members.insert key idx).lookup k = some (makeFieldIdx i) := by
  obtain ⟨k, hk⟩ := h.fields i hi
  have hlt : i < 2 ^ 22 := Nat.lt_trans (Nat.lt_of_lt_of_le hi h.fields_le) (by decide)
  have hne : k ≠ key := by
    rintro rfl
    exact hkey _ hk (isField_makeFieldIdx hlt)
  exact ⟨k, by rw [Finmap.lookup_insert_of_ne _ hne, hk]⟩

end Insert

/-- A new member keeps the class well formed. -/
theorem SQClass.WellFormed.newMember {c : SQClass K V} (h : c.WellFormed) (key : K) (val : V)
    (bstatic : Bool) {temp : Option Nat} (htemp : c.members.lookup key = temp)
    (hkind : ∀ j, temp = some j → ¬ isField j) :
    (c.newMember ops key val bstatic temp).1.WellFormed := by
  have hfields := h.fields_le_countUsed
  have hmethods := h.methods_le
  have hnative := h.nativefields_le
  have hgrow : ∀ idx, c.countUsed ≤ (c.members.insert key idx).keys.card :=
    fun _ => countUsed_le_insert
  simp only [SQClass.newMember]
  split
  · exact h
  · rename_i hroom
    have hroom : c.countUsed < memberMaxCount := Nat.lt_of_not_le hroom
    have hmax : memberMaxCount < 2 ^ 22 := by decide
    split
    · cases metaMethodSlot ops key val with
      | some mmidx => exact ⟨h.stored, h.fields, h.fields_le, hmethods, hnative⟩
      | none =>
        cases temp with
        | some idx =>
          refine ⟨h.stored, h.fields, h.fields_le, ?_, hnative⟩
          rw [List.length_set]
          exact hmethods
        | none =>
          have hnew : key ∉ c.members := Finmap.lookup_eq_none.1 htemp
          refine ⟨stored_insert h (.method (by omega)), fields_insert h (by rw [htemp]; exact hkind),
            h.fields_le, ?_, Nat.le_trans hnative (hgrow _)⟩
          rw [List.length_append, SQClass.countUsed, countUsed_insert hnew]
          exact Nat.succ_le_succ hmethods
    · refine ⟨stored_insert h (.field (by omega)), ?_, ?_, Nat.le_trans hmethods (hgrow _),
        Nat.le_trans hnative (hgrow _)⟩
      · intro i hi
        rw [List.length_append, List.length_singleton] at hi
        rcases Nat.lt_succ_iff_lt_or_eq.1 hi with hi | rfl
        · exact fields_insert h (by rw [htemp]; exact hkind) i hi
        · exact ⟨key, Finmap.lookup_insert _⟩
      · rw [List.length_append, List.length_singleton]
        omega

/-- `NewSlot` keeps a class well formed. -/
theorem SQClass.WellFormed.newSlot {c : SQClass K V} (h : c.WellFormed) (key : K) (val : V)
    (bstatic : Bool) : (c.newSlot ops key val bstatic).1.WellFormed := by
  simp only [SQClass.newSlot]
  split
  · exact h
  · cases hidx : c.members.lookup key with
    | none => exact h.newMember ops key val bstatic hidx (by rintro j ⟨⟩)
    | some idx =>
      simp only
      split
      · refine ⟨h.stored, ?_, ?_, h.methods_le, h.nativefields_le⟩
        · rw [List.length_set]
          exact h.fields
        · rw [List.length_set]
          exact h.fields_le
      · rename_i hfield
        split
        · exact h
        · apply h.newMember ops key val bstatic hidx
          rintro j ⟨⟩
          exact hfield

/-- A native field keeps the class well formed. -/
theorem SQClass.WellFormed.registerNativeField {c : SQClass K V} (h : c.WellFormed) (key : K)
    (desc : NativeFieldDesc) : (c.registerNativeField key desc).1.WellFormed := by
  simp only [SQClass.registerNativeField]
  split
  · exact h
  · split
    · exact h
    · split
      · split
        · exact h
        · split
          · exact h
          · rename_i hroom
            have hnative := h.nativefields_le
            have hlt : c.nativefields.length < 2 ^ 22 :=
              Nat.lt_of_le_of_lt hnative (Nat.lt_trans (Nat.lt_of_not_le hroom) (by decide))
            cases hidx : c.members.lookup key with
            | some idx => exact h
            | none =>
              have hnew : key ∉ c.members := Finmap.lookup_eq_none.1 hidx
              refine ⟨stored_insert h (.nativeField hlt),
                fields_insert h (by rw [hidx]; rintro j ⟨⟩), h.fields_le,
                Nat.le_trans h.methods_le countUsed_le_insert, ?_⟩
              rw [List.length_append, SQClass.countUsed, countUsed_insert hnew]
              exact Nat.succ_le_succ hnative
      · exact h

/-! ## Locked classes -/

/-- On a locked class `NewSlot` may add an absent key; it never changes the index of another one. -/
theorem lookup_newSlot_of_locked {c : SQClass K V} (hlocked : c.isLocked = true) (key : K) (val : V)
    (bstatic : Bool) (k : K) (hk : k = key → k ∈ c.members) :
    (c.newSlot ops key val bstatic).1.members.lookup k = c.members.lookup k := by
  simp only [SQClass.newSlot, hlocked, Bool.true_and]
  split
  · rfl
  · rename_i hstatic
    have hstatic : belongsToStaticTable ops val bstatic = true := by simpa using hstatic
    -- Only static slots are left, and these reach the member table through `newMember` alone.
    have hmember : ∀ temp, (temp = none → key ∉ c.members) →
        (c.newMember ops key val bstatic temp).1.members.lookup k = c.members.lookup k := by
      intro temp htemp
      simp only [SQClass.newMember, hstatic, if_true]
      split
      · rfl
      · cases metaMethodSlot ops key val with
        | some mmidx => rfl
        | none =>
          cases temp with
          | some idx => rfl
          | none =>
            apply Finmap.lookup_insert_of_ne
            rintro rfl
            exact htemp rfl (hk rfl)
    cases hidx : c.members.lookup key with
    | none => exact hmember none fun _ => Finmap.lookup_eq_none.1 hidx
    | some idx =>
      simp only
      split
      · rfl
      · split
        · rfl
        · exact hmember (some idx) (by rintro ⟨⟩)

/-- What `NewSlot` adds to a locked class is a method. -/
theorem lookup_newSlot_self_of_locked {c : SQClass K V} (h : c.WellFormed)
    (hlocked : c.isLocked = true) {key : K} (hkey : key ∉ c.members) (val : V) (bstatic : Bool)
    {idx : Nat} (hidx : (c.newSlot ops key val bstatic).1.members.lookup key = some idx) :
    (isField idx || isNativeField idx) = false := by
  have hnone : c.members.lookup key = none := Finmap.lookup_eq_none.2 hkey
  simp only [SQClass.newSlot, hlocked, Bool.true_and, hnone] at hidx
  split at hidx
  · rw [hnone] at hidx
    cases hidx
  · rename_i hstatic
    have hstatic : belongsToStaticTable ops val bstatic = true := by simpa using hstatic
    simp only [SQClass.newMember, hstatic, if_true] at hidx
    split at hidx
    · rw [hnone] at hidx
      cases hidx
    · rename_i hroom
      cases hmm : metaMethodSlot ops key val with
      | some mmidx =>
        simp only [hmm, hnone] at hidx
        cases hidx
      | none =>
        simp only [hmm, Finmap.lookup_insert] at hidx
        cases hidx
        apply not_field_makeMethodIdx
        have hmax : memberMaxCount < 2 ^ 22 := by decide
        have hmethods := h.methods_le
        omega

/-- A locked class takes no native field. -/
theorem registerNativeField_of_locked {c : SQClass K V} (hlocked : c.isLocked = true) (key : K)
    (desc : NativeFieldDesc) : (c.registerNativeField key desc).1 = c := by
  rw [SQClass.registerNativeField, if_pos hlocked]

/-- What decides about the inline userdata and the lock of a class. -/
structure SQClass.SameLayout (c c' : SQClass K V) : Prop where
  lockedTypeId : c'.lockedTypeId = c.lockedTypeId
  udsize : c'.udsize = c.udsize
  nativefields : c'.nativefields = c.nativefields

/-- A new slot keeps the layout of fields in place. -/
theorem sameLayout_newSlot (c : SQClass K V) (key : K) (val : V) (bstatic : Bool) :
    c.SameLayout (c.newSlot ops key val bstatic).1 := by
  have hmember : ∀ temp, c.SameLayout (c.newMember ops key val bstatic temp).1 := by
    intro temp
    simp only [SQClass.newMember]
    split
    · exact ⟨rfl, rfl, rfl⟩
    · split
      · cases metaMethodSlot ops key val <;> cases temp <;> exact ⟨rfl, rfl, rfl⟩
      · exact ⟨rfl, rfl, rfl⟩
  simp only [SQClass.newSlot]
  split
  · exact ⟨rfl, rfl, rfl⟩
  · cases c.members.lookup key with
    | none => exact hmember none
    | some idx =>
      simp only
      split
      · exact ⟨rfl, rfl, rfl⟩
      · split
        · exact ⟨rfl, rfl, rfl⟩
        · exact hmember _

theorem lockedTypeId_registerNativeField (c : SQClass K V) (key : K) (desc : NativeFieldDesc) :
    (c.registerNativeField key desc).1.lockedTypeId = c.lockedTypeId := by
  simp only [SQClass.registerNativeField]
  repeat' split
  all_goals rfl

end Quirrel.Class
