import Quirrel.Class.Lock

/-!
# The place of a member

A member index stands for a place: a value of the instance, a method of the class or a native field.
Every operation on a class keeps that an index stands for a place that there is and that two keys
never share one (`SQClass.Placed`), and so in every state that a run reaches, a live instance has
the places of all members of its class (`RunOf.placesHold`).
-/

set_option autoImplicit false

namespace Quirrel.Class

universe u v w

variable {K : Type u} {V : Type v} {D : Type w}

/-! ## Indices and positions -/

theorem memberIdx_or {i : Nat} (hi : i < 2 ^ 22) (a : Nat) : memberIdx (a <<< 22 ||| i) = i := by
  rw [memberIdx, memberMaxCount, Nat.and_two_pow_sub_one_eq_mod, Nat.or_comm, Nat.or_mod_two_pow]
  rw [Nat.mod_eq_of_lt hi, Nat.shiftLeft_eq, Nat.mul_mod_left, Nat.or_zero]

theorem memberIdx_makeFieldIdx {i : Nat} (hi : i < 2 ^ 22) : memberIdx (makeFieldIdx i) = i :=
  memberIdx_or hi 1

theorem memberIdx_makeMethodIdx {i : Nat} (hi : i < 2 ^ 22) : memberIdx (makeMethodIdx i) = i :=
  memberIdx_or hi 2

theorem memberIdx_makeNativeFieldIdx {i : Nat} (hi : i < 2 ^ 22) :
    memberIdx (makeNativeFieldIdx i) = i :=
  memberIdx_or hi 3

theorem isField_makeNativeFieldIdx {i : Nat} (hi : i < 2 ^ 22) :
    isField (makeNativeFieldIdx i) = false := by
  rw [isField, makeNativeFieldIdx, memberTypeNativeField, kind_or hi]
  rfl

theorem isNativeField_makeNativeFieldIdx {i : Nat} (hi : i < 2 ^ 22) :
    isNativeField (makeNativeFieldIdx i) = true := by
  rw [isNativeField, makeNativeFieldIdx, memberTypeNativeField, kind_or hi]
  rfl

/-- A place of the class. -/
inductive SQClass.HasPlace (c : SQClass K V) : Nat → Prop
  | field {i : Nat} (hi : i < c.defaultvalues.length) (hlt : i < 2 ^ 22) :
    HasPlace c (makeFieldIdx i)
  | method {i : Nat} (hi : i < c.methods.length) (hlt : i < 2 ^ 22) :
    HasPlace c (makeMethodIdx i)
  | nativeField {i : Nat} (hi : i < c.nativefields.length) (hlt : i < 2 ^ 22) :
    HasPlace c (makeNativeFieldIdx i)

theorem SQClass.HasPlace.mono {c c' : SQClass K V} {idx : Nat} (h : c.HasPlace idx)
    (hfields : c.defaultvalues.length ≤ c'.defaultvalues.length)
    (hmethods : c.methods.length ≤ c'.methods.length)
    (hnative : c.nativefields.length ≤ c'.nativefields.length) : c'.HasPlace idx := by
  cases h with
  | field hi hlt => exact .field (Nat.lt_of_lt_of_le hi hfields) hlt
  | method hi hlt => exact .method (Nat.lt_of_lt_of_le hi hmethods) hlt
  | nativeField hi hlt => exact .nativeField (Nat.lt_of_lt_of_le hi hnative) hlt

/-- The position of a place is below the number of places of its kind. -/
theorem SQClass.HasPlace.position_lt {c : SQClass K V} {idx : Nat} (h : c.HasPlace idx) :
    (isField idx = true → memberIdx idx < c.defaultvalues.length) ∧
      (isNativeField idx = true → memberIdx idx < c.nativefields.length) ∧
      (isField idx = false → isNativeField idx = false → memberIdx idx < c.methods.length) := by
  cases h with
  | @field i hi hlt =>
    rw [memberIdx_makeFieldIdx hlt, isField_makeFieldIdx hlt]
    refine ⟨fun _ => hi, fun hn => ?_, fun h => absurd h.symm Bool.false_ne_true⟩
    rw [isNativeField, makeFieldIdx, memberTypeField, kind_or hlt] at hn
    exact absurd hn (by decide)
  | @method i hi hlt =>
    rw [memberIdx_makeMethodIdx hlt]
    obtain ⟨hf, hn⟩ := Bool.or_eq_false_iff.1 (not_field_makeMethodIdx hlt)
    rw [hf, hn]
    exact ⟨(absurd · Bool.false_ne_true), (absurd · Bool.false_ne_true), fun _ _ => hi⟩
  | @nativeField i hi hlt =>
    rw [memberIdx_makeNativeFieldIdx hlt, isField_makeNativeFieldIdx hlt,
      isNativeField_makeNativeFieldIdx hlt]
    exact ⟨(absurd · Bool.false_ne_true), fun _ => hi, fun _ h => absurd h.symm Bool.false_ne_true⟩

/-- Two fields at one position are the same. -/
theorem SQClass.HasPlace.field_eq {c : SQClass K V} {idx idx' : Nat} (h : c.HasPlace idx)
    (h' : c.HasPlace idx') (hfield : isField idx = true) (hfield' : isField idx' = true)
    (hpos : memberIdx idx = memberIdx idx') : idx = idx' := by
  have hshape : ∀ {j}, c.HasPlace j → isField j = true → j = makeFieldIdx (memberIdx j) := by
    intro j hj hf
    cases hj with
    | field hi hlt => rw [memberIdx_makeFieldIdx hlt]
    | method hi hlt =>
      obtain ⟨hnot, -⟩ := Bool.or_eq_false_iff.1 (not_field_makeMethodIdx hlt)
      exact absurd (hnot.symm.trans hf) Bool.false_ne_true
    | nativeField hi hlt =>
      exact absurd ((isField_makeNativeFieldIdx hlt).symm.trans hf) Bool.false_ne_true
  rw [hshape h hfield, hshape h' hfield', hpos]

/-- The index one behind the last place of a kind stands for no place. -/
theorem not_hasPlace_field {c : SQClass K V} (hlt : c.defaultvalues.length < 2 ^ 22) :
    ¬ c.HasPlace (makeFieldIdx c.defaultvalues.length) := by
  intro h
  have hpos := h.position_lt.1 (isField_makeFieldIdx hlt)
  rw [memberIdx_makeFieldIdx hlt] at hpos
  exact Nat.lt_irrefl _ hpos

theorem not_hasPlace_method {c : SQClass K V} (hlt : c.methods.length < 2 ^ 22) :
    ¬ c.HasPlace (makeMethodIdx c.methods.length) := by
  intro h
  obtain ⟨hf, hn⟩ := Bool.or_eq_false_iff.1 (not_field_makeMethodIdx hlt)
  have hpos := h.position_lt.2.2 hf hn
  rw [memberIdx_makeMethodIdx hlt] at hpos
  exact Nat.lt_irrefl _ hpos

theorem not_hasPlace_nativeField {c : SQClass K V} (hlt : c.nativefields.length < 2 ^ 22) :
    ¬ c.HasPlace (makeNativeFieldIdx c.nativefields.length) := by
  intro h
  have hpos := h.position_lt.2.1 (isNativeField_makeNativeFieldIdx hlt)
  rw [memberIdx_makeNativeFieldIdx hlt] at hpos
  exact Nat.lt_irrefl _ hpos

/-! ## Every member has a place of its own -/

variable [DecidableEq K]

/-- Every member has a place of its own. -/
structure SQClass.Placed (c : SQClass K V) : Prop where
  place : ∀ key idx, c.members.lookup key = some idx → c.HasPlace idx
  distinct : ∀ key key' idx, c.members.lookup key = some idx → c.members.lookup key' = some idx →
    key = key'

/-- An operation that leaves the member table and takes no place away. -/
theorem SQClass.Placed.same {c c' : SQClass K V} (h : c.Placed) (hmembers : c'.members = c.members)
    (hfields : c.defaultvalues.length ≤ c'.defaultvalues.length)
    (hmethods : c.methods.length ≤ c'.methods.length)
    (hnative : c.nativefields.length ≤ c'.nativefields.length) : c'.Placed := by
  constructor
  · intro key idx hidx
    rw [hmembers] at hidx
    exact (h.place key idx hidx).mono hfields hmethods hnative
  · intro key key' idx
    rw [hmembers]
    exact h.distinct key key' idx

/-- A key that gets a new place. -/
theorem SQClass.Placed.insert {c c' : SQClass K V} (h : c.Placed) {key : K} {idx : Nat}
    (hmembers : c'.members = c.members.insert key idx) (hnew : ¬ c.HasPlace idx)
    (hplace : c'.HasPlace idx)
    (hfields : c.defaultvalues.length ≤ c'.defaultvalues.length)
    (hmethods : c.methods.length ≤ c'.methods.length)
    (hnative : c.nativefields.length ≤ c'.nativefields.length) : c'.Placed := by
  have hold : ∀ k j, k ≠ key → c'.members.lookup k = some j → c.members.lookup k = some j := by
    intro k j hne hj
    rwa [hmembers, Finmap.lookup_insert_of_ne _ hne] at hj
  have hself : c'.members.lookup key = some idx := by rw [hmembers, Finmap.lookup_insert]
  -- No other key has the new place, since it was no place before.
  have hother : ∀ k, c'.members.lookup k = some idx → k = key := by
    intro k hk
    by_contra hne
    exact hnew (h.place k idx (hold k idx hne hk))
  constructor
  · intro k j hj
    by_cases hk : k = key
    · rw [hk, hself] at hj
      exact Option.some.inj hj ▸ hplace
    · exact (h.place k j (hold k j hk hj)).mono hfields hmethods hnative
  · intro k k' j hj hj'
    by_cases hk : k = key
    · obtain rfl : idx = j := Option.some.inj (hself.symm.trans (hk ▸ hj))
      rw [hk, hother k' hj']
    · by_cases hk' : k' = key
      · obtain rfl : idx = j := Option.some.inj (hself.symm.trans (hk' ▸ hj'))
        exact absurd (hother k hj) hk
      · exact h.distinct k k' j (hold k j hk hj) (hold k' j hk' hj')

variable (ops : ObjectOps K V D)

theorem SQClass.Placed.newMember {c : SQClass K V} (h : c.Placed) (hwf : c.WellFormed) (key : K)
    (val : V) (bstatic : Bool) (temp : Option Nat) :
    (c.newMember ops key val bstatic temp).1.Placed := by
  have hmax : memberMaxCount < 2 ^ 22 := by decide
  simp only [SQClass.newMember]
  split
  · exact h
  · rename_i hroom
    have hroom : c.countUsed < memberMaxCount := Nat.lt_of_not_le hroom
    split
    · cases metaMethodSlot ops key val with
      | some mmidx => exact h.same rfl le_rfl le_rfl le_rfl
      | none =>
        cases temp with
        | some idx => exact h.same rfl le_rfl (List.length_set ▸ le_rfl) le_rfl
        | none =>
          have hlt : c.methods.length < 2 ^ 22 := by
            have hmethods := hwf.methods_le
            omega
          have hgrow : c.methods.length < (c.methods ++ [c.methodValue ops val]).length := by simp
          exact h.insert rfl (not_hasPlace_method hlt) (.method hgrow hlt) le_rfl
            (Nat.le_of_lt hgrow) le_rfl
    · have hlt : c.defaultvalues.length < 2 ^ 22 := by
        have hfields := hwf.fields_le
        omega
      have hgrow : c.defaultvalues.length < (c.defaultvalues ++ [val]).length := by simp
      exact h.insert rfl (not_hasPlace_field hlt) (.field hgrow hlt) (Nat.le_of_lt hgrow) le_rfl
        le_rfl

/-- `NewSlot` keeps every member in a place of its own. -/
theorem SQClass.Placed.newSlot {c : SQClass K V} (h : c.Placed) (hwf : c.WellFormed) (key : K)
    (val : V) (bstatic : Bool) : (c.newSlot ops key val bstatic).1.Placed := by
  simp only [SQClass.newSlot]
  split
  · exact h
  · cases c.members.lookup key with
    | none => exact h.newMember ops hwf key val bstatic none
    | some idx =>
      simp only
      split
      · exact h.same rfl (List.length_set ▸ le_rfl) le_rfl le_rfl
      · split
        · exact h
        · exact h.newMember ops hwf key val bstatic (some idx)

theorem SQClass.Placed.registerNativeField {c : SQClass K V} (h : c.Placed) (hwf : c.WellFormed)
    (key : K) (desc : NativeFieldDesc) : (c.registerNativeField key desc).1.Placed := by
  have hmax : memberMaxCount < 2 ^ 22 := by decide
  simp only [SQClass.registerNativeField]
  split
  · exact h
  · split
    · exact h
    · split
      · split
        · exact h
        · split
          · exact h
          · rename_i hroom
            cases c.members.lookup key with
            | some idx => exact h
            | none =>
              have hlt : c.nativefields.length < 2 ^ 22 := by
                have hnative := hwf.nativefields_le
                omega
              have hgrow : c.nativefields.length < (c.nativefields ++ [desc]).length := by simp
              exact h.insert rfl (not_hasPlace_nativeField hlt) (.nativeField hgrow hlt) le_rfl
                le_rfl (Nat.le_of_lt hgrow)
      · exact h

variable {ops} {e : Event K V D}

theorem ClassChange.placed {cls : Nat} {c c' : SQClass K V} (h : c.Placed) (hwf : c.WellFormed)
    (hchange : ClassChange ops cls c e c') : c'.Placed := by
  cases hchange with
  | newSlot key val bstatic => exact h.newSlot ops hwf key val bstatic
  | registerNativeField key desc => exact h.registerNativeField hwf key desc
  | setMethodByHandle pos val => exact h.same rfl le_rfl (List.length_set ▸ le_rfl) le_rfl
  | setDefaultByHandle pos val => exact h.same rfl (List.length_set ▸ le_rfl) le_rfl le_rfl
  | setClassUdSize udsize hopen => exact h.same rfl le_rfl le_rfl le_rfl
  | lock => exact h.same rfl le_rfl le_rfl le_rfl

/-! ## Instances -/

/-- A locked class gets no further field. -/
theorem ClassChange.length_defaultvalues {cls : Nat} {c c' : SQClass K V}
    (hlocked : c.isLocked = true) (hchange : ClassChange ops cls c e c') :
    c'.defaultvalues.length = c.defaultvalues.length := by
  cases hchange with
  | newSlot key val bstatic =>
    simp only [SQClass.newSlot, hlocked, Bool.true_and]
    split
    · rfl
    · rename_i hstatic
      have hstatic : belongsToStaticTable ops val bstatic = true := by simpa using hstatic
      have hmember : ∀ temp, (c.newMember ops key val bstatic temp).1.defaultvalues.length =
          c.defaultvalues.length := by
        intro temp
        simp only [SQClass.newMember, hstatic, if_true]
        split
        · rfl
        · cases metaMethodSlot ops key val <;> cases temp <;> rfl
      cases c.members.lookup key with
      | none => exact hmember none
      | some idx =>
        simp only
        split
        · exact List.length_set
        · split
          · rfl
          · exact hmember (some idx)
  | registerNativeField key desc => rw [registerNativeField_of_locked hlocked]
  | setDefaultByHandle pos val => exact List.length_set
  | setClassUdSize | setMethodByHandle | lock => rfl

/-- The classes of a state have their members in places, and a live instance has a value for each
field of its class. -/
structure PlacesHold (s : State K V D) : Prop where
  classes : ClassesHold s
  placed : ∀ cls c, s.heap.classes cls = some c → c.Placed
  values : ∀ inst i, s.heap.instances inst = some i → ∃ c, s.heap.classes i.cls = some c ∧
    c.isLocked = true ∧ i.values.length = c.defaultvalues.length

variable {sites : Nat → Site K} {s s' : State K V D}

theorem placesHold_initial : PlacesHold (State.initial : State K V D) := by
  refine ⟨classesHold_initial, ?_, ?_⟩ <;> intros <;> contradiction

theorem PlacesHold.step (h : PlacesHold s) (hstep : Step ops sites s e s') : PlacesHold s' := by
  refine ⟨h.classes.step hstep, ?_, ?_⟩
  · intro cls c hc
    rcases hstep.class_origin hc with hold | ⟨d, hd, hchange⟩ | ⟨-, rfl | ⟨base, b, hb, rfl⟩⟩
    · exact h.placed cls c hold
    · exact hchange.placed (h.placed cls d hd) (h.classes.wellFormed cls d hd)
    · constructor
      · intro key idx hidx
        simp [SQClass.create] at hidx
      · intro key key' idx hidx
        simp [SQClass.create] at hidx
    · exact (h.placed base b hb).same rfl le_rfl le_rfl le_rfl
  · intro inst i hi
    rcases hstep.instance_origin hi with ⟨j, hj, hcls, hlen⟩ | hnew
    · obtain ⟨c, hc, hlocked, hvalues⟩ := h.values inst j hj
      have hlive : e.destroyed ≠ some j.cls := fun hdestroyed =>
        (hstep.unreferenced hdestroyed).1 inst j hj rfl
      rw [← hcls]
      rcases hstep.live_class hc hlive with hsame | ⟨c', hc', hchange⟩
      · exact ⟨c, hsame, hlocked, hlen ▸ hvalues⟩
      · refine ⟨c', hc', hchange.isLocked (h.classes.addr _ c hc) hlocked, ?_⟩
        rw [hchange.length_defaultvalues hlocked, ← hvalues, hlen]
    · exact hnew

theorem RunOf.placesHold {P : State K V D → Event K V D → Prop} (hrun : RunOf ops sites P s) :
    PlacesHold s := by
  induction hrun with
  | initial => exact placesHold_initial
  | step _ he hstep ih => exact ih.step hstep

end Quirrel.Class
