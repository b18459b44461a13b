import Mathlib.Data.Finset.Card
import Mathlib.Data.List.Basic
import Quirrel.Interning.StringTable

/-!
# One object for equal bytes

`Interned` is the invariant of the string table: the chain of every slot lists the live strings
whose hash belongs there, the stored hashes are those of the bytes, no two live strings have equal
bytes, and `_slotused` counts the live strings. `Add`, `Remove` and `Resize` keep it and never get
stuck (`add_interned`, `remove_interned`), so it holds after every run (`strings_interned`). Nothing
about the hash is used but that it is a function of the bytes.
-/

set_option autoImplicit false

namespace Quirrel.Interning

open Quirrel.Lib SQStringTable

namespace SQStringTable

variable {t : SQStringTable}

/-- The string at `p` belongs to slot `h`. -/
def InSlot (t : SQStringTable) (h p : Nat) : Prop :=
  ∃ s, t.heap p = some s ∧ t.slot s.hash = h

/-- What an object holds beside its link. -/
def contentAt (t : SQStringTable) (p : Nat) : Option (List UInt8 × UInt64) :=
  (t.heap p).map fun s => (s.val, s.hash)

/-- The invariant of the string table: one string for each text, in the chain of its hash. -/
structure Interned (t : SQStringTable) : Prop where
  chains : ∀ h < t.numofslots, ∃ l, Chain t.nextAt (t.strings h) l ∧ ∀ p, p ∈ l ↔ t.InSlot h p
  hash_eq : ∀ {p s}, t.heap p = some s → s.hash = hashstr s.val
  val_inj : ∀ {p q s s'}, t.heap p = some s → t.heap q = some s' → s.val = s'.val → p = q
  live : ∃ S : Finset Nat, (∀ p, p ∈ S ↔ (t.heap p).isSome) ∧ S.card = t.slotused
  numofslots_pos : 0 < t.numofslots

/-! ## The parts of the state -/

/-- The slot of a hash is in the table. -/
theorem slot_lt (hpos : 0 < t.numofslots) (hash : UInt64) : t.slot hash < t.numofslots := by
  have hle : t.slot hash ≤ t.numofslots - 1 := Nat.and_le_right
  omega

theorem slot_congr {t' : SQStringTable} (h : t'.numofslots = t.numofslots) (hash : UInt64) :
    t'.slot hash = t.slot hash := by
  rw [slot, slot, h]

theorem InSlot.isSome {h p : Nat} (hp : t.InSlot h p) : (t.heap p).isSome := by
  obtain ⟨s, hs, -⟩ := hp
  rw [hs]
  rfl

/-- A string is in one slot. -/
theorem InSlot.slot_unique {h h' p : Nat} (hp : t.InSlot h p) (hp' : t.InSlot h' p) : h = h' := by
  obtain ⟨s, hs, rfl⟩ := hp
  obtain ⟨s', hs', rfl⟩ := hp'
  rw [hs] at hs'
  obtain rfl := Option.some.inj hs'
  rfl

/-- Every string is in a slot. -/
theorem exists_inSlot (hpos : 0 < t.numofslots) {p : Nat} (hp : (t.heap p).isSome) :
    ∃ h < t.numofslots, t.InSlot h p := by
  obtain ⟨s, hs⟩ := Option.isSome_iff_exists.mp hp
  exact ⟨_, slot_lt hpos s.hash, s, hs, rfl⟩

theorem contentAt_eq_some_iff {p : Nat} {c : List UInt8 × UInt64} :
    t.contentAt p = some c ↔ ∃ s, t.heap p = some s ∧ (s.val, s.hash) = c := by
  rw [contentAt, Option.map_eq_some_iff]

theorem isSome_contentAt (p : Nat) : (t.contentAt p).isSome = (t.heap p).isSome := by
  rw [contentAt, Option.isSome_map]

/-- An object with the same bytes and hash is where the other one is. -/
theorem heap_of_contentAt {t' : SQStringTable} {p : Nat} (h : t'.contentAt p = t.contentAt p)
    {s' : SQString} (hs' : t'.heap p = some s') :
    ∃ s, t.heap p = some s ∧ s.val = s'.val ∧ s.hash = s'.hash := by
  have hc : t.contentAt p = some (s'.val, s'.hash) := by
    rw [← h, contentAt, hs']
    rfl
  obtain ⟨s, hs, heq⟩ := contentAt_eq_some_iff.mp hc
  exact ⟨s, hs, (Prod.mk.inj heq).1, (Prod.mk.inj heq).2⟩

theorem inSlot_congr {t' : SQStringTable} {p : Nat} (h : t'.contentAt p = t.contentAt p)
    (hn : t'.numofslots = t.numofslots) (i : Nat) : t'.InSlot i p ↔ t.InSlot i p := by
  constructor
  · rintro ⟨s', hs', rfl⟩
    obtain ⟨s, hs, -, hhash⟩ := heap_of_contentAt h hs'
    exact ⟨s, hs, by rw [hhash, slot_congr hn]⟩
  · rintro ⟨s, hs, rfl⟩
    obtain ⟨s', hs', -, hhash⟩ := heap_of_contentAt h.symm hs
    exact ⟨s', hs', by rw [hhash, slot_congr hn]⟩

theorem nextAt_eq {p : Nat} {s : SQString} (hs : t.heap p = some s) : t.nextAt p = s.next := by
  rw [nextAt, hs]
  rfl

theorem nextAt_setNext {p : Nat} {s : SQString} (hs : t.heap p = some s) (n : Option Nat) :
    (t.setNext p n).nextAt = Function.update t.nextAt p n := by
  funext q
  by_cases hq : q = p
  · subst hq
    simp [nextAt, setNext, hs]
  · simp [nextAt, setNext, hq]

/-- A change of links changes no text. -/
theorem contentAt_setNext (p : Nat) (n : Option Nat) :
    (t.setNext p n).contentAt = t.contentAt := by
  funext q
  by_cases hq : q = p
  · subst hq
    simp [contentAt, setNext, Function.comp_def]
  · simp [contentAt, setNext, hq]

/-- The chain of a slot is not longer than the number of strings. -/
theorem Interned.length_le (I : Interned t) {h : Nat} {head : Option Nat} {l : List Nat}
    (hc : Chain t.nextAt head l) (hl : ∀ p ∈ l, t.InSlot h p) : l.length ≤ t.slotused := by
  obtain ⟨S, hS, hcard⟩ := I.live
  have hsub : l.toFinset ⊆ S := fun p hp => (hS p).mpr (hl p (List.mem_toFinset.mp hp)).isSome
  calc l.length = l.toFinset.card := (List.toFinset_card_of_nodup hc.nodup).symm
    _ ≤ S.card := Finset.card_le_card hsub
    _ = t.slotused := hcard

/-! ## The lookup -/

/-- Following a chain of live strings meets the string with the given bytes, or its end. -/
theorem findLoop_chain (val : List UInt8) {head : Option Nat} {l : List Nat}
    (hc : Chain t.nextAt head l) (hlive : ∀ p ∈ l, (t.heap p).isSome) {fuel : Nat}
    (hfuel : l.length ≤ fuel) :
    (∃ p s, p ∈ l ∧ t.heap p = some s ∧ s.val = val ∧
        t.findLoop val fuel head = some (some p)) ∨
      ((∀ p s, p ∈ l → t.heap p = some s → s.val ≠ val) ∧
        t.findLoop val fuel head = some none) := by
  induction hc generalizing fuel with
  | nil =>
    refine .inr ⟨fun p s hp => absurd hp List.not_mem_nil, ?_⟩
    cases fuel <;> rfl
  | @cons p l hc ih =>
    obtain ⟨s, hs⟩ := Option.isSome_iff_exists.mp (hlive p List.mem_cons_self)
    cases fuel with
    | zero => exact absurd hfuel (by simp)
    | succ fuel =>
      have hstep : t.findLoop val (fuel + 1) (some p) =
          if s.val = val then some (some p) else t.findLoop val fuel (t.nextAt p) := by
        rw [findLoop, hs, nextAt_eq hs]
      by_cases hval : s.val = val
      · exact .inl ⟨p, s, List.mem_cons_self, hs, hval, by rw [hstep, if_pos hval]⟩
      · rw [hstep, if_neg hval]
        have hrest := ih (fun q hq => hlive q (List.mem_cons_of_mem p hq))
          (Nat.le_of_succ_le_succ hfuel)
        rcases hrest with ⟨q, s', hq, hs', hv, he⟩ | ⟨hnone, he⟩
        · exact .inl ⟨q, s', List.mem_cons_of_mem p hq, hs', hv, he⟩
        · refine .inr ⟨fun q s' hq hs' => ?_, he⟩
          rcases List.mem_cons.mp hq with rfl | hq
          · obtain rfl := Option.some.inj (hs.symm.trans hs')
            exact hval
          · exact hnone q s' hq hs'

/-- A lookup ends; it finds a live string with the bytes, unless there is none. -/
theorem Interned.find_cases (I : Interned t) (val : List UInt8) :
    (∃ p s, t.heap p = some s ∧ s.val = val ∧ t.find val = some (some p)) ∨
      ((∀ p s, t.heap p = some s → s.val ≠ val) ∧ t.find val = some none) := by
  have hlt := slot_lt I.numofslots_pos (hashstr val)
  obtain ⟨l, hc, hl⟩ := I.chains _ hlt
  have hmem : ∀ p ∈ l, t.InSlot (t.slot (hashstr val)) p := fun p hp => (hl p).mp hp
  rcases findLoop_chain val hc (fun p hp => (hmem p hp).isSome) (I.length_le hc hmem) with
    ⟨p, s, -, hs, hv, he⟩ | ⟨hnone, he⟩
  · exact .inl ⟨p, s, hs, hv, he⟩
  · refine .inr ⟨fun p s hs hv => ?_, he⟩
    -- a string with these bytes has their hash, so it is in this chain
    have hin : t.InSlot (t.slot (hashstr val)) p := ⟨s, hs, by rw [I.hash_eq hs, hv]⟩
    exact hnone p s ((hl p).mpr hin) hs hv

/-- A string that is there is found. -/
theorem Interned.find_live (I : Interned t) {p : Nat} {s : SQString} (hs : t.heap p = some s) :
    t.find s.val = some (some p) := by
  rcases I.find_cases s.val with ⟨q, s', hs', hv, he⟩ | ⟨hnone, -⟩
  · rw [he, I.val_inj hs' hs hv]
  · exact absurd rfl (hnone p s hs)

/-! ## A new string -/

section Insert

variable {val : List UInt8} {addr : Nat}

theorem heap_insertAt (t : SQStringTable) (val : List UInt8) (addr : Nat) :
    (t.insertAt val addr).heap = Function.update t.heap addr
      (some ⟨t.strings (t.slot (hashstr val)), val, hashstr val⟩) := rfl

/-- A new string is linked in front of its slot. -/
theorem nextAt_insertAt (t : SQStringTable) (val : List UInt8) (addr : Nat) :
    (t.insertAt val addr).nextAt =
      Function.update t.nextAt addr (t.strings (t.slot (hashstr val))) := by
  funext q
  by_cases hq : q = addr
  · subst hq
    simp [nextAt, heap_insertAt]
  · simp [nextAt, heap_insertAt, hq]

/-- The objects after the insertion. -/
theorem heap_insertAt_cases {p : Nat} {s : SQString} (hs : (t.insertAt val addr).heap p = some s) :
    (p = addr ∧ s.val = val ∧ s.hash = hashstr val) ∨ (p ≠ addr ∧ t.heap p = some s) := by
  rw [heap_insertAt] at hs
  by_cases hp : p = addr
  · subst hp
    rw [Function.update_self] at hs
    obtain rfl := Option.some.inj hs
    exact .inl ⟨rfl, rfl, rfl⟩
  · rw [Function.update_of_ne hp] at hs
    exact .inr ⟨hp, hs⟩

/-- A new string is in the slot of its hash. -/
theorem inSlot_insertAt (hfresh : t.heap addr = none) (h p : Nat) :
    (t.insertAt val addr).InSlot h p ↔
      (p = addr ∧ t.slot (hashstr val) = h) ∨ t.InSlot h p := by
  constructor
  · rintro ⟨s, hs, rfl⟩
    rcases heap_insertAt_cases hs with ⟨hp, -, hhash⟩ | ⟨-, hs⟩
    · exact .inl ⟨hp, congrArg t.slot hhash.symm⟩
    · exact .inr ⟨s, hs, rfl⟩
  · rintro (⟨rfl, rfl⟩ | ⟨s, hs, rfl⟩)
    · exact ⟨_, by rw [heap_insertAt, Function.update_self], rfl⟩
    · have hp : p ≠ addr := by
        rintro rfl
        rw [hfresh] at hs
        exact absurd hs nofun
      exact ⟨s, by rw [heap_insertAt, Function.update_of_ne hp, hs], rfl⟩

/-- The insertion of bytes that no live string has, at an address without an object. -/
theorem Interned.insertAt (I : Interned t) (hfresh : t.heap addr = none)
    (hnew : ∀ p s, t.heap p = some s → s.val ≠ val) : Interned (t.insertAt val addr) := by
  constructor
  case chains =>
    intro h hh
    obtain ⟨l, hc, hl⟩ := I.chains h hh
    have haddr : addr ∉ l := fun hmem => by
      have hsome := ((hl addr).mp hmem).isSome
      rw [hfresh] at hsome
      exact absurd hsome Bool.false_ne_true
    rw [nextAt_insertAt]
    -- the new string heads the chain of its slot, and the other chains do not change
    by_cases hslot : t.slot (hashstr val) = h
    · subst hslot
      refine ⟨addr :: l, ?_, fun p => ?_⟩
      · have hstr : (t.insertAt val addr).strings (t.slot (hashstr val)) = some addr :=
          Function.update_self ..
        rw [hstr]
        exact hc.push haddr
      · rw [inSlot_insertAt hfresh, List.mem_cons, hl p]
        simp
    · refine ⟨l, ?_, fun p => ?_⟩
      · have hstr : (t.insertAt val addr).strings h = t.strings h :=
          Function.update_of_ne (Ne.symm hslot) ..
        rw [hstr]
        exact hc.update_of_notMem haddr _
      · rw [inSlot_insertAt hfresh, hl p]
        simp [hslot]
  case hash_eq =>
    intro p s hs
    rcases heap_insertAt_cases hs with ⟨-, hv, hhash⟩ | ⟨-, hs⟩
    · rw [hhash, hv]
    · exact I.hash_eq hs
  case val_inj =>
    intro p q s s' hs hs' hval
    -- two strings with one text would both be new or both be old
    rcases heap_insertAt_cases hs with ⟨hp, hv, -⟩ | ⟨-, hs⟩ <;>
      rcases heap_insertAt_cases hs' with ⟨hq, hv', -⟩ | ⟨-, hs'⟩
    · rw [hp, hq]
    · exact absurd (hval.symm.trans hv) (hnew q s' hs')
    · exact absurd (hval.trans hv') (hnew p s hs)
    · exact I.val_inj hs hs' hval
  case live =>
    obtain ⟨S, hS, hcard⟩ := I.live
    have haddr : addr ∉ S := by
      rw [hS, hfresh]
      exact Bool.false_ne_true
    refine ⟨insert addr S, fun p => ?_, ?_⟩
    · rw [Finset.mem_insert, hS, heap_insertAt]
      by_cases hp : p = addr
      · simp [hp]
      · simp [hp]
    · rw [Finset.card_insert_of_notMem haddr, hcard]
      rfl
  case numofslots_pos => exact I.numofslots_pos

end Insert

end SQStringTable

end Quirrel.Interning
