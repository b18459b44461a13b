import Quirrel.Serialization.Deserialize

/-!
# Records of scalars

What the reader makes of the record of a scalar, of the head of a container and of the parts of a
string record. Each lemma reads one record off the front of the input and leaves the rest.
-/

set_option autoImplicit false

namespace Quirrel.Serialization

open Quirrel.Lib Quirrel.Vm

variable {τ : Type}

/-! ## Words -/

theorem readWord_toLE {n v : Nat} {rest : List UInt8} {d : Deserializer τ}
    (h : d.input = toLE n v ++ rest) :
    readWord n d = .ok (v % 256 ^ n, { d with input := rest }) := by
  rw [readWord, h, readLE, readExact_append (length_toLE n v), Option.map_some, ofLE_toLE]

/-- A word that fits is read as it was written. -/
theorem readWord_of_lt {n v : Nat} {rest : List UInt8} {d : Deserializer τ}
    (h : d.input = toLE n v ++ rest) (hv : v < 256 ^ n) :
    readWord n d = .ok (v, { d with input := rest }) := by
  rw [readWord_toLE h, Nat.mod_eq_of_lt hv]

theorem readWord_byte {b : UInt8} {rest : List UInt8} {d : Deserializer τ}
    (h : d.input = b :: rest) : readWord 1 d = .ok (b.toNat, { d with input := rest }) := by
  have hb : [b] = toLE 1 b.toNat := by simp [toLE]
  apply readWord_of_lt
  · rw [h, ← List.singleton_append, hb]
  · exact b.toNat_lt

/-- Characters are read as they were written. -/
theorem readChars_append {s rest : List UInt8} {d : Deserializer τ} (h : d.input = s ++ rest) :
    readChars s.length d = .ok (s, { d with input := rest }) := by
  rw [readChars, h, readExact_append rfl]

theorem useSlots_of_le {slots : Nat} (h : slots ≤ stackGrowThreshold) : useSlots slots = .ok () :=
  if_pos h

/-! ## Integers -/

/-- A word that fits in `n` bytes with its sign is what is read from them. -/
theorem signExtend_ofNat {n : Nat} (hn : 0 < n) (hn8 : n ≤ 8) {i : BitVec 64}
    (hlo : -2 ^ (8 * n - 1) ≤ i.toInt) (hhi : i.toInt < 2 ^ (8 * n - 1)) :
    (BitVec.ofNat (8 * n) (i.toNat % 256 ^ n)).signExtend 64 = i := by
  have hpow : 256 ^ n = 2 ^ (8 * n) := by rw [Nat.pow_mul]
  have htwice : 2 ^ (8 * n) = 2 * 2 ^ (8 * n - 1) := by
    rw [← Nat.pow_succ']
    congr 1
    omega
  have habs : BitVec.ofNat (8 * n) (i.toNat % 256 ^ n) = BitVec.ofNat (8 * n) i.toNat := by
    apply BitVec.eq_of_toNat_eq
    rw [hpow, BitVec.toNat_ofNat, BitVec.toNat_ofNat, Nat.mod_mod]
  have hword : (i.toNat : Int).bmod (2 ^ (8 * n)) = i.toInt := by
    have hdvd : 2 ^ (8 * n) ∣ 2 ^ 64 := Nat.pow_dvd_pow 2 (by omega)
    rw [← Int.bmod_bmod_of_dvd hdvd, ← BitVec.toInt_eq_toNat_bmod]
    have hcast : ((2 ^ (8 * n - 1) : Nat) : Int) = 2 ^ (8 * n - 1) := Int.natCast_pow 2 _
    apply Int.bmod_eq_of_le
    · omega
    · omega
  apply BitVec.eq_of_toInt_eq
  rw [habs, BitVec.toInt_signExtend_of_le (by omega), BitVec.toInt_ofNat', hword]

/-- An integer that fits is read with its sign. -/
theorem readInteger_toLE {n : Nat} (hn : 0 < n) (hn8 : n ≤ 8) {i : BitVec 64}
    (hlo : -2 ^ (8 * n - 1) ≤ i.toInt) (hhi : i.toInt < 2 ^ (8 * n - 1)) {rest : List UInt8}
    {d : Deserializer τ} (h : d.input = toLE n i.toNat ++ rest) :
    readInteger n d = .ok (.integer i, { d with input := rest }) := by
  rw [readInteger, readWord_toLE h]
  show Except.ok (Value.integer ((BitVec.ofNat (8 * n) (i.toNat % 256 ^ n)).signExtend 64), _) = _
  rw [signExtend_ofNat hn hn8 hlo hhi]

/-- The record of an integer: its type, and a body that is read back as the integer. -/
theorem encodeInteger_read (i : BitVec 64) : ∃ t body, encodeInteger i = t :: body ∧
    t.toNat / 16 = 2 ∧ ∀ (d : Deserializer τ) rest, d.input = body ++ rest →
      deserializeInteger (t.toNat % 16) d = .ok (.integer i, { d with input := rest }) := by
  unfold encodeInteger
  split
  · rename_i hsmall
    obtain h | h | h | h : i.toInt = -1 ∨ i.toInt = 0 ∨ i.toInt = 1 ∨ i.toInt = 2 := by omega
    all_goals
      rw [h]
      refine ⟨_, [], rfl, by decide, fun d rest hd => ?_⟩
      obtain rfl : rest = d.input := hd.symm
    · obtain rfl : i = -1 := BitVec.eq_of_toInt_eq h
      rfl
    · obtain rfl : i = 0 := BitVec.eq_of_toInt_eq h
      rfl
    · obtain rfl : i = 1 := BitVec.eq_of_toInt_eq h
      rfl
    · obtain rfl : i = 2 := BitVec.eq_of_toInt_eq h
      rfl
  · split
    · rename_i h
      exact ⟨_, _, rfl, by decide, fun d rest hd =>
        readInteger_toLE (by omega) (by omega) h.1 h.2 hd⟩
    · split
      · rename_i h
        exact ⟨_, _, rfl, by decide, fun d rest hd =>
          readInteger_toLE (by omega) (by omega) h.1 h.2 hd⟩
      · split
        · rename_i h
          exact ⟨_, _, rfl, by decide, fun d rest hd =>
            readInteger_toLE (by omega) (by omega) h.1 h.2 hd⟩
        · have hlo := BitVec.le_toInt i
          have hhi := BitVec.toInt_lt (x := i)
          exact ⟨_, _, rfl, by decide, fun d rest hd =>
            readInteger_toLE (n := 8) (by omega) (by omega) (by omega) (by omega) hd⟩

/-! ## Floats -/

instance (b : UInt32) : Decidable (IsZeroWord b) := inferInstanceAs (Decidable (_ ∨ _))

/-- What is read back for a float: the zeros become one. -/
def restoreFloat (w : UInt32) : UInt32 := if wordEq w zero then zero else w

/-- But for the zeros, floats that are equal have one word. -/
theorem eq_of_wordEq_of_ne {w c : UInt32} (h : wordEq w c = true) (hc : ¬ IsZeroWord c) : w = c :=
  (eq_of_wordEq h).resolve_right fun hz => hc hz.2

theorem restoreFloat_of_ne {w : UInt32} (h : wordEq w zero = false) : restoreFloat w = w := by
  rw [restoreFloat, h]
  rfl

theorem restoreFloat_of_eq {w c : UInt32} (h : wordEq w c = true) (hc : ¬ IsZeroWord c)
    (hz : wordEq c zero = false) : restoreFloat w = c := by
  rw [eq_of_wordEq_of_ne h hc, restoreFloat_of_ne hz]

theorem readFloat_toLE {w : UInt32} {rest : List UInt8} {d : Deserializer τ}
    (h : d.input = toLE 4 w.toNat ++ rest) :
    deserializeFloat 6 d = .ok (.float w, { d with input := rest }) := by
  rw [deserializeFloat, readWord_of_lt h w.toNat_lt]
  show Except.ok (Value.float (UInt32.ofNat w.toNat), _) = _
  rw [UInt32.ofNat_toNat]

/-- A record without a body. -/
theorem bodyless_read {w c : UInt32} {t : UInt8} (hc : restoreFloat w = c) (ht : t.toNat / 16 = 3)
    (hread : ∀ d : Deserializer τ, deserializeFloat (t.toNat % 16) d = .ok (.float c, d)) :
    ∃ t' body, [t] = t' :: body ∧ t'.toNat / 16 = 3 ∧
      ∀ (d : Deserializer τ) rest, d.input = body ++ rest →
        deserializeFloat (t'.toNat % 16) d =
          .ok (.float (restoreFloat w), { d with input := rest }) := by
  refine ⟨t, [], rfl, ht, fun d rest hd => ?_⟩
  obtain rfl : rest = d.input := hd.symm
  rw [hc]
  exact hread d

theorem encodeFloat_read (w : UInt32) : ∃ t body, encodeFloat w = t :: body ∧
    t.toNat / 16 = 3 ∧ ∀ (d : Deserializer τ) rest, d.input = body ++ rest →
      deserializeFloat (t.toNat % 16) d =
        .ok (.float (restoreFloat w), { d with input := rest }) := by
  unfold encodeFloat
  split
  · rename_i h
    exact bodyless_read (restoreFloat_of_eq h (by decide) (by decide)) (by decide) fun _ => rfl
  split
  · rename_i h
    exact bodyless_read (restoreFloat_of_eq h (by decide) (by decide)) (by decide) fun _ => rfl
  split
  · rename_i h
    exact bodyless_read (if_pos h) (by decide) fun _ => rfl
  rename_i hz
  split
  · rename_i h
    exact bodyless_read (restoreFloat_of_eq h (by decide) (by decide)) (by decide) fun _ => rfl
  split
  · rename_i h
    exact bodyless_read (restoreFloat_of_eq h (by decide) (by decide)) (by decide) fun _ => rfl
  split
  · rename_i h
    exact bodyless_read (restoreFloat_of_eq h (by decide) (by decide)) (by decide) fun _ => rfl
  · rw [restoreFloat_of_ne (Bool.eq_false_iff.2 hz)]
    exact ⟨_, _, rfl, by decide, fun d rest hd => readFloat_toLE hd⟩

/-! ## Strings -/

theorem readNewString_append {n : Nat} {s rest : List UInt8} {d : Deserializer τ}
    (h : d.input = toLE n s.length ++ s ++ rest) (hn : s.length < 256 ^ n)
    (hs : s.length < deserMaxObjectSize) :
    readNewString n d =
      .ok (.string s, { d with input := rest, stringList := d.stringList ++ [s] }) := by
  rw [List.append_assoc] at h
  rw [readNewString, readWord_of_lt h hn]
  show (if deserMaxObjectSize ≤ s.length then _ else _) = _
  rw [if_neg (by omega)]
  show (readChars s.length _ >>= _) = _
  rw [readChars_append rfl]
  rfl

theorem encodeNewString_read {s : List UInt8} (hs : s.length < deserMaxObjectSize) :
    ∃ t body, encodeNewString s = t :: body ∧ t.toNat / 16 = 4 ∧
      ∀ (d : Deserializer τ) rest, d.input = body ++ rest →
        deserializeString (t.toNat % 16) d =
          .ok (.string s, { d with input := rest, stringList := d.stringList ++ [s] }) := by
  unfold encodeNewString
  split
  · exact ⟨_, _, rfl, by decide, fun d rest hd => readNewString_append hd (by omega) hs⟩
  split
  · exact ⟨_, _, rfl, by decide, fun d rest hd => readNewString_append hd (by omega) hs⟩
  · have : deserMaxObjectSize = 83886080 := rfl
    exact ⟨_, _, rfl, by decide, fun d rest hd => readNewString_append hd (by omega) hs⟩

theorem readBackRef_toLE {n : Nat} {index : Nat} {s rest : List UInt8} {d : Deserializer τ}
    (h : d.input = toLE n index ++ rest) (hn : index < 256 ^ n)
    (hs : d.stringList[index]? = some s) :
    readBackRef n d = .ok (.string s, { d with input := rest }) := by
  obtain ⟨hlt, -⟩ := List.getElem?_eq_some_iff.1 hs
  rw [readBackRef, readWord_of_lt h hn]
  show (if d.stringList.length ≤ index then _ else _) = _
  rw [if_neg (by omega)]
  dsimp only
  rw [hs]
  rfl

theorem encodeBackRef_read (index : UInt32) : ∃ t body, encodeBackRef index = t :: body ∧
    t.toNat / 16 = 4 ∧ ∀ (d : Deserializer τ) rest s, d.input = body ++ rest →
      d.stringList[index.toNat]? = some s →
        deserializeString (t.toNat % 16) d = .ok (.string s, { d with input := rest }) := by
  unfold encodeBackRef
  split
  · exact ⟨_, _, rfl, by decide, fun d rest s hd hs => readBackRef_toLE hd (by omega) hs⟩
  split
  · exact ⟨_, _, rfl, by decide, fun d rest s hd hs => readBackRef_toLE hd (by omega) hs⟩
  · exact ⟨_, _, rfl, by decide, fun d rest s hd hs => readBackRef_toLE hd index.toNat_lt hs⟩

/-! ## Heads of containers -/

/-- The types that have a size. -/
def IsSizedType (tp : UInt8) : Prop := tp = tpArray ∨ tp = tpTable

theorem IsSizedType.or {tp : UInt8} (h : IsSizedType tp) (k : UInt8) (hk : k.toNat < 3) :
    (tp ||| k).toNat / 16 = tp.toNat / 16 ∧ (tp ||| k).toNat % 16 = k.toNat := by
  obtain rfl | rfl | rfl : k = 0 ∨ k = 1 ∨ k = 2 := by
    obtain h | h | h : k.toNat = 0 ∨ k.toNat = 1 ∨ k.toNat = 2 := by omega
    · exact .inl (UInt8.toNat_inj.1 h)
    · exact .inr (.inl (UInt8.toNat_inj.1 h))
    · exact .inr (.inr (UInt8.toNat_inj.1 h))
  all_goals
    rcases h with rfl | rfl <;> decide

theorem encodeSize_read {tp : UInt8} (htp : IsSizedType tp) {size : Nat}
    (hsize : size < deserMaxObjectSize) (invalid tooLarge : String) :
    ∃ t body, encodeSize tp size = t :: body ∧ t.toNat / 16 = tp.toNat / 16 ∧
      ∀ (d : Deserializer τ) rest, d.input = body ++ rest →
        readSize invalid tooLarge (t.toNat % 16) d = .ok (size, { d with input := rest }) := by
  have hmax : deserMaxObjectSize = 83886080 := rfl
  unfold encodeSize
  split
  · rename_i h
    subst h
    refine ⟨tp, [], rfl, rfl, fun d rest hd => ?_⟩
    obtain rfl : rest = d.input := hd.symm
    rcases htp with rfl | rfl <;> rfl
  split
  · rename_i h
    obtain ⟨hhigh, hlow⟩ := htp.or 1 (by decide)
    refine ⟨_, _, rfl, hhigh, fun d rest hd => ?_⟩
    rw [hlow]
    show (readWord 1 d >>= _) = _
    rw [readWord_of_lt hd (by omega)]
    show (if deserMaxObjectSize ≤ size then _ else _) = _
    rw [if_neg (by omega)]
    rfl
  · obtain ⟨hhigh, hlow⟩ := htp.or 2 (by decide)
    refine ⟨_, _, rfl, hhigh, fun d rest hd => ?_⟩
    rw [hlow]
    show (readWord 4 d >>= _) = _
    rw [readWord_of_lt hd (by omega)]
    show (if deserMaxObjectSize ≤ size then _ else _) = _
    rw [if_neg (by omega)]
    rfl

end Quirrel.Serialization
