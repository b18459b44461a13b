import Mathlib

/-!
# Words of the `binary32` format

The bit patterns of floats, with the comparison `==` of the values that they stand for. Two words
compare equal only if they are the same or both stand for a zero (`eq_of_wordEq`); a not-a-number
does not compare equal to itself.
-/

set_option autoImplicit false

namespace Quirrel.Lib

open Float.Model Float.Model.UnpackedFloat

/-! ## Components -/

/-- The sign bit of a word. -/
def signOf (b : UInt32) : BitVec 1 := @unpackSign Format.binary32 b.toBitVec

/-- The exponent field of a word. -/
def exponentOf (b : UInt32) : BitVec 8 := @unpackExponent Format.binary32 b.toBitVec

/-- The mantissa field of a word. -/
def mantissaOf (b : UInt32) : BitVec 23 := @unpackMantissa Format.binary32 b.toBitVec

/-- The number that a word stands for. -/
def unpackWord (b : UInt32) : UnpackedFloat := UnpackedFloat.unpack Format.binary32 b.toBitVec

theorem word_ext {b c : UInt32} (hs : signOf b = signOf c) (he : exponentOf b = exponentOf c)
    (hm : mantissaOf b = mantissaOf c) : b = c := by
  apply UInt32.toBitVec_inj.1
  apply BitVec.eq_of_getLsbD_eq
  intro i hi
  have h1 := congrArg (fun x => x.getLsbD 0) hs
  have h2 := congrArg (fun x => x.getLsbD (i - 23)) he
  have h3 := congrArg (fun x => x.getLsbD i) hm
  simp [unpackSign, unpackExponent, unpackMantissa, signOf, exponentOf, mantissaOf] at h1 h2 h3
  rcases Nat.lt_or_ge i 23 with h | h
  · simpa [show i ≤ 22 by omega] using h3
  · rcases Nat.lt_or_ge i 31 with h' | h'
    · have : 23 + (i - 23) = i := by omega
      simpa [this, show i ≤ 30 by omega] using h2
    · obtain rfl : i = 31 := by omega
      exact h1

theorem ofBitVec_inj {s t : BitVec 1} (h : Sign.ofBitVec s = Sign.ofBitVec t) : s = t := by
  have hs : ∀ s : BitVec 1, s = (Sign.ofBitVec s).toBitVec := by
    intro s
    obtain rfl | rfl : s = 0#1 ∨ s = 1#1 := by
      have := s.isLt
      rcases Nat.lt_or_ge s.toNat 1 with h | h
      · exact .inl (BitVec.eq_of_toNat_eq (by simp; omega))
      · exact .inr (BitVec.eq_of_toNat_eq (by simp; omega))
    · rfl
    · rfl
  rw [hs s, hs t, h]

/-- What the components say about the value. -/
theorem unpackWord_cases (b : UInt32) :
    unpackWord b = .notANumber ∨
    (unpackWord b = .infinity (Sign.ofBitVec (signOf b)) ∧ exponentOf b = -1#8 ∧
      mantissaOf b = 0#23) ∨
    (unpackWord b = .zero (Sign.ofBitVec (signOf b)) ∧ exponentOf b = 0#8 ∧ mantissaOf b = 0#23) ∨
    ∃ m e h, unpackWord b = .finite (Sign.ofBitVec (signOf b)) m e h ∧
      m = (if exponentOf b = 0#8 then (mantissaOf b).toNat else 2 ^ 23 + (mantissaOf b).toNat) ∧
      e = (exponentOf b).toNat - 150 + if exponentOf b = 0#8 then 1 else 0 := by
  unfold unpackWord UnpackedFloat.unpack
  by_cases h1 : exponentOf b = -1#8
  · by_cases h2 : mantissaOf b = 0#23
    · exact .inr (.inl ⟨(if_pos h1).trans (if_pos h2), h1, h2⟩)
    · exact .inl ((if_pos h1).trans (if_neg h2))
  · by_cases h2 : exponentOf b = 0#8
    · by_cases h3 : mantissaOf b = 0#23
      · exact .inr (.inr (.inl ⟨(if_neg h1).trans ((if_pos h2).trans (dif_pos h3)), h2, h3⟩))
      · have hpos : 0 < (mantissaOf b).toNat :=
          Nat.pos_of_ne_zero fun h => h3 (BitVec.eq_of_toNat_eq h)
        refine .inr (.inr (.inr ⟨_, _, hpos,
          (if_neg h1).trans ((if_pos h2).trans (dif_neg h3)), ?_, ?_⟩))
        · rw [if_pos h2]
        · rw [if_pos h2]
          rfl
    · -- A normal number has the implicit bit above its mantissa.
      have hm : (1#1 ++ mantissaOf b).toNat = 2 ^ 23 + (mantissaOf b).toNat := by
        rw [BitVec.toNat_append, ← Nat.shiftLeft_add_eq_or_of_lt (mantissaOf b).isLt]
        rfl
      have hpos : 0 < (1#1 ++ mantissaOf b).toNat := by
        rw [hm]
        exact Nat.add_pos_left (Nat.two_pow_pos 23) _
      refine .inr (.inr (.inr ⟨_, _, hpos, (if_neg h1).trans (if_neg h2), ?_, ?_⟩))
      · rw [if_neg h2]
        exact hm
      · rw [if_neg h2]
        exact (Int.add_zero _).symm

theorem parts_of_infinity {b : UInt32} {s : Sign} (h : unpackWord b = .infinity s) :
    Sign.ofBitVec (signOf b) = s ∧ exponentOf b = -1#8 ∧ mantissaOf b = 0#23 := by
  rcases unpackWord_cases b with hb | ⟨hb, he, hm⟩ | ⟨hb, -, -⟩ | ⟨m, e, hp, hb, -, -⟩
  all_goals
    rw [hb] at h
    cases h
  exact ⟨rfl, he, hm⟩

theorem parts_of_zero {b : UInt32} {s : Sign} (h : unpackWord b = .zero s) :
    Sign.ofBitVec (signOf b) = s ∧ exponentOf b = 0#8 ∧ mantissaOf b = 0#23 := by
  rcases unpackWord_cases b with hb | ⟨hb, -, -⟩ | ⟨hb, he, hm⟩ | ⟨m, e, hp, hb, -, -⟩
  all_goals
    rw [hb] at h
    cases h
  exact ⟨rfl, he, hm⟩

theorem parts_of_finite {b : UInt32} {s : Sign} {m : Nat} {e : Int} {hp : 0 < m}
    (h : unpackWord b = .finite s m e hp) : Sign.ofBitVec (signOf b) = s ∧
      m = (if exponentOf b = 0#8 then (mantissaOf b).toNat else 2 ^ 23 + (mantissaOf b).toNat) ∧
      e = ((exponentOf b).toNat - 150 + if exponentOf b = 0#8 then 1 else 0) := by
  rcases unpackWord_cases b with hb | ⟨hb, -, -⟩ | ⟨hb, -, -⟩ | ⟨m, e, hp, hb, hm, he⟩
  all_goals
    rw [hb] at h
    cases h
  exact ⟨rfl, hm, he⟩

/-! ## Comparison -/

theorem eq_of_compare_finite {s s' : Sign} {m m' : Nat} {e e' : Int} {h : 0 < m} {h' : 0 < m'}
    (hc : (UnpackedFloat.finite s m e h).compare (.finite s' m' e' h') = some .eq) :
    s = s' ∧ m = m' ∧ e = e' := by
  have hthen : (compare e e').then (compare m m') = .eq → m = m' ∧ e = e' := by
    intro ht
    have := Ordering.then_eq_eq.1 ht
    exact ⟨Nat.compare_eq_eq.1 this.2, Int.compare_eq_eq.1 this.1⟩
  cases s with
  | negative =>
    cases s' with
    | negative =>
      simp only [UnpackedFloat.compare, Option.some.injEq, Ordering.swap_eq_eq] at hc
      exact ⟨rfl, hthen hc⟩
    | positive => simp [UnpackedFloat.compare] at hc
  | positive =>
    cases s' with
    | negative => simp [UnpackedFloat.compare] at hc
    | positive =>
      simp only [UnpackedFloat.compare, Option.some.injEq] at hc
      exact ⟨rfl, hthen hc⟩

theorem compare_eq_cases {x y : UnpackedFloat} (h : x.compare y = some .eq) :
    (∃ s s', x = .zero s ∧ y = .zero s') ∨ (∃ s, x = .infinity s ∧ y = .infinity s) ∨
      ∃ s m e h h', x = .finite s m e h ∧ y = .finite s m e h' := by
  cases x with
  | notANumber => cases h
  | infinity s =>
    cases y with
    | notANumber => cases h
    | infinity s' =>
      refine .inr (.inl ⟨s, rfl, ?_⟩)
      cases s <;> cases s' <;> first | rfl | cases h
    | zero s' => cases s <;> cases h
    | finite s' m' e' hm' => cases s <;> cases h
  | zero s =>
    cases y with
    | notANumber => cases h
    | infinity s' => cases s' <;> cases h
    | zero s' => exact .inl ⟨s, s', rfl, rfl⟩
    | finite s' m' e' hm' => cases s' <;> cases h
  | finite s m e hm =>
    cases y with
    | notANumber => cases s <;> cases h
    | infinity s' => cases s' <;> cases s <;> cases h
    | zero s' => cases s <;> cases h
    | finite s' m' e' hm' =>
      obtain ⟨rfl, rfl, rfl⟩ := eq_of_compare_finite h
      exact .inr (.inr ⟨s, m, e, hm, hm', rfl, rfl⟩)

/-- `==` on floats. -/
def wordEq (b c : UInt32) : Bool := (unpackWord b).beq (unpackWord c)

/-- The words of `0.0` and `-0.0`. -/
def IsZeroWord (b : UInt32) : Prop := b = 0x00000000 ∨ b = 0x80000000

theorem isZeroWord_of_unpack {b : UInt32} {s : Sign} (h : unpackWord b = .zero s) :
    IsZeroWord b := by
  obtain ⟨hs, he, hm⟩ := parts_of_zero h
  cases s with
  | positive => exact .inl (word_ext (ofBitVec_inj (hs.trans rfl)) he hm)
  | negative => exact .inr (word_ext (ofBitVec_inj (hs.trans rfl)) he hm)

/-- **Floats that compare equal** are the same word, unless both are zeros. -/
theorem eq_of_wordEq {b c : UInt32} (h : wordEq b c = true) :
    b = c ∨ IsZeroWord b ∧ IsZeroWord c := by
  have hc : (unpackWord b).compare (unpackWord c) = some .eq := eq_of_beq h
  rcases compare_eq_cases hc with ⟨s, s', h1, h2⟩ | ⟨s, h1, h2⟩ | ⟨s, m, e, hm, hm', h1, h2⟩
  · exact .inr ⟨isZeroWord_of_unpack h1, isZeroWord_of_unpack h2⟩
  · obtain ⟨hs, he, hm⟩ := parts_of_infinity h1
    obtain ⟨hs', he', hm'⟩ := parts_of_infinity h2
    exact .inl (word_ext (ofBitVec_inj (hs.trans hs'.symm)) (he.trans he'.symm)
      (hm.trans hm'.symm))
  · obtain ⟨hs, hm, he⟩ := parts_of_finite h1
    obtain ⟨hs', hm', he'⟩ := parts_of_finite h2
    have hb := (mantissaOf b).isLt
    have hc := (mantissaOf c).isLt
    have hexp : exponentOf b = exponentOf c ∧ mantissaOf b = mantissaOf c := by
      by_cases h0 : exponentOf b = 0#8
      · by_cases h0' : exponentOf c = 0#8
        · simp only [h0, h0', if_true] at hm hm'
          exact ⟨h0.trans h0'.symm, BitVec.eq_of_toNat_eq (hm.symm.trans hm')⟩
        · simp only [h0, h0', if_true, if_false] at hm hm'
          omega
      · by_cases h0' : exponentOf c = 0#8
        · simp only [h0, h0', if_true, if_false] at hm hm'
          omega
        · simp only [h0, h0', if_false] at hm hm' he he'
          exact ⟨BitVec.eq_of_toNat_eq (by omega), BitVec.eq_of_toNat_eq (by omega)⟩
    exact .inl (word_ext (ofBitVec_inj (hs.trans hs'.symm)) hexp.1 hexp.2)

end Quirrel.Lib
