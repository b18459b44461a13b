import Mathlib

/-!
# Facts about the `Float32` model

`Float32.Model` is the logical model of IEEE `binary32` with round-to-nearest-even. Addition
commutes; converting an integer commutes with negation, except that there is only one integer zero;
so subtracting a converted integer is adding the converted negation (`sub_ofInt`), unless a negative
zero meets the integer zero (`sub_ofInt_zero_iff`).
-/

set_option autoImplicit false

namespace Quirrel.Lib

open Float.Model Float.Model.UnpackedFloat

/-! ## Signs -/

theorem sign_apply_neg (s : Sign) (n : Int) : (-s).apply n = -s.apply n := by
  cases s with
  | negative => exact (Int.neg_neg n).symm
  | positive => rfl

theorem sign_beq_comm (s t : Sign) : (s == t) = (t == s) := by
  cases s <;> cases t <;> rfl

theorem sign_eq_of_beq {s t : Sign} (h : (s == t) = true) : s = t := by
  cases s <;> cases t <;> first | rfl | exact absurd h (by decide)

/-! ## Unpacked floats -/

section Unpacked

variable (spec : Format)

theorem add_comm_unpacked (x y : UnpackedFloat) : x.add spec y = y.add spec x := by
  cases x with
  | notANumber => cases y <;> rfl
  | infinity s =>
    cases y with
    | infinity t =>
      simp only [UnpackedFloat.add, sign_beq_comm t s]
      by_cases h : (s == t) = true
      · rw [if_pos h, if_pos h, sign_eq_of_beq h]
      · rw [if_neg h, if_neg h]
    | notANumber => rfl
    | zero t => rfl
    | finite t m e hm => rfl
  | zero s =>
    cases y with
    | zero t =>
      simp only [UnpackedFloat.add, sign_beq_comm t s]
      by_cases h : (s == t) = true
      · rw [if_pos h, if_pos h, sign_eq_of_beq h]
      · rw [if_neg h, if_neg h]
    | notANumber => rfl
    | infinity t => rfl
    | finite t m e hm => rfl
  | finite s m e hm =>
    cases y with
    | finite t m' e' hm' =>
      simp only [UnpackedFloat.add]
      rw [Int.min_comm e' e, Int.add_comm]
    | notANumber => rfl
    | infinity t => rfl
    | zero t => rfl

/-- Subtraction adds the negation. -/
theorem sub_eq_add_neg_unpacked (x y : UnpackedFloat) : x.sub spec y = x.add spec y.neg := by
  cases x with
  | notANumber => cases y <;> rfl
  | infinity s => cases y <;> rfl
  | zero s => cases y <;> rfl
  | finite s m e hm =>
    cases y with
    | finite t m' e' hm' =>
      simp only [UnpackedFloat.sub, UnpackedFloat.add, UnpackedFloat.neg, sign_apply_neg,
        Int.sub_eq_add_neg]
    | notANumber => rfl
    | infinity t => rfl
    | zero t => rfl

theorem roundWithAccuracy_neg (s : Sign) (m : Nat) (e : Int) (a : Accuracy) :
    roundWithAccuracy spec (-s) m e a = (roundWithAccuracy spec s m e a).neg := by
  simp only [roundWithAccuracy]
  split
  · rfl
  · rfl

theorem round_neg (s : Sign) (m : Nat) (e : Int) :
    UnpackedFloat.round spec (-s) m e = (UnpackedFloat.round spec s m e).neg :=
  roundWithAccuracy_neg spec s _ _ _

/-- Rounding is symmetric around zero. -/
theorem normalize_neg {m : Int} (hm : m ≠ 0) (e : Int) (z : Sign) :
    UnpackedFloat.normalize spec (-m) e z = (UnpackedFloat.normalize spec m e z).neg := by
  rcases Int.lt_or_gt_of_ne hm with h | h
  · have h1 : compare m 0 = .lt := Int.compare_eq_lt.2 h
    have h2 : compare (-m) 0 = .gt := Int.compare_eq_gt.2 (by omega)
    simp only [UnpackedFloat.normalize, h1, h2]
    exact round_neg spec .negative _ e
  · have h1 : compare m 0 = .gt := Int.compare_eq_gt.2 h
    have h2 : compare (-m) 0 = .lt := Int.compare_eq_lt.2 (by omega)
    simp only [UnpackedFloat.normalize, h1, h2, Int.neg_neg]
    exact round_neg spec .positive _ e

/-! ## Packing -/

theorem unpackSign_packComponents (s : Sign) (e : BitVec spec.exponentBits)
    (m : BitVec spec.mantissaBitsWithoutImplicit) :
    unpackSign (packComponents spec s e m) = s.toBitVec := by
  apply BitVec.eq_of_getLsbD_eq
  intro i hi
  obtain rfl : i = 0 := by omega
  have hle : ¬ spec.mantissaBitsWithoutImplicit + spec.exponentBits
      < spec.mantissaBitsWithoutImplicit := by omega
  simp [unpackSign, packComponents, BitVec.getLsbD_append, BitVec.getElem_append, hle]

theorem ofBitVec_toBitVec (s : Sign) : Sign.ofBitVec s.toBitVec = s := by
  cases s <;> rfl

/-- The sign bit is the only one that a negation flips. -/
theorem unpack_packComponents_neg (s : Sign) (e : BitVec spec.exponentBits)
    (m : BitVec spec.mantissaBitsWithoutImplicit) :
    UnpackedFloat.unpack spec (packComponents spec (-s) e m)
      = (UnpackedFloat.unpack spec (packComponents spec s e m)).neg := by
  simp only [UnpackedFloat.unpack, unpackMantissa_packComponents, unpackExponent_packComponents,
    unpackSign_packComponents, ofBitVec_toBitVec]
  split
  · split <;> rfl
  · split
    · split <;> rfl
    · rfl

theorem unpack_packedNaN_neg :
    UnpackedFloat.unpack spec (packedNaN spec)
      = (UnpackedFloat.unpack spec (packedNaN spec)).neg := by
  have hm : (1#_ <<< (spec.mantissaBitsWithoutImplicit - 1) :
      BitVec spec.mantissaBitsWithoutImplicit) ≠ 0#_ := by
    intro h
    have hbit := congrArg (fun b => b.getLsbD (spec.mantissaBitsWithoutImplicit - 1)) h
    have := spec.hm
    simp at hbit
    omega
  simp only [UnpackedFloat.unpack, packedNaN, unpackMantissa_packComponents,
    unpackExponent_packComponents, if_pos, if_neg hm]
  rfl

theorem unpack_pack_neg (f : UnpackedFloat) :
    UnpackedFloat.unpack spec (UnpackedFloat.pack spec f.neg)
      = (UnpackedFloat.unpack spec (UnpackedFloat.pack spec f)).neg := by
  cases f with
  | notANumber => exact unpack_packedNaN_neg spec
  | infinity s => exact unpack_packComponents_neg spec s _ _
  | zero s => exact unpack_packComponents_neg spec s _ _
  | finite s m e hm =>
    simp only [UnpackedFloat.neg, UnpackedFloat.pack]
    split
    · exact unpack_packComponents_neg spec s _ _
    · split
      · exact unpack_packComponents_neg spec s _ _
      · exact unpack_packComponents_neg spec s _ _

end Unpacked

/-! ## `Float32.Model` -/

theorem float_add_comm (a b : Float32.Model) : a + b = b + a :=
  congrArg Float32.Model.pack (add_comm_unpacked _ a.unpack b.unpack)

/-- A nonzero integer converts to the negation of what its negation converts to. -/
theorem unpack_ofInt_neg {n : Int} (hn : n ≠ 0) :
    (Float32.Model.ofInt (-n)).unpack = (Float32.Model.ofInt n).unpack.neg := by
  have h : UnpackedFloat.ofInt Format.binary32 (-n) = (UnpackedFloat.ofInt Format.binary32 n).neg :=
    normalize_neg Format.binary32 hn 0 .positive
  show UnpackedFloat.unpack Format.binary32
      (UnpackedFloat.pack Format.binary32 (UnpackedFloat.ofInt Format.binary32 (-n))) = _
  rw [h]
  exact unpack_pack_neg Format.binary32 _

/-- Subtracting a nonzero integer is adding its negation. -/
theorem sub_ofInt (a : Float32.Model) {n : Int} (hn : n ≠ 0) :
    a - Float32.Model.ofInt n = a + Float32.Model.ofInt (-n) := by
  show Float32.Model.pack (a.unpack.sub _ _) = Float32.Model.pack (a.unpack.add _ _)
  rw [sub_eq_add_neg_unpacked, unpack_ofInt_neg hn]

/-- The integer zero converts to the positive zero, so the two differ on a negative zero only:
`-0.0 - 0` is `-0.0` and `-0.0 + 0` is `0.0`. -/
theorem sub_ofInt_zero_iff (a : Float32.Model) :
    a - Float32.Model.ofInt 0 = a + Float32.Model.ofInt (-0) ↔ a.unpack ≠ .zero .negative := by
  have h0 : (Float32.Model.ofInt 0).unpack = .zero .positive := rfl
  have hne : Float32.Model.pack (.zero .negative) ≠ Float32.Model.pack (.zero .positive) := by
    decide
  show Float32.Model.pack (a.unpack.sub _ _) = Float32.Model.pack (a.unpack.add _ _) ↔ _
  rw [Int.neg_zero, h0]
  cases hu : a.unpack with
  | notANumber => simp [UnpackedFloat.sub, UnpackedFloat.add]
  | infinity s => simp [UnpackedFloat.sub, UnpackedFloat.add]
  | zero s =>
    cases s with
    | negative => exact iff_of_false hne (fun h => h rfl)
    | positive => exact iff_of_true rfl (by simp)
  | finite s m e hm => simp [UnpackedFloat.sub, UnpackedFloat.add]

end Quirrel.Lib
