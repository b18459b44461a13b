import Mathlib.Data.Int.Order.Basic
import Mathlib.Data.List.Lex
import Quirrel.Lib.Float32
import Quirrel.Lib.FloatWord

/-!
# The order of `Float32` and rounded integers

The comparisons of `Float32.Model` follow a linear order on numbers (`float_lt_iff`,
`float_beq_iff`), given by `rank`: the class of the number, then its exponent and mantissa.
Converting an integer rounds to the nearest float and is monotone (`rank_ofInt_mono`).
-/

set_option autoImplicit false

namespace Quirrel.Lib

open Float.Model Float.Model.UnpackedFloat

/-! ## Ranks -/

/-- Numbers in canonical form, in the order of their values. A not-a-number has no place. -/
def rank : UnpackedFloat → List Int
  | .infinity .negative => [-2]
  | .finite .negative m e _ => [-1, -e, -m]
  | .zero _ => [0]
  | .finite .positive m e _ => [1, e, m]
  | .infinity .positive => [2]
  | .notANumber => []

theorem list_lt_iff {a b : Int} {l k : List Int} : a :: l < b :: k ↔ a < b ∨ a = b ∧ l < k :=
  List.cons_lt_cons_iff

/-- **Comparison follows the ranks.** -/
theorem compare_lt_iff {x y : UnpackedFloat} (hx : x ≠ .notANumber) (hy : y ≠ .notANumber) :
    x.compare y = some .lt ↔ rank x < rank y := by
  have hthen : ∀ {m m' : Nat} {e e' : Int}, (compare e e').then (compare m m') = .lt ↔
      e < e' ∨ e = e' ∧ (m : Int) < m' := by
    intro m m' e e'
    rw [Ordering.then_eq_lt, Int.compare_eq_lt, Int.compare_eq_eq, Nat.compare_eq_lt, Int.ofNat_lt]
  have hswap : ∀ {m m' : Nat} {e e' : Int}, (compare e e').then (compare m m') = .gt ↔
      -e < -e' ∨ -e = -e' ∧ -(m : Int) < -m' := by
    intro m m' e e'
    rw [Ordering.then_eq_gt, Int.compare_eq_gt, Int.compare_eq_eq, Nat.compare_eq_gt]
    omega
  cases x with
  | notANumber => exact absurd rfl hx
  | infinity s =>
    cases y with
    | notANumber => exact absurd rfl hy
    | infinity t => cases s <;> cases t <;> decide
    | zero t => cases s <;> cases t <;> simp [UnpackedFloat.compare, rank, list_lt_iff]
    | finite t m' e' hm' => cases s <;> cases t <;> simp [UnpackedFloat.compare, rank, list_lt_iff]
  | zero s =>
    cases y with
    | notANumber => exact absurd rfl hy
    | infinity t => cases s <;> cases t <;> simp [UnpackedFloat.compare, rank, list_lt_iff]
    | zero t => simp [UnpackedFloat.compare, rank]
    | finite t m' e' hm' => cases t <;> simp [UnpackedFloat.compare, rank, list_lt_iff]
  | finite s m e hm =>
    cases y with
    | notANumber => exact absurd rfl hy
    | infinity t => cases s <;> cases t <;> simp [UnpackedFloat.compare, rank, list_lt_iff]
    | zero t => cases s <;> simp [UnpackedFloat.compare, rank, list_lt_iff]
    | finite t m' e' hm' =>
      cases s <;> cases t
      · simp [UnpackedFloat.compare, rank, list_lt_iff, hswap]
      · simp [UnpackedFloat.compare, rank, list_lt_iff]
      · simp [UnpackedFloat.compare, rank, list_lt_iff]
      · simp [UnpackedFloat.compare, rank, list_lt_iff, hthen]

/-- Numbers that are no NaN compare equal when their ranks do. -/
theorem compare_eq_iff {x y : UnpackedFloat} (hx : x ≠ .notANumber) (hy : y ≠ .notANumber) :
    x.compare y = some .eq ↔ rank x = rank y := by
  constructor
  · intro h
    rcases compare_eq_cases h with ⟨s, s', rfl, rfl⟩ | ⟨s, rfl, rfl⟩ | ⟨s, m, e, _, _, rfl, rfl⟩
    · rfl
    · rfl
    · rfl
  · -- Two finite numbers of one sign are the only ones whose ranks have an exponent.
    intro h
    cases x with
    | notANumber => exact absurd rfl hx
    | infinity s =>
      cases s <;> cases y with
      | notANumber => exact absurd rfl hy
      | infinity t =>
        cases t <;> simp [rank] at h ⊢
        rfl
      | zero t => simp [rank] at h
      | finite t m' e' hm' => cases t <;> simp [rank] at h
    | zero s =>
      cases y with
      | notANumber => exact absurd rfl hy
      | infinity t => cases t <;> simp [rank] at h
      | zero t => rfl
      | finite t m' e' hm' => cases t <;> simp [rank] at h
    | finite s m e hm =>
      cases s <;> cases y with
      | notANumber => exact absurd rfl hy
      | infinity t => cases t <;> simp [rank] at h
      | zero t => simp [rank] at h
      | finite t m' e' hm' =>
        cases t <;> simp [rank] at h
        obtain ⟨he, hm⟩ := h
        have hmm : m = m' := by omega
        simp [UnpackedFloat.compare, he, hmm]

/-! ## The comparisons of floats -/

theorem unpack_ne_nan {a : Float32.Model} (h : a.isNaN = false) : a.unpack ≠ .notANumber := by
  intro hu
  rw [Float32.Model.isNaN, hu] at h
  cases h

/-- Floats that are no NaN are ordered by their ranks. -/
theorem float_lt_iff {a b : Float32.Model} (ha : a.isNaN = false) (hb : b.isNaN = false) :
    a < b ↔ rank a.unpack < rank b.unpack := by
  rw [← compare_lt_iff (unpack_ne_nan ha) (unpack_ne_nan hb)]
  show (a.unpack.compare b.unpack == some .lt) = true ↔ _
  rw [beq_iff_eq]

/-- Floats that are no NaN are equal by their ranks. -/
theorem float_beq_iff {a b : Float32.Model} (ha : a.isNaN = false) (hb : b.isNaN = false) :
    (a == b) = true ↔ rank a.unpack = rank b.unpack := by
  rw [← compare_eq_iff (unpack_ne_nan ha) (unpack_ne_nan hb)]
  show (a.unpack.compare b.unpack == some .eq) = true ↔ _
  rw [beq_iff_eq]

/-! ## Rounding a mantissa -/

/-- A mantissa with its residual bits as one number. -/
def extendedValue (em : ExtendedMantissa) : Nat :=
  4 * em.mantissa + 2 * em.roundBit.toNat + em.stickyBit.toNat

/-- A shift by one keeps the order. -/
theorem shiftRightOne_mono {a b : ExtendedMantissa} (h : extendedValue a ≤ extendedValue b) :
    extendedValue a.shiftRightOne ≤ extendedValue b.shiftRightOne := by
  obtain ⟨m, r, s⟩ := a
  obtain ⟨m', r', s'⟩ := b
  have hbit : ∀ n : Nat, (n % 2 != 0).toNat = n % 2 := by
    intro n
    rcases Nat.mod_two_eq_zero_or_one n with h | h <;> rw [h] <;> rfl
  simp only [extendedValue, ExtendedMantissa.shiftRightOne, hbit] at h ⊢
  cases r <;> cases s <;> cases r' <;> cases s' <;> simp at h ⊢ <;> omega

/-- A shift keeps the order. -/
theorem repeat_shiftRightOne_mono {a b : ExtendedMantissa} (k : Nat)
    (h : extendedValue a ≤ extendedValue b) :
    extendedValue (a >>> k) ≤ extendedValue (b >>> k) := by
  induction k with
  | zero => exact h
  | succ k ih => exact shiftRightOne_mono ih

theorem mantissa_shiftRight (a : ExtendedMantissa) (k : Nat) :
    (a >>> k).mantissa = a.mantissa / 2 ^ k := by
  induction k with
  | zero => exact (Nat.div_one _).symm
  | succ k ih =>
    show (a >>> k).mantissa / 2 = _
    rw [ih, Nat.div_div_eq_div_mul, Nat.pow_succ]

/-- Rounding keeps the order. -/
theorem roundedMantissa_mono {a b : ExtendedMantissa} (h : extendedValue a ≤ extendedValue b) :
    a.roundedMantissa ≤ b.roundedMantissa := by
  obtain ⟨m, r, s⟩ := a
  obtain ⟨m', r', s'⟩ := b
  simp only [extendedValue] at h
  cases r <;> cases s <;> cases r' <;> cases s' <;>
    simp [ExtendedMantissa.roundedMantissa, ExtendedMantissa.accuracy,
      Accuracy.roundToNearestEven] at h ⊢ <;> omega

/-- Rounding goes to one of the two neighbours. -/
theorem roundedMantissa_bounds (a : ExtendedMantissa) :
    a.mantissa ≤ a.roundedMantissa ∧ a.roundedMantissa ≤ a.mantissa + 1 := by
  obtain ⟨m, r, s⟩ := a
  cases r <;> cases s <;>
    simp [ExtendedMantissa.roundedMantissa, ExtendedMantissa.accuracy,
      Accuracy.roundToNearestEven]
  omega

/-! ## Rounding an integer -/

/-- The 24-bit mantissa nearest to `n`; it is `2 ^ 24` when rounding up carries. -/
def roundedNat (n : Nat) : Nat :=
  ((⟨n <<< (23 - n.log2), false, false⟩ : ExtendedMantissa) >>> (n.log2 - 23)).roundedMantissa

/-- A positive number scaled to 24 bits. -/
theorem scaled_bounds {n : Nat} (hn : 0 < n) :
    2 ^ 23 ≤ n <<< (23 - n.log2) / 2 ^ (n.log2 - 23) ∧
      n <<< (23 - n.log2) / 2 ^ (n.log2 - 23) < 2 ^ 24 := by
  have hlo := Nat.log2_self_le (Nat.ne_of_gt hn)
  have hhi := @Nat.lt_log2_self n
  rw [Nat.shiftLeft_eq]
  generalize n.log2 = L at hlo hhi ⊢
  rcases Nat.le_total L 23 with hL | hL
  · have h0 : L - 23 = 0 := by omega
    have h23 : 2 ^ L * 2 ^ (23 - L) = 2 ^ 23 := by
      rw [← Nat.pow_add, show L + (23 - L) = 23 by omega]
    have h24 : 2 ^ (L + 1) * 2 ^ (23 - L) = 2 ^ 24 := by
      rw [← Nat.pow_add, show L + 1 + (23 - L) = 24 by omega]
    rw [h0, Nat.pow_zero, Nat.div_one, ← h23, ← h24]
    exact ⟨Nat.mul_le_mul_right _ hlo, Nat.mul_lt_mul_of_pos_right hhi (Nat.two_pow_pos _)⟩
  · have h0 : 23 - L = 0 := by omega
    have h23 : 2 ^ L = 2 ^ 23 * 2 ^ (L - 23) := by
      rw [← Nat.pow_add, show 23 + (L - 23) = L by omega]
    have h24 : 2 ^ (L + 1) = 2 ^ 24 * 2 ^ (L - 23) := by
      rw [← Nat.pow_add, show 24 + (L - 23) = L + 1 by omega]
    rw [h0, Nat.pow_zero, Nat.mul_one]
    rw [h23] at hlo
    rw [h24] at hhi
    exact ⟨(Nat.le_div_iff_mul_le (Nat.two_pow_pos _)).2 hlo,
      (Nat.div_lt_iff_lt_mul (Nat.two_pow_pos _)).2 hhi⟩

/-- A positive number rounded to 24 bits. -/
theorem roundedNat_bounds {n : Nat} (hn : 0 < n) :
    2 ^ 23 ≤ roundedNat n ∧ roundedNat n ≤ 2 ^ 24 := by
  have hb := roundedMantissa_bounds
    ((⟨n <<< (23 - n.log2), false, false⟩ : ExtendedMantissa) >>> (n.log2 - 23))
  rw [mantissa_shiftRight] at hb
  have hs := scaled_bounds hn
  exact ⟨Nat.le_trans hs.1 hb.1, Nat.le_trans hb.2 hs.2⟩

theorem log2_scaled {n : Nat} (hn : 0 < n) :
    (n <<< (23 - n.log2)).log2 = n.log2 + (23 - n.log2) := by
  generalize hk : 23 - n.log2 = k
  clear hk
  have hlo := Nat.log2_self_le (Nat.ne_of_gt hn)
  have hhi := @Nat.lt_log2_self n
  rw [Nat.shiftLeft_eq, Nat.log2_eq_iff (Nat.ne_of_gt (Nat.mul_pos hn (Nat.two_pow_pos k)))]
  constructor
  · rw [Nat.pow_add]
    exact Nat.mul_le_mul_right _ hlo
  · rw [Nat.add_right_comm, Nat.pow_add]
    exact Nat.mul_lt_mul_of_pos_right hhi (Nat.two_pow_pos _)

theorem binary32_targetExponent (t : Int) :
    Format.binary32.targetExponent t = max (t - 24) (-149) := by
  rw [Format.targetExponent]
  rfl

/-- Rounding keeps 24 bits; a carry out of them makes the next power of two. -/
theorem round_nat (s : Sign) {n : Nat} (hn : 0 < n) :
    UnpackedFloat.round Format.binary32 s n 0 =
      if roundedNat n = 2 ^ 24 then .finite s (2 ^ 23) (n.log2 - 22) (Nat.two_pow_pos 23)
      else .finite s (roundedNat n) (n.log2 - 23)
        (Nat.lt_of_lt_of_le (Nat.two_pow_pos 23) (roundedNat_bounds hn).1) := by
  have hbounds := roundedNat_bounds hn
  -- the mantissa is shifted twice: first to 24 bits, and again when the rounding has carried
  have ht : Format.binary32.targetExponent (totalExponent n 0) = n.log2 - 23 := by
    rw [binary32_targetExponent, totalExponent]
    omega
  have hdec : decreaseExponent n 0 (n.log2 - 23)
      = (n <<< (23 - n.log2), -((23 - n.log2 : Nat) : Int)) := by
    have : ((0 : Int) - (n.log2 - 23)).toNat = 23 - n.log2 := by omega
    rw [decreaseExponent, this]
    simp
  have ht' : (Format.binary32.targetExponent
      (totalExponent (n <<< (23 - n.log2)) (-((23 - n.log2 : Nat) : Int)))
        - -((23 - n.log2 : Nat) : Int)).toNat = n.log2 - 23 := by
    rw [binary32_targetExponent, totalExponent, log2_scaled hn]
    omega
  have hfirst : shiftToTargetExponent Format.binary32 (n <<< (23 - n.log2))
      (-((23 - n.log2 : Nat) : Int)) .exact
        = ((⟨n <<< (23 - n.log2), false, false⟩ : ExtendedMantissa) >>> (n.log2 - 23),
          (n.log2 : Int) - 23) := by
    simp only [shiftToTargetExponent, shiftToExponent, ht', ExtendedMantissa.ofMantissaAndAccuracy]
    congr 1
    omega
  have hrounded : ((⟨n <<< (23 - n.log2), false, false⟩ : ExtendedMantissa)
      >>> (n.log2 - 23)).roundedMantissa = roundedNat n := rfl
  simp only [UnpackedFloat.round, ht, hdec, roundWithAccuracy, hfirst, hrounded]
  have ht2 : (Format.binary32.targetExponent (totalExponent (roundedNat n) ((n.log2 : Int) - 23))
      - ((n.log2 : Int) - 23)).toNat = (roundedNat n).log2 - 23 := by
    rw [binary32_targetExponent, totalExponent]
    omega
  -- rounding up can carry into one more bit
  by_cases hcarry : roundedNat n = 2 ^ 24
  · have hsecond : shiftToTargetExponent Format.binary32 (roundedNat n) ((n.log2 : Int) - 23) .exact
        = (⟨2 ^ 23, false, false⟩, (n.log2 : Int) - 22) := by
      simp only [shiftToTargetExponent, shiftToExponent, ht2]
      rw [hcarry, Nat.log2_two_pow]
      congr 1
      omega
    simp only [hsecond, if_pos hcarry]
    rfl
  · have hlog : (roundedNat n).log2 = 23 :=
      (Nat.log2_eq_iff (by omega)).2 ⟨hbounds.1, by omega⟩
    have hsecond : shiftToTargetExponent Format.binary32 (roundedNat n) ((n.log2 : Int) - 23) .exact
        = (⟨roundedNat n, false, false⟩, (n.log2 : Int) - 23) := by
      simp only [shiftToTargetExponent, shiftToExponent, ht2, hlog]
      congr 1
      omega
    have hpos : roundedNat n ≠ 0 := by omega
    simp only [hsecond, if_neg hcarry]
    exact dif_neg hpos

/-- A normal number survives packing. -/
theorem unpack_pack_normal (s : Sign) {m : Nat} {e : Int} (hm : 2 ^ 23 ≤ m ∧ m < 2 ^ 24)
    (he : -149 ≤ e ∧ e ≤ 104) (h : 0 < m) :
    UnpackedFloat.unpack Format.binary32 (UnpackedFloat.pack Format.binary32 (.finite s m e h))
      = .finite s m e h := by
  have hbias : Format.binary32.exponentBias = 127 := rfl
  have hlog : m.log2 + 1 = Format.binary32.mantissaBits := by
    rw [(Nat.log2_eq_iff (Nat.ne_of_gt h)).2 hm]
    rfl
  have hexp : (e + (127 : Nat) + (23 : Nat)).toNat = (e + 150).toNat := by
    omega
  have hfits : ¬ 2 ^ 8 ≤ (e + 150).toNat + 1 := by omega
  have hne : BitVec.ofNat 8 (e + 150).toNat ≠ -1#8 := by
    intro hc
    have := congrArg BitVec.toNat hc
    rw [BitVec.toNat_ofNat, Nat.mod_eq_of_lt (by omega)] at this
    simp at this
    omega
  have hne0 : BitVec.ofNat 8 (e + 150).toNat ≠ 0#8 := by
    intro hc
    have := congrArg BitVec.toNat hc
    rw [BitVec.toNat_ofNat, Nat.mod_eq_of_lt (by omega)] at this
    simp at this
    omega
  have hmant : (1#1 ++ BitVec.ofNat 23 m).toNat = m := by
    rw [BitVec.toNat_append, ← Nat.shiftLeft_add_eq_or_of_lt (BitVec.ofNat 23 m).isLt,
      BitVec.toNat_ofNat, Nat.shiftLeft_eq]
    simp
    omega
  have hexpo : ((BitVec.ofNat 8 (e + 150).toNat).toNat : Int) - ((127 : Nat) + (23 : Nat)) = e := by
    rw [BitVec.toNat_ofNat, Nat.mod_eq_of_lt (by omega)]
    omega
  simp only [UnpackedFloat.pack, hbias, hexp, hfits, if_false, hlog, if_true,
    UnpackedFloat.unpack, unpackMantissa_packComponents, unpackExponent_packComponents,
    unpackSign_packComponents, ofBitVec_toBitVec, hne, hne0, hmant, hexpo]

/-- Exponent and mantissa of the float nearest to `n`. -/
def roundedParts (n : Nat) : Int × Nat :=
  if roundedNat n = 2 ^ 24 then (n.log2 - 22, 2 ^ 23) else (n.log2 - 23, roundedNat n)

/-- Exponent and mantissa of a rounded number are in range. -/
theorem roundedParts_bounds {n : Nat} (hn : 0 < n) (hlt : n < 2 ^ 64) :
    (-149 ≤ (roundedParts n).1 ∧ (roundedParts n).1 ≤ 104) ∧
      2 ^ 23 ≤ (roundedParts n).2 ∧ (roundedParts n).2 < 2 ^ 24 := by
  have hlog : n.log2 < 64 := (Nat.log2_lt (Nat.ne_of_gt hn)).2 hlt
  have hb := roundedNat_bounds hn
  simp only [roundedParts]
  split
  · simp only
    omega
  · simp only
    omega

/-- The float of a number has its rounded parts. -/
theorem unpack_ofNat (s : Sign) {n : Nat} (hn : 0 < n) (hlt : n < 2 ^ 64) :
    ∃ h, UnpackedFloat.unpack Format.binary32
      (UnpackedFloat.pack Format.binary32 (UnpackedFloat.round Format.binary32 s n 0))
        = .finite s (roundedParts n).2 (roundedParts n).1 h := by
  obtain ⟨he, hm⟩ := roundedParts_bounds hn hlt
  have hpos : 0 < (roundedParts n).2 := by omega
  refine ⟨hpos, ?_⟩
  have hround : UnpackedFloat.round Format.binary32 s n 0
      = .finite s (roundedParts n).2 (roundedParts n).1 hpos := by
    rw [round_nat s hn]
    by_cases hcarry : roundedNat n = 2 ^ 24
    · simp only [roundedParts, if_pos hcarry]
    · simp only [roundedParts, if_neg hcarry]
  rw [hround]
  exact unpack_pack_normal s hm he hpos

/-- A larger number has a larger exponent, or as large a mantissa under the same one. -/
theorem roundedParts_mono {n n' : Nat} (hn : 0 < n) (h : n ≤ n') :
    (roundedParts n).1 < (roundedParts n').1 ∨
      (roundedParts n).1 = (roundedParts n').1 ∧ (roundedParts n).2 ≤ (roundedParts n').2 := by
  have hn' : 0 < n' := Nat.lt_of_lt_of_le hn h
  have hb := roundedNat_bounds hn
  have hb' := roundedNat_bounds hn'
  have hlog : n.log2 ≤ n'.log2 :=
    (Nat.le_log2 (Nat.ne_of_gt hn')).2 (Nat.le_trans (Nat.log2_self_le (Nat.ne_of_gt hn)) h)
  rcases Nat.lt_or_eq_of_le hlog with hlt | heq
  · simp only [roundedParts]
    split <;> split <;> simp only <;> omega
  · have hmono : roundedNat n ≤ roundedNat n' := by
      apply roundedMantissa_mono
      rw [heq]
      apply repeat_shiftRightOne_mono
      have : n <<< (23 - n'.log2) ≤ n' <<< (23 - n'.log2) := by
        rw [Nat.shiftLeft_eq, Nat.shiftLeft_eq]
        exact Nat.mul_le_mul_right _ h
      simp only [extendedValue]
      omega
    simp only [roundedParts, heq]
    split <;> split
    · exact .inr ⟨rfl, Nat.le_refl _⟩
    · omega
    · omega
    · exact .inr ⟨rfl, hmono⟩

/-! ## Converted integers -/

/-- The float of a positive integer. -/
theorem unpack_ofInt_pos {n : Nat} (hn : 0 < n) (hlt : n < 2 ^ 64) :
    ∃ h, (Float32.Model.ofInt n).unpack
      = .finite .positive (roundedParts n).2 (roundedParts n).1 h := by
  have hc : compare (n : Int) 0 = .gt := Int.compare_eq_gt.2 (by omega)
  have hof : UnpackedFloat.ofInt Format.binary32 n
      = UnpackedFloat.round Format.binary32 .positive n 0 := by
    simp only [UnpackedFloat.ofInt, UnpackedFloat.normalize, hc, Int.toNat_natCast]
  show ∃ h, UnpackedFloat.unpack Format.binary32
    (UnpackedFloat.pack Format.binary32 (UnpackedFloat.ofInt Format.binary32 n)) = _
  rw [hof]
  exact unpack_ofNat .positive hn hlt

/-- The float of a negative integer. -/
theorem unpack_ofInt_negative {n : Nat} (hn : 0 < n) (hlt : n < 2 ^ 64) :
    ∃ h, (Float32.Model.ofInt (-n)).unpack
      = .finite .negative (roundedParts n).2 (roundedParts n).1 h := by
  obtain ⟨h, hu⟩ := unpack_ofInt_pos hn hlt
  exact ⟨h, (unpack_ofInt_neg (by omega)).trans (by rw [hu]; rfl)⟩

/-- An integer of the 64-bit range converts to a number. -/
theorem isNaN_ofInt {i : Int} (h : i.natAbs < 2 ^ 64) : (Float32.Model.ofInt i).isNaN = false := by
  rcases Int.lt_trichotomy i 0 with hi | rfl | hi
  · obtain ⟨hpos, hu⟩ := unpack_ofInt_negative (n := i.natAbs) (by omega) h
    rw [show -((i.natAbs : Nat) : Int) = i by omega] at hu
    rw [Float32.Model.isNaN, hu]
    rfl
  · rfl
  · obtain ⟨hpos, hu⟩ := unpack_ofInt_pos (n := i.natAbs) (by omega) h
    rw [show ((i.natAbs : Nat) : Int) = i by omega] at hu
    rw [Float32.Model.isNaN, hu]
    rfl

/-- The float of a 64-bit integer is finite. -/
theorem isFinite_ofInt {i : Int} (h : i.natAbs < 2 ^ 64) : (Float32.Model.ofInt i).isFinite := by
  rcases Int.lt_trichotomy i 0 with hi | rfl | hi
  · obtain ⟨hpos, hu⟩ := unpack_ofInt_negative (n := i.natAbs) (by omega) h
    rw [show -((i.natAbs : Nat) : Int) = i by omega] at hu
    rw [Float32.Model.isFinite, hu]
    rfl
  · rfl
  · obtain ⟨hpos, hu⟩ := unpack_ofInt_pos (n := i.natAbs) (by omega) h
    rw [show ((i.natAbs : Nat) : Int) = i by omega] at hu
    rw [Float32.Model.isFinite, hu]
    rfl

/-- The rank of a converted integer, by its sign. -/
theorem rank_ofInt_cases {i : Int} (h : i.natAbs < 2 ^ 64) :
    (i < 0 ∧ rank (Float32.Model.ofInt i).unpack
      = [-1, -(roundedParts i.natAbs).1, -(roundedParts i.natAbs).2]) ∨
    (i = 0 ∧ rank (Float32.Model.ofInt i).unpack = [0]) ∨
    (0 < i ∧ rank (Float32.Model.ofInt i).unpack
      = [1, (roundedParts i.natAbs).1, (roundedParts i.natAbs).2]) := by
  rcases Int.lt_trichotomy i 0 with hi | rfl | hi
  · obtain ⟨hpos, hu⟩ := unpack_ofInt_negative (n := i.natAbs) (by omega) h
    rw [show -((i.natAbs : Nat) : Int) = i by omega] at hu
    exact .inl ⟨hi, by rw [hu]; rfl⟩
  · exact .inr (.inl ⟨rfl, rfl⟩)
  · obtain ⟨hpos, hu⟩ := unpack_ofInt_pos (n := i.natAbs) (by omega) h
    rw [show ((i.natAbs : Nat) : Int) = i by omega] at hu
    exact .inr (.inr ⟨hi, by rw [hu]; rfl⟩)

/-- **Rounding is monotone.** -/
theorem rank_ofInt_mono {i j : Int} (hi : i.natAbs < 2 ^ 64) (hj : j.natAbs < 2 ^ 64)
    (h : i ≤ j) : ¬ rank (Float32.Model.ofInt j).unpack < rank (Float32.Model.ofInt i).unpack := by
  rcases rank_ofInt_cases hi with ⟨si, ri⟩ | ⟨si, ri⟩ | ⟨si, ri⟩ <;>
    rcases rank_ofInt_cases hj with ⟨sj, rj⟩ | ⟨sj, rj⟩ | ⟨sj, rj⟩ <;> rw [ri, rj]
  · -- Two negative numbers: the magnitudes are the other way round.
    have := @roundedParts_mono j.natAbs i.natAbs (by omega) (by omega)
    simp only [list_lt_iff, List.lt_irrefl, and_false, or_false]
    omega
  · simp [list_lt_iff]
  · simp [list_lt_iff]
  · omega
  · simp
  · simp [list_lt_iff]
  · omega
  · omega
  · have := @roundedParts_mono i.natAbs j.natAbs (by omega) (by omega)
    simp only [list_lt_iff, List.lt_irrefl, and_false, or_false]
    omega

end Quirrel.Lib
