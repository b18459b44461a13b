import Mathlib.Data.List.TakeWhile
import Quirrel.Vm.Compare

/-!
# The order of comparison

Which values `ObjCmp` compares without a metamethod, and in which order. Two integers are ordered
by their values and all other values by a key, in which an integer stands for the float that it
rounds to. So the strict order is transitive; two integers that round to one float both compare
equal to it.
-/

set_option autoImplicit false

namespace Quirrel.Vm

open Quirrel.Lib

/-! ## What compares -/

/-- The value is not a not-a-number. -/
def SQObject.NotNaN (o : SQObject) : Prop := ∀ f, o = .float f → f.isNaN = false

/-- Whether the object is an integer. -/
def SQObject.isInteger : SQObject → Bool
  | .integer _ => true
  | _ => false

/-- The comparisons that succeed without a metamethod. -/
inductive Compared : SQObject → SQObject → Int → Prop where
  | same (o : SQObject) : Compared o o 0
  | nullLeft {o : SQObject} (h : o ≠ .null) : Compared .null o (-1)
  | nullRight {o : SQObject} (h : o ≠ .null) : Compared o .null 1
  | integers {i j : SQInteger} (h : i ≠ j) :
      Compared (.integer i) (.integer j) (if i.slt j then -1 else 1)
  | intFloat (i : SQInteger) (g : SQFloat) :
      Compared (.integer i) (.float g) (cmpFloat (intToFloat i) g)
  | floatInt (f : SQFloat) (j : SQInteger) :
      Compared (.float f) (.integer j) (cmpFloat f (intToFloat j))
  | floats (f g : SQFloat) : Compared (.float f) (.float g) (cmpFloat f g)
  | bools {b c : Bool} (h : b ≠ c) :
      Compared (.bool b) (.bool c) (if b.toNat < c.toNat then -1 else 1)
  | strings {s t : List UInt8} (h : s ≠ t) : Compared (.string s) (.string t) (strcmp s t)

/-- `ObjCmp` tests two floats in the other order than the opcodes for a literal. -/
theorem cmpFloat_eq (f g : SQFloat) :
    (if f < g then -1 else if (f == g) = true then 0 else 1) = cmpFloat f g := by
  have hexcl : f < g → (f == g) ≠ true := by
    intro hlt heq
    have h1 : f.unpack.compare g.unpack = some .lt := eq_of_beq hlt
    have h2 : f.unpack.compare g.unpack = some .eq := eq_of_beq heq
    rw [h1] at h2
    cases h2
  rw [cmpFloat]
  by_cases hlt : f < g
  · rw [if_pos hlt, if_neg (hexcl hlt), if_pos hlt]
  · rw [if_neg hlt, if_neg hlt]

variable {vm : VmOps}

/-- An object is equal to itself. -/
theorem objCmp_self (o : SQObject) : vm.objCmp o o = .value 0 := by
  rw [VmOps.objCmp, if_pos rfl, if_pos rfl]

/-- The comparison within one type. -/
theorem compared_of_sameType {a b : SQObject} {r : Int} (hne : a ≠ b)
    (h : vm.objCmpSameType a b = .value r) : Compared a b r := by
  unfold VmOps.objCmpSameType at h
  split at h
  · cases h
    exact .strings fun hs => hne (by rw [hs])
  · cases h
    exact .integers fun hi => hne (by rw [hi])
  · cases h
    exact .bools fun hb => hne (by rw [hb])
  · cases h
    rw [cmpFloat_eq]
    exact .floats _ _
  · split at h <;> cases h

/-- The comparison across types. -/
theorem compared_of_otherType {a b : SQObject} {r : Int} (ht : a.sqType ≠ b.sqType)
    (h : objCmpOtherType a b = .value r) : Compared a b r := by
  unfold objCmpOtherType at h
  split at h
  · cases h
    exact .intFloat _ _
  · cases h
    exact .floatInt _ _
  · cases h
    exact .nullLeft fun hb => ht (by rw [hb])
  · cases h
    exact .nullRight fun ha => ht (by rw [ha])
  · cases h

/-- **Inversion.** A comparison that succeeds without a metamethod is one of these. -/
theorem compared_of_objCmp {a b : SQObject} {r : Int} (h : vm.objCmp a b = .value r) :
    Compared a b r := by
  rw [VmOps.objCmp] at h
  split at h
  · split at h
    · rename_i heq
      cases h
      cases heq
      exact .same a
    · rename_i hne
      exact compared_of_sameType hne h
  · rename_i ht
    exact compared_of_otherType ht h

/-! ## Strings -/

/-- The bytes that `strcmp` reads. -/
def cBytes (s : List UInt8) : List Int := (s.takeWhile (· ≠ 0)).map fun b => (b.toNat : Int)

theorem cBytes_cons_zero (s : List UInt8) : cBytes (0 :: s) = [] := rfl

theorem cBytes_cons {b : UInt8} (h : b ≠ 0) (s : List UInt8) :
    cBytes (b :: s) = (b.toNat : Int) :: cBytes s := by
  simp [cBytes, h]

theorem toNat_pos {b : UInt8} (h : b ≠ 0) : 0 < b.toNat := by
  apply Nat.pos_of_ne_zero
  intro h0
  exact h (UInt8.toNat_inj.1 h0)

/-- `strcmp` orders the bytes that it reads lexicographically. -/
theorem strcmp_sign (s t : List UInt8) :
    (strcmp s t < 0 ↔ cBytes s < cBytes t) ∧ (0 < strcmp s t ↔ cBytes t < cBytes s) := by
  -- both strings are read up to their first zero byte
  induction s generalizing t with
  | nil =>
    cases t with
    | nil => simp [strcmp]
    | cons b bs =>
      by_cases hb : b = 0
      · subst hb
        simp [strcmp, cBytes]
      · have := toNat_pos hb
        rw [cBytes_cons hb]
        simp [strcmp, cBytes]
        omega
  | cons a as ih =>
    cases t with
    | nil =>
      by_cases ha : a = 0
      · subst ha
        simp [strcmp, cBytes]
      · have := toNat_pos ha
        rw [cBytes_cons ha]
        simp [strcmp, cBytes]
        omega
    | cons b bs =>
      -- equal bytes go on, and the first different ones decide
      by_cases hab : a = b
      · subst hab
        by_cases ha : a = 0
        · subst ha
          simp [strcmp, cBytes_cons_zero]
        · rw [cBytes_cons ha, cBytes_cons ha, strcmp, if_pos rfl, if_neg ha, list_lt_iff,
            list_lt_iff, (ih bs).1, (ih bs).2]
          simp
      · have hne : a.toNat ≠ b.toNat := fun h => hab (UInt8.toNat_inj.1 h)
        rw [strcmp, if_neg hab]
        by_cases ha : a = 0
        · subst ha
          have := toNat_pos (Ne.symm hab)
          rw [cBytes_cons_zero, cBytes_cons (Ne.symm hab)]
          simp
          omega
        · by_cases hb : b = 0
          · subst hb
            have := toNat_pos ha
            rw [cBytes_cons_zero, cBytes_cons ha]
            simp
            omega
          · rw [cBytes_cons ha, cBytes_cons hb, list_lt_iff, list_lt_iff]
            omega

/-! ## Keys -/

/-- The place of a value among the others of its kind; an integer stands where the float that it
rounds to stands, and null below everything. -/
def SQObject.sortKey : SQObject → List Int
  | .null => []
  | .integer i => rank (intToFloat i).unpack
  | .float f => rank f.unpack
  | .bool b => [b.toNat]
  | .string s => 0 :: cBytes s
  | .ref _ addr => [addr]

/-- `a` is smaller than `b`. -/
def Below (a b : SQObject) : Prop :=
  match a, b with
  | .integer i, .integer j => i.toInt < j.toInt
  | a, b => a.sortKey < b.sortKey

theorem natAbs_toInt_lt (i : SQInteger) : i.toInt.natAbs < 2 ^ 64 := by
  have h1 := @BitVec.toInt_lt 64 i
  have h2 := @BitVec.le_toInt 64 i
  omega

/-- An integer never becomes a NaN. -/
theorem isNaN_intToFloat (i : SQInteger) : (intToFloat i).isNaN = false :=
  isNaN_ofInt (natAbs_toInt_lt i)

theorem nil_lt_rank {x : Float.Model.UnpackedFloat} (h : x ≠ .notANumber) : [] < rank x := by
  cases x with
  | notANumber => exact absurd rfl h
  | infinity s => cases s <;> simp [rank]
  | zero s => simp [rank]
  | finite s m e hm => cases s <;> simp [rank]

/-- Null is below everything else. -/
theorem nil_lt_sortKey {o : SQObject} (ho : o.NotNaN) (h : o ≠ .null) : [] < o.sortKey := by
  cases o with
  | null => exact absurd rfl h
  | integer i => exact nil_lt_rank (unpack_ne_nan (isNaN_intToFloat i))
  | float f => exact nil_lt_rank (unpack_ne_nan (ho f rfl))
  | bool b => simp [SQObject.sortKey]
  | string s => simp [SQObject.sortKey]
  | ref t addr => simp [SQObject.sortKey]

/-- But for two integers the order is that of the keys. -/
theorem below_of_key {a b : SQObject} (h : (a.isInteger && b.isInteger) = false) :
    Below a b ↔ a.sortKey < b.sortKey := by
  unfold Below
  split
  · cases h
  · rfl

/-- A smaller value has no larger key. -/
theorem key_of_below {a b : SQObject} (h : Below a b) : ¬ b.sortKey < a.sortKey := by
  unfold Below at h
  split at h
  · exact rank_ofInt_mono (natAbs_toInt_lt _) (natAbs_toInt_lt _) (Int.le_of_lt h)
  · exact lt_asymm h

/-- The comparison of floats follows their ranks. -/
theorem cmpFloat_sign {f g : SQFloat} (hf : f.isNaN = false) (hg : g.isNaN = false) :
    (cmpFloat f g < 0 ↔ rank f.unpack < rank g.unpack) ∧
      (0 < cmpFloat f g ↔ rank g.unpack < rank f.unpack) := by
  rw [cmpFloat]
  rcases lt_trichotomy (rank f.unpack) (rank g.unpack) with h | h | h
  · have hne : ¬ (f == g) = true := fun he => (ne_of_lt h) ((float_beq_iff hf hg).1 he)
    rw [if_neg hne, if_pos ((float_lt_iff hf hg).2 h)]
    simp [h, lt_asymm h]
  · rw [if_pos ((float_beq_iff hf hg).2 h), h]
    simp
  · have hne : ¬ (f == g) = true := fun he => (ne_of_gt h) ((float_beq_iff hf hg).1 he)
    rw [if_neg hne, if_neg fun hl => lt_asymm h ((float_lt_iff hf hg).1 hl)]
    simp [h, lt_asymm h]

/-- **The sign of a comparison** is the order of the values. -/
theorem Compared.sign {a b : SQObject} {r : Int} (h : Compared a b r) (ha : a.NotNaN)
    (hb : b.NotNaN) : (r < 0 ↔ Below a b) ∧ (0 < r ↔ Below b a) := by
  cases h with
  | same o =>
    have hirr : ¬ Below a a := by
      unfold Below
      split
      · exact Int.lt_irrefl _
      · exact lt_irrefl _
    simp [hirr]
  | nullLeft hne =>
    rw [below_of_key rfl, below_of_key (Bool.and_false _)]
    have hlt : SQObject.null.sortKey < b.sortKey := nil_lt_sortKey hb hne
    simp [hlt, lt_asymm hlt]
  | nullRight hne =>
    rw [below_of_key (Bool.and_false _), below_of_key rfl]
    have hlt : SQObject.null.sortKey < a.sortKey := nil_lt_sortKey ha hne
    simp [hlt, lt_asymm hlt]
  | @integers i j hne =>
    have hne' : i.toInt ≠ j.toInt := fun h => hne (BitVec.eq_of_toInt_eq h)
    simp only [Below]
    by_cases hlt : i.slt j = true
    · have := BitVec.slt_iff_toInt_lt.1 hlt
      rw [if_pos hlt]
      omega
    · have : ¬ i.toInt < j.toInt := fun h => hlt (BitVec.slt_iff_toInt_lt.2 h)
      rw [if_neg hlt]
      omega
  | intFloat i g =>
    rw [below_of_key rfl, below_of_key rfl]
    exact cmpFloat_sign (isNaN_intToFloat i) (hb g rfl)
  | floatInt f j =>
    rw [below_of_key rfl, below_of_key rfl]
    exact cmpFloat_sign (ha f rfl) (isNaN_intToFloat j)
  | floats f g =>
    rw [below_of_key rfl, below_of_key rfl]
    exact cmpFloat_sign (ha f rfl) (hb g rfl)
  | @bools b c hne =>
    rw [below_of_key rfl, below_of_key rfl]
    cases b <;> cases c
    · exact absurd rfl hne
    · decide
    · decide
    · exact absurd rfl hne
  | strings hne =>
    rw [below_of_key rfl, below_of_key rfl]
    simp only [SQObject.sortKey, list_lt_iff, Int.lt_irrefl, true_and, false_or]
    exact strcmp_sign _ _

/-! ## Transitivity -/

theorem both_integers {a b : SQObject} (h : (a.isInteger && b.isInteger) = true) :
    ∃ i j, a = .integer i ∧ b = .integer j := by
  cases a with
  | integer i =>
    cases b with
    | integer j => exact ⟨i, j, rfl, rfl⟩
    | null | float | bool | string | ref => cases h
  | null | float | bool | string | ref => cases h

/-- But for two integers what is below has the smaller key. -/
theorem key_lt_of_below {a b : SQObject} (h : (a.isInteger && b.isInteger) = false)
    (hab : Below a b) : a.sortKey < b.sortKey :=
  (below_of_key h).1 hab

/-- Keys decide between integers too, where they differ. -/
theorem below_of_key_lt {a b : SQObject} (h : a.sortKey < b.sortKey) : Below a b := by
  by_cases hint : (a.isInteger && b.isInteger) = true
  · obtain ⟨i, j, rfl, rfl⟩ := both_integers hint
    show i.toInt < j.toInt
    by_contra hle
    exact rank_ofInt_mono (natAbs_toInt_lt j) (natAbs_toInt_lt i) (Int.not_lt.1 hle) h
  · exact (below_of_key (Bool.eq_false_iff.2 hint)).2 h

/-- **The strict order is transitive.** -/
theorem Below.trans {a b c : SQObject} (hab : Below a b) (hbc : Below b c) : Below a c := by
  by_cases h1 : (a.isInteger && b.isInteger) = true
  · by_cases h2 : (b.isInteger && c.isInteger) = true
    · obtain ⟨i, j, rfl, rfl⟩ := both_integers h1
      obtain ⟨j', k, hj, rfl⟩ := both_integers h2
      cases hj
      exact Int.lt_trans hab hbc
    · exact below_of_key_lt
        (lt_of_le_of_lt (not_lt.1 (key_of_below hab)) (key_lt_of_below (Bool.eq_false_iff.2 h2) hbc))
  · exact below_of_key_lt
      (lt_of_lt_of_le (key_lt_of_below (Bool.eq_false_iff.2 h1) hab) (not_lt.1 (key_of_below hbc)))

/-- Two integers in descending order with a float between them that both round to. -/
def RoundTogether (a b c : SQObject) : Prop :=
  ∃ i f j, a = .integer i ∧ b = .float f ∧ c = .integer j ∧ j.toInt < i.toInt ∧
    (intToFloat i == f) = true ∧ (intToFloat j == f) = true

/-- What is not above has no larger key. -/
theorem key_le_of_not_below {a b : SQObject} (h : ¬ Below b a) : ¬ b.sortKey < a.sortKey :=
  fun hk => h (below_of_key_lt hk)

/-- **Where the weak order is not transitive**, two integers round together. -/
theorem roundTogether_of_below {a b c : SQObject} (ha : a.NotNaN) (hb : b.NotNaN) {ab : Int}
    (hcmp : Compared a b ab) (hab : ¬ Below b a) (hbc : ¬ Below c b) (hca : Below c a) :
    RoundTogether a b c := by
  have hkab := not_lt.1 (key_le_of_not_below hab)
  have hkbc := not_lt.1 (key_le_of_not_below hbc)
  -- Otherwise the keys alone would decide.
  have hint : (c.isInteger && a.isInteger) = true := by
    by_contra hint
    exact absurd (key_lt_of_below (Bool.eq_false_iff.2 hint) hca)
      (not_lt.2 (le_trans hkab hkbc))
  obtain ⟨j, i, rfl, rfl⟩ := both_integers hint
  have hji : j.toInt < i.toInt := hca
  have hkca := not_lt.1 (key_of_below hca)
  cases hcmp with
  | same => exact absurd hca hbc
  | nullRight hne =>
    have hlt : SQObject.null.sortKey < (SQObject.integer i).sortKey := nil_lt_sortKey ha hne
    exact absurd (below_of_key_lt hlt) hab
  | integers hne =>
    rename_i k
    have h1 : ¬ k.toInt < i.toInt := hab
    have h2 : ¬ j.toInt < k.toInt := hbc
    omega
  | intFloat _ g =>
    have h1 : rank (intToFloat i).unpack = rank g.unpack :=
      le_antisymm hkab (le_trans hkbc hkca)
    have h2 : rank (intToFloat j).unpack = rank g.unpack :=
      le_antisymm (le_trans hkca hkab) hkbc
    exact ⟨i, g, j, rfl, rfl, rfl, hji, (float_beq_iff (isNaN_intToFloat i) (hb g rfl)).2 h1,
      (float_beq_iff (isNaN_intToFloat j) (hb g rfl)).2 h2⟩

/-- An integer gap that one float fills. -/
theorem RoundTogether.below {a b c : SQObject} (h : RoundTogether a b c) : Below c a := by
  obtain ⟨i, f, j, rfl, rfl, rfl, hlt, -, -⟩ := h
  exact hlt

/-! ## Equality -/

/-- The value is not a string with a NUL byte. -/
def SQObject.NoNul (o : SQObject) : Prop := ∀ s, o = .string s → (0 : UInt8) ∉ s

theorem cBytes_eq {s : List UInt8} (h : (0 : UInt8) ∉ s) :
    cBytes s = s.map fun b => (b.toNat : Int) := by
  rw [cBytes, List.takeWhile_eq_self_iff.2]
  intro b hb
  exact decide_eq_true fun h0 => h (h0 ▸ hb)

/-- Strings without zero bytes that differ compare unequal. -/
theorem strcmp_ne_zero {s t : List UInt8} (hs : (0 : UInt8) ∉ s) (ht : (0 : UInt8) ∉ t)
    (hne : s ≠ t) : strcmp s t ≠ 0 := by
  intro h
  have hsign := strcmp_sign s t
  rw [h] at hsign
  have heq : cBytes s = cBytes t :=
    le_antisymm (not_lt.1 fun hlt => Int.lt_irrefl _ (hsign.2.2 hlt))
      (not_lt.1 fun hlt => Int.lt_irrefl _ (hsign.1.2 hlt))
  rw [cBytes_eq hs, cBytes_eq ht] at heq
  refine hne (List.map_injective_iff.2 (fun a b hab => ?_) heq)
  exact UInt8.toNat_inj.1 (Int.ofNat_inj.1 hab)

/-- Floats compare equal when `==` says so. -/
theorem cmpFloat_eq_zero (f g : SQFloat) : cmpFloat f g = 0 ↔ (f == g) = true := by
  rw [cmpFloat]
  split
  · simp_all
  · split <;> simp_all

/-- What is no NaN is equal to itself. -/
theorem isEqual_self {o : SQObject} (ho : o.NotNaN) : isEqual o o = true := by
  cases o with
  | float f => exact (float_beq_iff (ho f rfl) (ho f rfl)).2 rfl
  | null | integer | bool | string | ref => simp [isEqual]

theorem isEqual_null {o : SQObject} (h : o ≠ .null) :
    isEqual .null o = false ∧ isEqual o .null = false := by
  cases o with
  | null => exact absurd rfl h
  | integer | float | bool | string | ref => exact ⟨rfl, rfl⟩

/-- Values that compare equal are the equal ones, but for strings that agree up to a NUL. -/
theorem Compared.isEqual_iff {a b : SQObject} {r : Int} (h : Compared a b r) (ha : a.NotNaN)
    (ha0 : a.NoNul) (hb0 : b.NoNul) : r = 0 ↔ isEqual a b = true := by
  cases h with
  | same o => exact iff_of_true rfl (isEqual_self ha)
  | nullLeft hne =>
    rw [(isEqual_null hne).1]
    decide
  | nullRight hne =>
    rw [(isEqual_null hne).2]
    decide
  | integers hne =>
    apply iff_of_false
    · split <;> decide
    · intro h
      exact hne (SQObject.integer.inj (of_decide_eq_true h))
  | intFloat i g => exact cmpFloat_eq_zero _ _
  | floatInt f j => exact cmpFloat_eq_zero _ _
  | floats f g => exact cmpFloat_eq_zero _ _
  | bools hne =>
    apply iff_of_false
    · split <;> decide
    · intro h
      exact hne (SQObject.bool.inj (of_decide_eq_true h))
  | strings hne =>
    apply iff_of_false
    · exact strcmp_ne_zero (ha0 _ rfl) (hb0 _ rfl) hne
    · intro h
      exact hne (SQObject.string.inj (of_decide_eq_true h))

/-! ## Comparison with a literal -/

/-- `ObjCmp` within one type. -/
theorem objCmp_of_sameType {a b : SQObject} (h : a.sqType = b.sqType) :
    vm.objCmp a b = if a = b then .value 0 else vm.objCmpSameType a b :=
  if_pos h

theorem objCmp_integer (o : SQObject) (i : SQInteger) :
    vm.objCmp o (.integer i) = objCmpI o i := by
  cases o with
  | integer j =>
    have ht : (SQObject.integer j).sqType = (SQObject.integer i).sqType := rfl
    have hI : objCmpI (.integer j) i
        = .value (if j = i then 0 else if j.slt i then -1 else 1) := rfl
    rw [objCmp_of_sameType ht, hI]
    by_cases h : j = i
    · subst h
      rw [if_pos (rfl : SQObject.integer j = .integer j), if_pos (rfl : j = j)]
    · have hne : SQObject.integer j ≠ SQObject.integer i := fun hc => h (SQObject.integer.inj hc)
      rw [if_neg hne, if_neg h]
      rfl
  | ref t addr => cases t <;> rfl
  | null | float | bool | string => rfl

theorem objCmp_float {o : SQObject} (ho : o.NotNaN) (f : SQFloat) :
    vm.objCmp o (.float f) = objCmpF o f := by
  cases o with
  | float g =>
    have ht : (SQObject.float g).sqType = (SQObject.float f).sqType := rfl
    have hF : objCmpF (.float g) f = .value (cmpFloat g f) := rfl
    rw [objCmp_of_sameType ht, hF]
    by_cases h : g = f
    · subst h
      have hself : (g == g) = true := (float_beq_iff (ho g rfl) (ho g rfl)).2 rfl
      rw [if_pos (rfl : SQObject.float g = .float g), (cmpFloat_eq_zero g g).2 hself]
    · have hne : SQObject.float g ≠ SQObject.float f := fun hc => h (SQObject.float.inj hc)
      rw [if_neg hne, ← cmpFloat_eq]
      rfl
  | ref t addr => cases t <;> rfl
  | null | integer | bool | string => rfl

/-! ## The order -/

/-- **Comparison is a consistent order**, up to rounding: the weak order fails to be transitive
only at two integers that round to one float between them. -/
theorem objCmp_order {a b c : SQObject} {ab ba bc ac : Int} (ha : a.NotNaN) (hb : b.NotNaN)
    (hc : c.NotNaN) (hab : vm.objCmp a b = .value ab) (hba : vm.objCmp b a = .value ba)
    (hbc : vm.objCmp b c = .value bc) (hac : vm.objCmp a c = .value ac) :
    vm.objCmp a a = .value 0 ∧
    (ba < 0 ↔ 0 < ab) ∧ (ba = 0 ↔ ab = 0) ∧
    (ab < 0 → bc < 0 → ac < 0) ∧
    (ab ≤ 0 → bc ≤ 0 → (ac ≤ 0 ↔ ¬ RoundTogether a b c)) ∧
    (a.NoNul → b.NoNul →
      (ab = 0 ↔ isEqual a b = true) ∧ (ab = 0 ↔ opEq a b = .bool true)) ∧
    (∀ i, objCmpI a i = vm.objCmp a (.integer i)) ∧
    (∀ f, objCmpF a f = vm.objCmp a (.float f)) ∧
    (∀ arg3 w, opJcmpi arg3 a w = opJcmp vm arg3 a (.integer (w.signExtend 64))) ∧
    (∀ arg3 f, opJcmpf arg3 a f = opJcmp vm arg3 a (.float f)) ∧
    ∀ arg3 literals arg0,
      opJcmpk vm arg3 a literals arg0 = opJcmp vm arg3 a (literals.getD arg0 .null) := by
  have cab := compared_of_objCmp hab
  have sab := cab.sign ha hb
  have sba := (compared_of_objCmp hba).sign hb ha
  have sbc := (compared_of_objCmp hbc).sign hb hc
  have sac := (compared_of_objCmp hac).sign ha hc
  refine ⟨objCmp_self a, ?_, ?_, ?_, ?_, ?_, ?_, ?_, ?_, ?_, ?_⟩
  · rw [sba.1, sab.2]
  · have h1 : ba < 0 ↔ 0 < ab := by rw [sba.1, sab.2]
    have h2 : 0 < ba ↔ ab < 0 := by rw [sba.2, sab.1]
    omega
  · intro h1 h2
    exact sac.1.2 ((sab.1.1 h1).trans (sbc.1.1 h2))
  · intro h1 h2
    have hnab : ¬ Below b a := fun h => absurd (sab.2.2 h) (Int.not_lt.2 h1)
    have hnbc : ¬ Below c b := fun h => absurd (sbc.2.2 h) (Int.not_lt.2 h2)
    rw [← Int.not_lt, sac.2]
    exact not_congr ⟨roundTogether_of_below ha hb cab hnab hnbc, RoundTogether.below⟩
  · intro ha0 hb0
    have heq := cab.isEqual_iff ha ha0 hb0
    refine ⟨heq, heq.trans ?_⟩
    rw [opEq, SQObject.bool.injEq]
  · exact fun i => (objCmp_integer a i).symm
  · exact fun f => (objCmp_float ha f).symm
  · intro arg3 w
    rw [opJcmpi, opJcmp, objCmp_integer]
  · intro arg3 f
    rw [opJcmpf, opJcmp, objCmp_float ha]
  · exact fun arg3 literals arg0 => rfl

/-- `2 ^ 24`, the last integer before floats skip one. -/
def floatGap : Int := 16777216

theorem notNaN_integer (i : SQInteger) : (SQObject.integer i).NotNaN := nofun

theorem notNaN_floatGap : (SQObject.float (.ofInt floatGap)).NotNaN := by
  intro f hf
  cases hf
  decide

/-- A machine without metamethods. -/
def bareOps : VmOps where
  getMetaMethod _ _ _ := none
  toStringObj := .error
  fmod f _ := f

/-- The gap that breaks transitivity. -/
theorem objCmp_order_floatGap :
    (1 : Int) ≤ 0 ↔ ¬ RoundTogether (.integer (.ofInt 64 (floatGap + 1)))
      (.float (.ofInt floatGap)) (.integer (.ofInt 64 floatGap)) :=
  (@objCmp_order bareOps (.integer (.ofInt 64 (floatGap + 1))) _ _ 0 0 0 1 (notNaN_integer _)
    notNaN_floatGap (notNaN_integer _) (by decide) (by decide) (by decide)
    (by decide)).2.2.2.2.1 (Int.le_refl 0) (Int.le_refl 0)

/-- The integers `2 ^ 24 + 1` and `2 ^ 24` compare equal to one float, and not to each other. -/
theorem objCmp_not_transitive :
    ¬ ∀ (vm : VmOps) (a b c : SQObject) (ab bc ac : Int), a.NotNaN → b.NotNaN → c.NotNaN →
      vm.objCmp a b = .value ab → vm.objCmp b c = .value bc → vm.objCmp a c = .value ac →
      ab ≤ 0 → bc ≤ 0 → ac ≤ 0 := by
  intro h
  have := h bareOps (.integer (.ofInt 64 (floatGap + 1))) (.float (.ofInt floatGap))
    (.integer (.ofInt 64 floatGap)) 0 0 1 (notNaN_integer _) notNaN_floatGap (notNaN_integer _)
    (by decide) (by decide) (by decide) (Int.le_refl 0) (Int.le_refl 0)
  omega

end Quirrel.Vm
