import Mathlib.Data.List.Basic
import Quirrel.Array.ListRefinement
import Quirrel.Strings.Basic
import Quirrel.Vm.CompareOrder

/-!
# `split`, `join`, `replace` and `indexof` together

The four methods scan with `strncmp`, `memcmp` and `strstr`. `strncmp` does not look behind a NUL
that both sides have, and `strstr` ends at the first NUL of either string; and the buffer of `join`
and the array of `split` have sizes of 32 bits. The methods agree with each other on a string, a
separator and a replacement just where none of this matters (`methods_agree_iff`).
-/

set_option autoImplicit false

namespace Quirrel.Strings

open Quirrel.Lib Quirrel.Vm Quirrel.Array

/-! ## The separator as `strncmp` sees it -/

/-- The bytes up to the first NUL and this NUL. -/
def throughNul : List UInt8 → List UInt8
  | [] => []
  | b :: bs => if b = 0 then [0] else b :: throughNul bs

/-- What `strncmp` sees of a separator is a beginning of it. -/
theorem throughNul_isPrefix (sep : List UInt8) : throughNul sep <+: sep := by
  induction sep with
  | nil => exact List.prefix_refl _
  | cons b bs ih =>
    rw [throughNul]
    split
    · rename_i h
      rw [h]
      exact ⟨bs, rfl⟩
    · exact List.cons_prefix_cons.2 ⟨rfl, ih⟩

/-- `strncmp` compares up to a zero byte. -/
theorem strncmp_eq_zero_iff {sep ys : List UInt8} (h : sep.length ≤ ys.length) :
    strncmp sep.length ys sep = 0 ↔ throughNul sep <+: ys := by
  induction sep generalizing ys with
  | nil => exact iff_of_true rfl List.nil_prefix
  | cons b bs ih =>
    cases ys with
    | nil => exact absurd h (Nat.not_succ_le_zero _)
    | cons y ys =>
      rw [List.length_cons, strncmp, throughNul, List.headD_cons, List.headD_cons, List.tail_cons,
        List.tail_cons]
      by_cases hy : y = b
      · subst hy
        rw [if_pos rfl]
        by_cases h0 : y = 0
        · rw [if_pos h0, if_pos h0, h0]
          exact iff_of_true rfl ⟨ys, rfl⟩
        · rw [if_neg h0, if_neg h0, ih (Nat.le_of_succ_le_succ h), List.cons_prefix_cons]
          exact ⟨fun hp => ⟨rfl, hp⟩, fun hp => hp.2⟩
      · rw [if_neg hy]
        have hne : (y.toNat : Int) - b.toNat ≠ 0 := by
          intro heq
          exact hy (UInt8.toNat_inj.1 (by omega))
        refine iff_of_false hne fun hp => ?_
        split at hp
        · rename_i h0
          exact hy ((List.cons_prefix_cons.1 hp).1.symm.trans h0.symm)
        · exact hy (List.cons_prefix_cons.1 hp).1.symm

/-- The test of `string_split` on the rest of the string. -/
def hitSep (sep ys : List UInt8) : Bool :=
  decide (sep.length ≤ ys.length ∧ strncmp sep.length ys sep = 0)

/-- When `split` sees a separator. -/
theorem hitSep_iff {sep ys : List UInt8} :
    hitSep sep ys = true ↔ sep.length ≤ ys.length ∧ throughNul sep <+: ys := by
  rw [hitSep, decide_eq_true_iff]
  constructor
  · exact fun h => ⟨h.1, (strncmp_eq_zero_iff h.1).1 h.2⟩
  · exact fun h => ⟨h.1, (strncmp_eq_zero_iff h.1).2 h.2⟩

/-- The test of `split` is one of the tests. -/
theorem tests_hitSep {sep : List UInt8} (hsep : 0 < sep.length) :
    Tests (hitSep sep) sep (sep.length - 1) where
  length_eq := by omega
  finds _ h := hitSep_iff.2 ⟨h.length_le, (throughNul_isPrefix sep).trans h⟩
  room _ h := (hitSep_iff.1 h).1

/-! ## `split` -/

/-- A string in front of the first piece. -/
def appendHead (w : List UInt8) : List (List UInt8) → List (List UInt8)
  | [] => [w]
  | p :: ps => (w ++ p) :: ps

theorem appendHead_nil {ps : List (List UInt8)} (h : ps ≠ []) : appendHead [] ps = ps := by
  cases ps with
  | nil => exact absurd rfl h
  | cons p ps => rfl

theorem appendHead_consHead (w : List UInt8) (x : UInt8) {ps : List (List UInt8)} (h : ps ≠ []) :
    appendHead w (consHead x ps) = appendHead (w ++ [x]) ps := by
  cases ps with
  | nil => exact absurd rfl h
  | cons p ps => simp [consHead, appendHead]

/-- The array of strings. -/
def asStrings (ps : List (List UInt8)) : List SQObject := ps.map .string

/-- An array extended by one element is a `push_back`. -/
theorem arrExtend_singleton (a : SqVector SQObject) (x : SQObject) :
    arrExtend a [x] = a.pushBack x := by
  rw [arrExtend]
  cases a.pushBack x with
  | none => rfl
  | some b => rfl

/-- No test succeeds where the separator has no room. -/
theorem splitWith_of_short {sep ys : List UInt8} {n : Nat} (h : ys.length < sep.length) :
    splitWith (hitSep sep) n ys = [ys] := by
  apply splitWith_of_never
  intro zs hzs hhit
  have := (hitSep_iff.1 hhit).1
  have := hzs.length_le
  omega

/-- What is in front of the scan and where it stopped last. -/
theorem take_drop_succ {s xs : List UInt8} {x : UInt8} {start pos : Nat} (hle : start ≤ pos)
    (h : s.drop pos = x :: xs) :
    (s.drop start).take (pos - start) ++ [x] = (s.drop start).take (pos + 1 - start) := by
  have hget : (s.drop start)[pos - start]? = some x := by
    rw [List.getElem?_drop, Nat.add_sub_cancel' hle, ← List.head?_drop, h, List.head?_cons]
  rw [Nat.succ_sub hle, List.take_add_one, hget]
  rfl

/-- The loop of `split` is the recursion over pieces. -/
theorem splitLoop_eq {s sep : List UInt8} (hsep : 0 < sep.length) {start pos : Nat}
    (res : SqVector SQObject) (hstart : start ≤ pos) (hpos : pos ≤ s.length) :
    splitLoop s sep hsep start pos res = arrExtend res (asStrings
      (appendHead ((s.drop start).take (pos - start))
        (splitWith (hitSep sep) (sep.length - 1) (s.drop pos)))) := by
  induction hn : s.length - pos using Nat.strongRecOn generalizing start pos res with
  | _ n ih =>
    have hlen : (s.drop pos).length = s.length - pos := List.length_drop
    rw [splitLoop, dif_pos hpos]
    by_cases hroom : s.length < pos + sep.length
    · -- the last piece
      have hall : (s.drop start).take (s.length - start) =
          (s.drop start).take (pos - start) ++ s.drop pos := by
        have hdrop : s.drop pos = (s.drop start).drop (pos - start) := by
          rw [List.drop_drop, Nat.add_sub_cancel' hstart]
        rw [hdrop, List.take_append_drop, List.take_of_length_le (by rw [List.length_drop])]
      rw [if_pos hroom, splitWith_of_short (by omega), substring, hall]
      exact (arrExtend_singleton res _).symm
    · rw [if_neg hroom]
      cases hxs : s.drop pos with
      | nil =>
        rw [hxs, List.length_nil] at hlen
        omega
      | cons x xs =>
        rw [hxs, List.length_cons] at hlen
        have htests := tests_hitSep hsep
        by_cases hhit : strncmp sep.length (x :: xs) sep = 0
        · have hroom' : sep.length ≤ (x :: xs).length := by rw [List.length_cons]; omega
          have hdrop : xs.drop (sep.length - 1) = s.drop (pos + sep.length) := by
            rw [← drop_length_cons htests x, ← hxs, List.drop_drop]
          rw [if_pos hhit, splitWith_of_hit (decide_eq_true ⟨hroom', hhit⟩), hdrop, appendHead,
            List.append_nil, asStrings, List.map_cons, arrExtend, substring]
          congr 1
          funext res'
          rw [ih (s.length - (pos + sep.length)) (by omega) res' (Nat.le_refl _) (by omega) rfl,
            Nat.sub_self, List.take_zero, appendHead_nil (splitWith_ne_nil _)]
          rfl
        · have hmiss : ¬ hitSep sep (x :: xs) = true := fun h => hhit (of_decide_eq_true h).2
          have hdrop : s.drop (pos + 1) = xs := by
            rw [← List.drop_drop, hxs, List.drop_succ_cons, List.drop_zero]
          rw [if_neg hhit, splitWith_of_not_hit hmiss, appendHead_consHead _ _ (splitWith_ne_nil _),
            take_drop_succ hstart hxs,
            ih (s.length - (pos + 1)) (by omega) res (by omega) (by omega) rfl, hdrop]

/-! ## The array of the pieces -/

/-- The allocations that `push_back` makes. -/
def Doubled (v : SqVector SQObject) : Prop :=
  v.size = 0 ∧ v.allocated = 0 ∨ ∃ k ≤ 29, v.allocated.toNat = 4 * 2 ^ k

/-- A vector that only doubled has at most 2^31 elements. -/
theorem Doubled.size_le {v : SqVector SQObject} (hv : Doubled v) : v.size ≤ 2 ^ 31 := by
  rcases hv with ⟨h0, -⟩ | ⟨k, hk, halloc⟩
  · omega
  · have hfits : v.size ≤ v.allocated.toNat := v.fits
    have hpow : 2 ^ k ≤ 2 ^ 29 := Nat.pow_le_pow_right (by omega) hk
    omega

theorem store_eq {α : Type} {v w : SqVector α} {vals : List α} (h : v.store vals = some w) :
    w.vals = vals ∧ w.allocated = v.allocated := by
  rw [SqVector.store] at h
  split at h
  · cases h
    exact ⟨rfl, rfl⟩
  · cases h

/-- A reallocation keeps the values. -/
theorem realloc_eq {α : Type} {v w : SqVector α} {newsize : SizeType} (h : v.realloc newsize = some w) :
    w.vals = v.vals ∧ w.allocated = (if 0 < newsize.toNat then newsize else 4#32) ∧
      v.size ≤ w.allocated.toNat := by
  simp only [SqVector.realloc] at h
  by_cases hle : v.size ≤ (if 0 < newsize.toNat then newsize else 4#32).toNat
  · rw [dif_pos hle] at h
    cases h
    exact ⟨rfl, rfl, hle⟩
  · rw [dif_neg hle] at h
    cases h

/-- Where the allocation has `2 ^ 31` cells, doubling it gives none, and the cells are lost. -/
theorem pushBack_doubled {v w : SqVector SQObject} {x : SQObject} (hv : Doubled v)
    (h : v.pushBack x = some w) : Doubled w ∧ w.vals = v.vals ++ [x] := by
  rw [SqVector.pushBack, Option.bind_eq_bind] at h
  obtain ⟨r, hr, hstore⟩ := Option.bind_eq_some_iff.1 h
  obtain ⟨hwvals, hwalloc⟩ := store_eq hstore
  have hfits : v.size ≤ v.allocated.toNat := v.fits
  rw [SqVector.reallocIf] at hr
  by_cases hfull : v.allocated.toNat ≤ v.size
  · rw [if_pos hfull] at hr
    obtain ⟨hrvals, hralloc, hrsize⟩ := realloc_eq hr
    refine ⟨Or.inr ?_, by rw [hwvals, hrvals]⟩
    rw [hwalloc, hralloc]
    rcases hv with ⟨h0, -⟩ | ⟨k, hk, halloc⟩
    · refine ⟨0, Nat.zero_le _, ?_⟩
      rw [h0]
      rfl
    · have hsize : v.size = 4 * 2 ^ k := by omega
      rcases Nat.lt_or_eq_of_le hk with hlt | rfl
      · have hpow : 2 ^ (k + 1) ≤ 2 ^ 29 := Nat.pow_le_pow_right (by omega) hlt
        have hpos : 0 < 2 ^ k := Nat.two_pow_pos k
        rw [Nat.pow_succ] at hpow
        have hnew : (BitVec.ofNat 32 (v.size * 2)).toNat = v.size * 2 :=
          SqVector.toNat_ofNat_sizeType (by omega)
        refine ⟨k + 1, hlt, ?_⟩
        rw [if_pos (by rw [hnew]; omega), hnew, hsize, Nat.pow_succ]
        omega
      · have hnew : (BitVec.ofNat 32 (v.size * 2)).toNat = 0 := by
          rw [hsize]
          rfl
        rw [hralloc, if_neg (by rw [hnew]; omega), hsize] at hrsize
        exact absurd hrsize (by decide)
  · rw [if_neg hfull] at hr
    cases hr
    refine ⟨?_, hwvals⟩
    rcases hv with ⟨h0, halloc⟩ | ⟨k, hk, halloc⟩
    · rw [halloc] at hfull
      exact absurd (Nat.zero_le _) hfull
    · exact Or.inr ⟨k, hk, by rw [hwalloc, halloc]⟩

/-- Extending keeps the vector doubled. -/
theorem arrExtend_doubled {a b : SqVector SQObject} {xs : List SQObject} (ha : Doubled a)
    (h : arrExtend a xs = some b) : Doubled b ∧ b.vals = a.vals ++ xs := by
  induction xs generalizing a with
  | nil =>
    cases h
    exact ⟨ha, (List.append_nil _).symm⟩
  | cons x xs ih =>
    rw [arrExtend, Option.bind_eq_bind] at h
    obtain ⟨c, hc, hrest⟩ := Option.bind_eq_some_iff.1 h
    obtain ⟨hcd, hcvals⟩ := pushBack_doubled ha hc
    obtain ⟨hb, hbvals⟩ := ih hcd hrest
    refine ⟨hb, ?_⟩
    rw [hbvals, hcvals, List.append_assoc]
    rfl

/-- The array of a split holds `2 ^ 31` pieces at most. -/
theorem arrExtend_empty_iff {xs : List SQObject} :
    (∃ b, arrExtend .empty xs = some b) ↔ xs.length ≤ 2 ^ 31 := by
  constructor
  · rintro ⟨b, hb⟩
    obtain ⟨hd, hvals⟩ := arrExtend_doubled (Or.inl ⟨rfl, rfl⟩) hb
    have hsize := hd.size_le
    rw [SqVector.size, hvals] at hsize
    exact hsize
  · intro h
    have hroom : (SqVector.empty : SqVector SQObject).size + xs.length ≤ 2 ^ 31 := by
      rw [SqVector.size, SqVector.empty, List.length_nil, Nat.zero_add]
      exact h
    obtain ⟨b, hb, -⟩ := arrExtend_eq_some .empty xs hroom
    exact ⟨b, hb⟩

/-- The native `split` with a separator. -/
theorem stringSplit_sep {s sep : List UInt8} (hsep : 0 < sep.length) :
    stringSplit s [sep] =
      .ofOption (arrExtend .empty (asStrings (splitWith (hitSep sep) (sep.length - 1) s))) := by
  rw [stringSplit, dif_pos hsep, splitLoop_eq hsep _ (Nat.le_refl 0) (Nat.zero_le _), List.drop_zero,
    Nat.sub_self, List.take_zero, appendHead_nil (splitWith_ne_nil _)]

/-! ## `join` -/

section Join

variable (vm : VmOps) (isFalse : SQObject → Bool)

/-- Strings need no conversion. -/
theorem joinStrings_asStrings (ps : List (List UInt8)) :
    joinStrings vm isFalse .none (asStrings ps) = .ok ps := by
  induction ps with
  | nil => rfl
  | cons p ps ih =>
    have hp : joinStrings vm isFalse .none (asStrings (p :: ps)) =
        (joinStrings vm isFalse .none (asStrings ps)).map (p :: ·) := rfl
    rw [hp, ih]
    rfl

theorem bufConcat_succ (sep : List UInt8) (ps : List (List UInt8)) :
    ∀ i out, bufConcat sep (i + 1) out ps = out ++ (ps.map (sep ++ ·)).flatten := by
  induction ps with
  | nil => exact fun i out => (List.append_nil out).symm
  | cons p ps ih =>
    intro i out
    rw [bufConcat, if_neg (Nat.succ_ne_zero i), ih, List.map_cons, List.flatten_cons]
    simp only [List.append_assoc]

theorem intercalate_eq (sep p : List UInt8) (ps : List (List UInt8)) :
    sep.intercalate (p :: ps) = p ++ (ps.map (sep ++ ·)).flatten := by
  induction ps generalizing p with
  | nil => simp
  | cons q qs ih =>
    rw [List.intercalate_cons_cons, ih, List.map_cons, List.flatten_cons]
    simp only [List.append_assoc]

/-- The loop of `join` puts the separator between the pieces. -/
theorem bufConcat_eq (sep p : List UInt8) (ps : List (List UInt8)) :
    bufConcat sep 0 [] (p :: ps) = sep.intercalate (p :: ps) := by
  rw [bufConcat, if_pos rfl, bufConcat_succ, intercalate_eq]
  rfl

/-- The size that `join` computes is that of the result. -/
theorem length_intercalate (sep p : List UInt8) (ps : List (List UInt8)) :
    ((p :: ps).map List.length).sum + sep.length * ps.length =
      (sep.intercalate (p :: ps)).length := by
  rw [intercalate_eq]
  induction ps generalizing p with
  | nil => simp
  | cons q qs ih =>
    have hq := ih q
    simp only [List.map_cons, List.sum_cons, List.length_cons, List.length_append,
      List.flatten_cons, Nat.mul_succ] at hq ⊢
    omega

theorem resize_empty (size : SizeType) :
    ∃ w, (SqVector.empty : SqVector UInt8).resize size 0 = some w ∧ w.allocated = size := by
  obtain ⟨w, hw, -⟩ := SqVector.resize_eq_some (SqVector.empty : SqVector UInt8) size 0
  refine ⟨w, hw, ?_⟩
  rw [SqVector.resize, Option.bind_eq_bind] at hw
  obtain ⟨r, hr, hrest⟩ := Option.bind_eq_some_iff.1 hw
  have hralloc : r.allocated = size := by
    rw [SqVector.reallocIf] at hr
    by_cases h0 : (SqVector.empty : SqVector UInt8).allocated.toNat < size.toNat
    · rw [if_pos h0] at hr
      rw [(realloc_eq hr).2.1, if_pos (Nat.lt_of_le_of_lt (Nat.zero_le _) h0)]
    · rw [if_neg h0] at hr
      cases hr
      exact BitVec.eq_of_toNat_eq (Nat.eq_zero_of_not_pos h0).symm
  split at hrest
  · exact (store_eq hrest).2.trans hralloc
  · exact (store_eq hrest).2.trans hralloc

/-- The size of the buffer is cut to 32 bits. -/
theorem stringJoin_asStrings (sep p : List UInt8) (ps : List (List UInt8)) :
    stringJoin vm isFalse sep (asStrings (p :: ps)) .none =
      if (sep.intercalate (p :: ps)).length < 2 ^ 32 then .value (sep.intercalate (p :: ps))
      else .fault := by
  obtain ⟨w, hw, halloc⟩ :=
    resize_empty (sizeType (.ofNat 64 (sep.intercalate (p :: ps)).length))
  have hroom : w.allocated.toNat = (sep.intercalate (p :: ps)).length % 2 ^ 32 := by
    rw [halloc, sizeType, BitVec.toNat_setWidth, BitVec.toNat_ofNat]
    omega
  have hjoin : stringJoin vm isFalse sep (asStrings (p :: ps)) .none =
      .ofOption ((w.store (sep.intercalate (p :: ps))).bind fun res => some res.vals) := by
    rw [stringJoin, joinStrings_asStrings]
    simp only [length_intercalate, bufConcat_eq, hw]
    rfl
  rw [hjoin, SqVector.store]
  by_cases hfits : (sep.intercalate (p :: ps)).length < 2 ^ 32
  · rw [if_pos hfits, dif_pos (by rw [hroom, Nat.mod_eq_of_lt hfits])]
    rfl
  · have hless := Nat.mod_lt (sep.intercalate (p :: ps)).length (Nat.two_pow_pos 32)
    rw [if_neg hfits, dif_neg (by omega)]
    rfl

end Join

/-! ## `replace` -/

/-- The loop of `replace` splits exactly and joins. -/
theorem replaceAll_eq {fromStr toStr : List UInt8} (hfrom : 0 < fromStr.length) (front s : List UInt8) :
    replaceAll fromStr hfrom toStr (front ++ s) front.length =
      front ++ toStr.intercalate (pieces fromStr s) := by
  induction hn : s.length using Nat.strongRecOn generalizing front s with
  | _ n ih =>
    have hne : fromStr ≠ [] := List.ne_nil_of_length_pos hfrom
    rw [replaceAll]
    by_cases hroom : front.length + fromStr.length ≤ (front ++ s).length
    · rw [dif_pos hroom, List.drop_left]
      rw [List.length_append] at hroom
      by_cases hhit : s.take fromStr.length = fromStr
      · have hpre : fromStr <+: s := List.prefix_iff_eq_take.2 hhit.symm
        have hbytes : replaceBytes (front ++ s) front.length fromStr.length toStr =
            (front ++ toStr) ++ s.drop fromStr.length := by
          rw [replaceBytes, List.take_left, ← List.drop_drop, List.drop_left]
        rw [if_pos hhit, hbytes, ← List.length_append,
          ih (s.drop fromStr.length).length (by rw [List.length_drop]; omega) _ _ rfl,
          pieces_of_isPrefix hne hpre, intercalate_cons (pieces_ne_nil _ _), List.nil_append,
          List.append_assoc]
      · rw [if_neg hhit]
        cases s with
        | nil => 
          rw [List.length_nil] at hroom
          omega
        | cons x xs =>
          have hpre : ¬ fromStr <+: x :: xs := fun h => hhit (List.prefix_iff_eq_take.1 h).symm
          have hmove : front ++ x :: xs = (front ++ [x]) ++ xs := by simp
          have hpos : front.length + 1 = (front ++ [x]).length := by simp
          rw [hmove, hpos, ih xs.length (by rw [← hn]; exact Nat.lt_succ_self _) _ _ rfl,
            pieces_cons_of_not_isPrefix hpre, intercalate_consHead (pieces_ne_nil _ _)]
          simp
    · rw [dif_neg hroom, pieces_of_short, List.intercalate_singleton]
      rw [List.length_append] at hroom
      omega

/-- The native `replace` splits exactly and joins. -/
theorem stringReplace_eq {fromStr : List UInt8} (hfrom : 0 < fromStr.length)
    (s toStr : List UInt8) :
    stringReplace s fromStr toStr = toStr.intercalate (pieces fromStr s) := by
  rw [stringReplace, dif_pos hfrom]
  exact replaceAll_eq hfrom [] s

/-! ## `indexof` -/

/-- The native `indexof` looks for the first place of the text before a zero byte. -/
theorem stringIndexof_eq {sep : List UInt8} (hsep : 0 < sep.length) (cast : SQFloat → SQInteger)
    (s : List UInt8) :
    stringIndexof cast s sep none =
      .value (if s = [] then none else (strstr s sep).map fun p => (p : Int)) := by
  have hempty : ¬ sep.length < 1 := by omega
  rw [stringIndexof, stringScanForSubstring, if_neg hempty]
  by_cases hs : s = []
  · rw [hs]
    rfl
  · have hpos : 0 < s.length := List.length_pos_of_ne_nil hs
    have hguard : (s.length : Int) > 0 ∧ (0 : Int) ≥ 0 := by omega
    dsimp only
    rw [if_pos hguard, if_neg hs, Int.toNat_zero, List.drop_zero]
    cases strstr s sep with
    | none => rfl
    | some p =>
      have hp : (0 : Int) + p ≥ 0 := by omega
      dsimp only
      rw [if_pos hp, Int.zero_add]
      rfl

theorem cText_isPrefix (s : List UInt8) : cText s <+: s := List.takeWhile_prefix _

/-- A place in front of the first one in the texts that C sees is a place in these texts. -/
theorem firstAt_of_cText {s sep : List UInt8} {p : Nat} (h : FirstAt (cText sep) (cText s) p)
    (hp : sep <+: s.drop p) : FirstAt sep s p := by
  refine ⟨hp, fun q hq hsepq => h.2 q hq ?_⟩
  have hlen := h.1.length_le
  rw [List.length_drop] at hlen
  refine List.prefix_of_prefix_length_le ((cText_isPrefix sep).trans hsepq)
    ((cText_isPrefix s).drop q) ?_
  rw [List.length_drop]
  omega

/-! ## All of them -/

/-- What `indexof` should say. -/
def IsFirstPlace (s sep : List UInt8) : Option Int → Prop
  | some i => ∃ p : Nat, i = p ∧ FirstAt sep s p
  | none => ¬ sep <:+: s

/-- The methods agree on a string, a separator and a replacement. -/
def MethodsAgree (vm : VmOps) (isFalse : SQObject → Bool) (cast : SQFloat → SQInteger)
    (s sep t : List UInt8) : Prop :=
  ∃ a ps index, stringSplit s [sep] = .value a ∧ a.vals = asStrings ps ∧
    stringJoin vm isFalse sep a.vals .none = .value s ∧
    (∀ p ∈ ps, ¬ sep <:+: p) ∧
    stringJoin vm isFalse t a.vals .none = .value (stringReplace s sep t) ∧
    stringIndexof cast s sep none = .value index ∧ IsFirstPlace s sep index ∧
    (index = none ↔ ps.length = 1)

/-- Nothing of what the four scans do differently, and no size of 32 bits, matters. -/
structure Agreeable (s sep t : List UInt8) : Prop where
  /-- Wherever the scan for the separator looks, with room for the separator, it does not find the
  bytes of the separator up to its first NUL without the rest of the separator. -/
  whole : ∀ ys, Looks sep s ys → sep.length ≤ ys.length → throughNul sep <+: ys → sep <+: ys
  /-- In the texts that C sees the first place of the separator is one of the separator as it is. -/
  first : s = [] ∨ (∃ p, FirstAt (cText sep) (cText s) p ∧ sep <+: s.drop p) ∨
    (¬ cText sep <:+: cText s ∧ ¬ sep <:+: s)
  pieces : (pieces sep s).length ≤ 2 ^ 31
  length : s.length < 2 ^ 32
  joined : (t.intercalate (Lib.pieces sep s)).length < 2 ^ 32

/-- When the test of `split` is honest. -/
theorem honest_iff {s sep : List UInt8} :
    Honest (hitSep sep) sep s ↔
      ∀ ys, Looks sep s ys → sep.length ≤ ys.length → throughNul sep <+: ys → sep <+: ys := by
  constructor
  · exact fun h ys hys hlen hnul => h ys hys (hitSep_iff.2 ⟨hlen, hnul⟩)
  · exact fun h ys hys hhit => h ys hys (hitSep_iff.1 hhit).1 (hitSep_iff.1 hhit).2

/-- When `indexof` returns the first place. -/
theorem isFirstPlace_iff (s : List UInt8) {sep : List UInt8} (hsep : sep ≠ []) :
    IsFirstPlace s sep (if s = [] then none else (strstr s sep).map fun p => (p : Int)) ↔
      s = [] ∨ (∃ p, FirstAt (cText sep) (cText s) p ∧ sep <+: s.drop p) ∨
        (¬ cText sep <:+: cText s ∧ ¬ sep <:+: s) := by
  by_cases hs : s = []
  · rw [if_pos hs]
    refine iff_of_true (fun hi => ?_) (Or.inl hs)
    rw [hs] at hi
    exact hsep (List.infix_nil.1 hi)
  · rw [if_neg hs, strstr]
    cases hfirst : firstIndex (cText sep) (cText s) with
    | none =>
      have hnone := firstIndex_eq_none_iff.1 hfirst
      constructor
      · exact fun h => Or.inr (Or.inr ⟨hnone, h⟩)
      · rintro (h | ⟨p, hp, -⟩ | h)
        · exact absurd h hs
        · exact absurd hp.infix hnone
        · exact h.2
    | some p =>
      have hp := firstIndex_eq_some hfirst
      constructor
      · rintro ⟨q, hq, hat⟩
        have hpq : p = q := Int.ofNat_inj.1 hq
        exact Or.inr (Or.inl ⟨p, hp, by rw [hpq]; exact hat.1⟩)
      · rintro (h | ⟨q, hq, hat⟩ | h)
        · exact absurd h hs
        · have hpq : p = q := hp.unique hq
          exact ⟨p, rfl, firstAt_of_cText hp (by rw [hpq]; exact hat)⟩
        · exact absurd hp.infix h.1

variable {vm : VmOps} {isFalse : SQObject → Bool}

/-- A join that succeeds, of pieces that are not empty. -/
theorem stringJoin_eq_value_iff {sep r : List UInt8} {ps : List (List UInt8)} (hps : ps ≠ []) :
    stringJoin vm isFalse sep (asStrings ps) .none = .value r ↔
      sep.intercalate ps = r ∧ (sep.intercalate ps).length < 2 ^ 32 := by
  cases ps with
  | nil => exact absurd rfl hps
  | cons p ps =>
    rw [stringJoin_asStrings]
    by_cases h : (sep.intercalate (p :: ps)).length < 2 ^ 32
    · rw [if_pos h, Native.value.injEq]
      exact ⟨fun heq => ⟨heq, h⟩, fun heq => heq.1⟩
    · rw [if_neg h]
      exact iff_of_false nofun fun heq => h heq.2

/-- The pieces that `split` returns. -/
theorem stringSplit_value {s sep : List UInt8} (hsep : 0 < sep.length) {a : SqVector SQObject}
    (h : stringSplit s [sep] = .value a) :
    a.vals = asStrings (splitWith (hitSep sep) (sep.length - 1) s) ∧
      (splitWith (hitSep sep) (sep.length - 1) s).length ≤ 2 ^ 31 := by
  rw [stringSplit_sep hsep] at h
  cases hb : arrExtend .empty (asStrings (splitWith (hitSep sep) (sep.length - 1) s)) with
  | none =>
    rw [hb] at h
    cases h
  | some b =>
    rw [hb] at h
    cases h
    have hlen := arrExtend_empty_iff.1 ⟨_, hb⟩
    rw [asStrings, List.length_map] at hlen
    exact ⟨(arrExtend_doubled (Or.inl ⟨rfl, rfl⟩) hb).2, hlen⟩

/-- `split` returns when there are few enough pieces. -/
theorem exists_stringSplit {s sep : List UInt8} (hsep : 0 < sep.length)
    (h : (splitWith (hitSep sep) (sep.length - 1) s).length ≤ 2 ^ 31) :
    ∃ a, stringSplit s [sep] = .value a := by
  have hlen : (asStrings (splitWith (hitSep sep) (sep.length - 1) s)).length ≤ 2 ^ 31 := by
    rw [asStrings, List.length_map]
    exact h
  obtain ⟨b, hb⟩ := arrExtend_empty_iff.2 hlen
  refine ⟨b, ?_⟩
  rw [stringSplit_sep hsep, hb]
  rfl

theorem asStrings_injective {ps qs : List (List UInt8)} (h : asStrings ps = asStrings qs) :
    ps = qs :=
  List.map_injective_iff.2 (fun _ _ h => SQObject.string.inj h) h

/-- **The methods agree** exactly on the agreeable strings. -/
theorem methods_agree_iff (vm : VmOps) (isFalse : SQObject → Bool) (cast : SQFloat → SQInteger)
    (s t : List UInt8) {sep : List UInt8} (hsep : 0 < sep.length) :
    MethodsAgree vm isFalse cast s sep t ↔ Agreeable s sep t := by
  have hne : sep ≠ [] := List.ne_nil_of_length_pos hsep
  have htests := tests_hitSep hsep
  constructor
  · rintro ⟨a, ps, index, hsplit, hvals, hjoin, -, hreplace, hindex, hplace, -⟩
    obtain ⟨hpieces, hcount⟩ := stringSplit_value hsep hsplit
    have hps := asStrings_injective (hvals.symm.trans hpieces)
    rw [hvals] at hjoin hreplace
    rw [← hps] at hcount
    have hpsne : ps ≠ [] := by
      rw [hps]
      exact splitWith_ne_nil s
    obtain ⟨hs, hslen⟩ := (stringJoin_eq_value_iff hpsne).1 hjoin
    obtain ⟨-, htlen⟩ := (stringJoin_eq_value_iff hpsne).1 hreplace
    have hhonest : Honest (hitSep sep) sep s := by
      rw [hps] at hs
      exact (intercalate_splitWith_iff htests s).1 hs
    rw [splitWith_eq_pieces htests hhonest] at hps
    rw [stringIndexof_eq hsep, Native.value.injEq] at hindex
    rw [← hindex] at hplace
    refine ⟨honest_iff.1 hhonest, (isFirstPlace_iff s hne).1 hplace, ?_, ?_, ?_⟩
    · rw [← hps]
      exact hcount
    · rw [hs] at hslen
      exact hslen
    · rw [← hps]
      exact htlen
  · intro h
    have hpieces := splitWith_eq_pieces htests (honest_iff.2 h.whole)
    obtain ⟨a, ha⟩ := exists_stringSplit (s := s) hsep (by rw [hpieces]; exact h.pieces)
    have hvals := (stringSplit_value hsep ha).1
    rw [hpieces] at hvals
    have hplace := (isFirstPlace_iff s hne).2 h.first
    refine ⟨a, pieces sep s, _, ha, hvals, ?_, fun p => not_infix_of_mem_pieces hne, ?_,
      stringIndexof_eq hsep cast s, hplace, ?_⟩
    · rw [hvals, stringJoin_eq_value_iff (pieces_ne_nil sep s), intercalate_pieces hne]
      exact ⟨rfl, h.length⟩
    · rw [hvals, stringJoin_eq_value_iff (pieces_ne_nil sep s), stringReplace_eq hsep]
      exact ⟨rfl, h.joined⟩
    · rw [length_pieces_eq_one_iff hne]
      generalize (if s = [] then none else (strstr s sep).map fun p => (p : Int)) = index at hplace
      cases index with
      | none => exact iff_of_true rfl hplace
      | some i =>
        obtain ⟨p, -, hp⟩ := hplace
        exact iff_of_false nofun fun hn => hn hp.infix

/-- A text with one comma. -/
theorem methods_agree_iff_comma :
    MethodsAgree bareOps (fun _ => false) (fun _ => 0) [97, 44, 98] [44] [32] :=
  (methods_agree_iff bareOps (fun _ => false) (fun _ => 0) [97, 44, 98] [32] (by decide)).2 {
    whole := fun _ _ _ h => h
    first := Or.inr (Or.inl ⟨1, ⟨by decide, by decide⟩, by decide⟩)
    pieces := by decide +kernel
    length := by decide
    joined := by decide +kernel }

/-- A separator with a NUL is found where only its first two bytes are; and behind a NUL `indexof`
finds nothing. -/
theorem methods_disagree_nul :
    ¬ MethodsAgree bareOps (fun _ => false) (fun _ => 0) [97, 0, 88] [97, 0, 89] [] ∧
      ¬ MethodsAgree bareOps (fun _ => false) (fun _ => 0) [0, 97] [97] [] := by
  constructor
  · rintro ⟨a, ps, index, hsplit, -, hjoin, -⟩
    have hpieces : splitWith (hitSep [97, 0, 89]) 2 [97, 0, 88] = [[], []] := by decide +kernel
    have hvals : a.vals = asStrings [[], []] := by
      rw [(stringSplit_value (by decide) hsplit).1]
      exact congrArg asStrings hpieces
    rw [hvals, stringJoin_eq_value_iff (by decide)] at hjoin
    exact absurd hjoin.1 (by decide)
  · rintro ⟨a, ps, index, -, -, -, -, -, hindex, hplace, -⟩
    have hnone : index = none := by
      rw [stringIndexof_eq (by decide), Native.value.injEq] at hindex
      rw [← hindex]
      decide
    rw [hnone] at hplace
    exact hplace (by decide)

end Quirrel.Strings
