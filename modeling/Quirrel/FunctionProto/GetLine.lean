import Quirrel.Lib.Floor

/-!
# Line lookup

`SQFunctionProto::GetLine` on the line infos that `BuildProto` writes, in the full and in the
compressed form (`get_line_offset_impl` is one template for both). A lookup is `none` when the code
reads an entry outside the table. In a table in order the lookup is exact for every hint as long as
the instruction is not behind the start of the last entry (`getLineOffset_of_spans`); there, with some
hint, the next entry is read although there is none (`getLineOffset_last`).
-/

set_option autoImplicit false

namespace Quirrel.FunctionProto

open Quirrel.Lib

/-- `SQFullLineInfo`, `SQCompressedLineInfo`: the two differ in how many bits the fields have. -/
structure LineInfo where
  op : Nat
  lineOffset : Nat
  isDbgStepPoint : Bool
deriving DecidableEq, Repr

/-- What a lookup gives: the line, the new value of the hint, and the flag of the entry. -/
structure Found where
  line : Nat
  hint : Option (BitVec 32)
  isDbgStepPoint : Bool
deriving DecidableEq, Repr

/-! ## The lookup -/

/-- `lineinfos[i]`. -/
def entryAt (lineinfos : List LineInfo) (i : Int) : Option LineInfo :=
  if 0 ≤ i then lineinfos[i.toNat]? else none

/-- The entry at `pos` is the answer. -/
def answer (lineinfos : List LineInfo) (hint : Option (BitVec 32)) (pos : Int) : Option Found := do
  let li ← entryAt lineinfos pos
  return ⟨li.lineOffset, hint.map fun _ => BitVec.ofInt 32 pos, li.isDbgStepPoint⟩

/-- `instruction_index >= lineinfos[i]._op && instruction_index < lineinfos[i + 1]._op`: the second
entry is read only if the first comparison holds. -/
def within (lineinfos : List LineInfo) (instructionIndex i : Int) : Option Bool := do
  let li ← entryAt lineinfos i
  if (li.op : Int) ≤ instructionIndex then
    let next ← entryAt lineinfos (i + 1)
    return decide (instructionIndex < next.op)
  else
    return false

/-- The loop over all entries but the last. -/
def linearScan (instructionIndex : Int) : List LineInfo → Int → Option Int
  | li :: next :: rest, i =>
    if (li.op : Int) ≤ instructionIndex ∧ instructionIndex < next.op then some i
    else linearScan instructionIndex (next :: rest) (i + 1)
  | _, _ => none

/-- The binary search: the position, if it has been found, and the tries that are left. -/
def binarySearch (lineinfos : List LineInfo) (instructionIndex : Int) :
    Nat → Int → Int → Option (Option Int × Nat)
  | 0, _, _ => some (none, 0)
  | tryCount + 1, low, high =>
    if low ≤ high then
      -- `high >= low && --tryCount`
      if tryCount = 0 then some (none, 0)
      else do
        let mid := (high + low) / 2
        let li ← entryAt lineinfos mid
        if instructionIndex < li.op then
          binarySearch lineinfos instructionIndex tryCount low (mid - 1)
        else
          let next ← entryAt lineinfos (mid + 1)
          if (next.op : Int) ≤ instructionIndex then
            binarySearch lineinfos instructionIndex tryCount (mid + 1) high
          else
            return (some mid, tryCount)
    else some (none, tryCount + 1)

/-- The lookup without a usable hint: the binary search, and the loop over the entries when it has
used up its tries. -/
def lookUp (lineinfos : List LineInfo) (instructionIndex : Int) (hint : Option (BitVec 32)) :
    Option Found := do
  let last : Int := lineinfos.length - 1
  let (found, tryCount) ← binarySearch lineinfos instructionIndex 20 0 last
  let pos := found.getD last
  if tryCount = 0 then
    answer lineinfos hint ((linearScan instructionIndex lineinfos 0).getD pos)
  else
    answer lineinfos hint pos

/-- `unsigned(*hint) < unsigned(high)`; the hint is at least zero then, or the table is empty. -/
def hintUsable (lineinfos : List LineInfo) (h : BitVec 32) : Bool :=
  decide ((h.toNat : Int) < ((lineinfos.length : Int) - 1) % 2 ^ 32)

/-- `get_line_offset_impl` -/
def getLineOffset (lineinfos : List LineInfo) (instructionIndex : Int) (hint : Option (BitVec 32)) :
    Option Found :=
  match hint with
  | none => lookUp lineinfos instructionIndex hint
  | some h =>
    if hintUsable lineinfos h then do
      if ← within lineinfos instructionIndex h.toNat then
        answer lineinfos hint h.toNat
      else if ← within lineinfos instructionIndex (h.toNat + 1) then
        answer lineinfos hint (h.toNat + 1)
      else if instructionIndex = 0 then
        match linearScan instructionIndex lineinfos 0 with
        | some i => answer lineinfos hint i
        | none => lookUp lineinfos instructionIndex hint
      else
        lookUp lineinfos instructionIndex hint
    else
      lookUp lineinfos instructionIndex hint

/-! ## What a lookup finds -/

section

variable {lineinfos : List LineInfo} {instructionIndex : Int} {i : Nat}

theorem entryAt_natCast (i : Nat) : entryAt lineinfos i = lineinfos[i]? := by
  rw [entryAt, if_pos (Int.natCast_nonneg i), Int.toNat_natCast]

theorem exists_entryAt (lineinfos : List LineInfo) {k : Int} (h0 : 0 ≤ k) (hk : k < lineinfos.length) :
    ∃ li, entryAt lineinfos k = some li ∧ lineinfos[k.toNat]? = some li := by
  have hlt : k.toNat < lineinfos.length := by omega
  refine ⟨lineinfos[k.toNat], ?_, List.getElem?_eq_getElem hlt⟩
  rw [entryAt, if_pos h0, List.getElem?_eq_getElem hlt]

/-- The search ends at the entry that the index belongs to, if it ends at all, and reads what is behind
the middle only if there is an entry. -/
theorem binarySearch_of_spans (hs : Spans LineInfo.op lineinfos instructionIndex i)
    (hi : i + 1 < lineinfos.length) (tryCount : Nat) (low high : Int) (h0 : 0 ≤ low)
    (hlow : low ≤ i) (hhigh : (i : Int) ≤ high) (hlen : high < lineinfos.length) :
    binarySearch lineinfos instructionIndex tryCount low high = some (none, 0) ∨
      ∃ t, t ≠ 0 ∧ binarySearch lineinfos instructionIndex tryCount low high = some (some (i : Int), t) := by
  induction tryCount generalizing low high with
  | zero => exact .inl rfl
  | succ tryCount ih =>
    rw [binarySearch, if_pos (by omega)]
    by_cases ht : tryCount = 0
    · rw [if_pos ht]
      exact .inl rfl
    rw [if_neg ht]
    obtain ⟨li, hread, hli⟩ := exists_entryAt lineinfos (k := (high + low) / 2)
      (by omega) (by omega)
    simp only [hread, Option.bind_eq_bind, Option.bind_some]
    by_cases hlt : instructionIndex < li.op
    · -- entry `i` is before the middle
      rw [if_pos hlt]
      have hmid : ¬ ((high + low) / 2).toNat ≤ i := fun hle => by
        have := hs.le _ _ hli hle
        omega
      exact ih low _ h0 hlow (by omega) (by omega)
    rw [if_neg hlt]
    have hmid : ¬ i < ((high + low) / 2).toNat := fun hgt => hlt (hs.lt _ _ hli hgt)
    -- so the next entry exists: the middle is not behind entry `i`, which is not the last one
    obtain ⟨next, hreadNext, hnext⟩ := exists_entryAt lineinfos
      (k := (high + low) / 2 + 1) (by omega) (by omega)
    simp only [hreadNext, Option.bind_some]
    by_cases hge : (next.op : Int) ≤ instructionIndex
    · rw [if_pos hge]
      have hmid' : ¬ i < ((high + low) / 2 + 1).toNat := fun hgt => by
        have := hs.lt _ _ hnext hgt
        omega
      exact ih _ high (by omega) (by omega) hhigh hlen
    · rw [if_neg hge]
      have hmid' : ¬ ((high + low) / 2 + 1).toNat ≤ i := fun hle => hge (hs.le _ _ hnext hle)
      have heq : (high + low) / 2 = (i : Int) := by omega
      exact .inr ⟨tryCount, ht, by rw [heq]; rfl⟩

theorem linearScan_of_spans (hs : Spans LineInfo.op lineinfos instructionIndex i)
    (hi : i + 1 < lineinfos.length) (k : Int) :
    linearScan instructionIndex lineinfos k = some (k + i) := by
  induction lineinfos generalizing i k with
  | nil => exact absurd hi (Nat.not_lt_zero _)
  | cons li rest ih =>
    cases rest with
    | nil => exact absurd hi (by rw [List.length_singleton]; omega)
    | cons next rest =>
      rw [linearScan]
      cases i with
      | zero =>
        rw [if_pos ⟨hs.le 0 li rfl (Nat.le_refl _), hs.lt 1 next rfl Nat.one_pos⟩]
        exact congrArg some (Int.add_zero k).symm
      | succ i =>
        have hnext := hs.le 1 next rfl (by omega)
        rw [if_neg (fun h => by omega), ih hs.tail (Nat.lt_of_succ_lt_succ hi)]
        exact congrArg some (by omega)

/-- An entry is compared with its successor only if there is one. -/
theorem within_of_spans (hs : Spans LineInfo.op lineinfos instructionIndex i)
    (hi : i + 1 < lineinfos.length) {k : Nat} (hk : k < lineinfos.length) :
    within lineinfos instructionIndex k = some (decide (k = i)) := by
  rw [within, entryAt_natCast, List.getElem?_eq_getElem hk]
  simp only [Option.bind_eq_bind, Option.bind_some]
  have hli := List.getElem?_eq_getElem hk
  by_cases hki : k ≤ i
  · have hk' : k + 1 < lineinfos.length := by omega
    have hnext := List.getElem?_eq_getElem hk'
    rw [if_pos (hs.le k _ hli hki), show (k : Int) + 1 = ((k + 1 : Nat) : Int) from rfl,
      entryAt_natCast, hnext]
    simp only [Option.bind_some]
    refine congrArg some ?_
    by_cases heq : k = i
    · rw [decide_eq_true heq, decide_eq_true (hs.lt _ _ hnext (by omega))]
    · have := hs.le _ _ hnext (by omega)
      rw [decide_eq_false heq, decide_eq_false (by omega)]
  · have := hs.lt k _ hli (by omega)
    rw [if_neg (by omega), decide_eq_false (by omega)]
    rfl

theorem lookUp_of_spans (hs : Spans LineInfo.op lineinfos instructionIndex i)
    (hi : i + 1 < lineinfos.length) (hint : Option (BitVec 32)) :
    lookUp lineinfos instructionIndex hint = answer lineinfos hint i := by
  rw [lookUp]
  have hsearch := binarySearch_of_spans hs hi 20 0 (lineinfos.length - 1) (Int.le_refl 0)
    (Int.natCast_nonneg i) (by omega) (by omega)
  rcases hsearch with hnone | ⟨t, ht, hfound⟩
  · -- the tries are used up: the loop over all entries finds it
    simp only [hnone, Option.bind_eq_bind, Option.bind_some, if_true,
      linearScan_of_spans hs hi 0, Option.getD_some, Int.zero_add]
  · simp only [hfound, Option.bind_eq_bind, Option.bind_some, if_neg ht, Option.getD_some]

/-- Whatever the hint is, the entry that the index belongs to answers, unless it is the last one. -/
theorem getLineOffset_of_spans (hs : Spans LineInfo.op lineinfos instructionIndex i)
    (hi : i + 1 < lineinfos.length) (hint : Option (BitVec 32)) :
    getLineOffset lineinfos instructionIndex hint = answer lineinfos hint i := by
  cases hint with
  | none => exact lookUp_of_spans hs hi none
  | some h =>
    rw [getLineOffset]
    by_cases husable : hintUsable lineinfos h = true
    · have hh : h.toNat + 1 < lineinfos.length := by
        have := of_decide_eq_true husable
        omega
      rw [if_pos husable, within_of_spans hs hi (Nat.lt_of_succ_lt hh),
        show (h.toNat : Int) + 1 = ((h.toNat + 1 : Nat) : Int) from rfl, within_of_spans hs hi hh]
      simp only [Option.bind_eq_bind, Option.bind_some, decide_eq_true_eq]
      by_cases h0 : h.toNat = i
      · rw [if_pos h0, h0]
      by_cases h1 : h.toNat + 1 = i
      · rw [if_neg h0, if_pos h1, h1]
      rw [if_neg h0, if_neg h1]
      split
      · rw [linearScan_of_spans hs hi 0, Int.zero_add]
      · exact lookUp_of_spans hs hi _
    · rw [if_neg husable]
      exact lookUp_of_spans hs hi _

/-- The last entry is compared with what is behind the table: from the hint in front of it, or, if it
is the only entry, by the binary search. -/
theorem getLineOffset_last (hs : Spans LineInfo.op lineinfos instructionIndex i)
    (hi : i + 1 = lineinfos.length) (hlen : lineinfos.length ≤ 2 ^ 31) :
    ∃ hint, getLineOffset lineinfos instructionIndex hint = none := by
  have hlast := List.getElem?_eq_getElem hs.lt_length
  have hle := hs.le i _ hlast (Nat.le_refl i)
  have hend : lineinfos[i + 1]? = none := List.getElem?_eq_none (by omega)
  cases i with
  | zero =>
    refine ⟨none, ?_⟩
    have hread : binarySearch lineinfos instructionIndex 20 0 0 = none := by
      rw [binarySearch, if_pos (Int.le_refl 0), if_neg (by decide)]
      simp only [show ((0 : Int) + 0) / 2 = ((0 : Nat) : Int) from rfl, entryAt_natCast, hlast,
        Option.bind_eq_bind, Option.bind_some]
      rw [if_neg (by omega), show ((0 : Nat) : Int) + 1 = ((0 + 1 : Nat) : Int) from rfl,
        entryAt_natCast, hend]
      rfl
    rw [getLineOffset, lookUp, ← hi, show ((0 + 1 : Nat) : Int) - 1 = 0 from rfl, hread]
    rfl
  | succ k =>
    -- the hint is the entry before, so both entries tried are at the end of the list
    refine ⟨some (BitVec.ofNat 32 k), ?_⟩
    have hk : (BitVec.ofNat 32 k).toNat = k := by
      rw [BitVec.toNat_ofNat]
      exact Nat.mod_eq_of_lt (by omega)
    have husable : hintUsable lineinfos (BitVec.ofNat 32 k) = true := by
      rw [hintUsable, hk]
      exact decide_eq_true (by omega)
    have hfirst := List.getElem?_eq_getElem (l := lineinfos) (i := k) (by omega)
    have hbefore : within lineinfos instructionIndex k = some false := by
      rw [within, entryAt_natCast, hfirst]
      simp only [Option.bind_eq_bind, Option.bind_some]
      rw [if_pos (hs.le k _ hfirst (by omega)), show (k : Int) + 1 = ((k + 1 : Nat) : Int) from rfl,
        entryAt_natCast, hlast]
      simp only [Option.bind_some]
      rw [decide_eq_false (by omega)]
      rfl
    have hbehind : within lineinfos instructionIndex (k + 1) = none := by
      rw [within, show (k : Int) + 1 = ((k + 1 : Nat) : Int) from rfl, entryAt_natCast, hlast]
      simp only [Option.bind_eq_bind, Option.bind_some]
      rw [if_pos hle, show ((k + 1 : Nat) : Int) + 1 = ((k + 1 + 1 : Nat) : Int) from rfl,
        entryAt_natCast, hend]
      rfl
    rw [getLineOffset, if_pos husable, hk, hbefore, hbehind]
    rfl

end

/-- The line infos of a function prototype, with their header (`SQLineInfosHeader`). -/
structure LineInfos where
  firstLine : Nat
  isCompressed : Bool
  entries : List LineInfo
deriving DecidableEq, Repr

/-- `SQFunctionProto::GetLine` -/
def getLine (lineinfos : LineInfos) (instructionIndex : Int) (hint : Option (BitVec 32)) :
    Option Found :=
  (getLineOffset lineinfos.entries instructionIndex hint).map fun f =>
    { f with line := f.line + lineinfos.firstLine }

/-! ## The two forms -/

/-- `INT_MAX`. -/
def intMax : Nat := 2 ^ 31 - 1

/-- `firstLine` of `BuildProto`: the smallest line. -/
def firstLine (infos : List LineInfo) : Nat :=
  infos.foldl (fun first li => if li.lineOffset < first then li.lineOffset else first) intMax

/-- `lastLine` of `BuildProto`: the greatest line. -/
def lastLine (infos : List LineInfo) : Nat :=
  infos.foldl (fun last li => if last < li.lineOffset then li.lineOffset else last) 0

/-- `useCompressedLineInfos` of `BuildProto`. -/
def useCompressedLineInfos (infos : List LineInfo) : Bool :=
  infos.all (fun li => decide (li.op ≤ 255)) &&
    decide ((lastLine infos : Int) - firstLine infos ≤ 127)

/-- An entry as it is written: the operation has 8 or 32 bits, the offset 7 or 31. -/
def encode (compressed : Bool) (first : Nat) (li : LineInfo) : LineInfo :=
  let offset : Int := li.lineOffset - first
  if compressed then ⟨li.op % 2 ^ 8, (offset % 2 ^ 7).toNat, li.isDbgStepPoint⟩
  else ⟨li.op, (offset % 2 ^ 31).toNat, li.isDbgStepPoint⟩

/-- The line infos that `BuildProto` writes in one of the two forms. -/
def buildLineInfos (compressed : Bool) (infos : List LineInfo) : LineInfos where
  firstLine := firstLine infos
  isCompressed := compressed
  entries := infos.map (encode compressed (firstLine infos))

end Quirrel.FunctionProto
