import Quirrel.FunctionProto.GetLine
import Quirrel.Lib.Runs

/-!
# The line infos of a function

`SQFuncState` records a line when the compiler gets to it (`AddLineInfos`), drops the instructions of a
loop modifier to emit them again behind the body (`PopInstructions`), and moves the recorded lines when
the optimizer removes instructions (`cutRange`). `RecordsInOrder` is the condition under which a step
keeps the table in order. Main theorem `getLine_iff`: in a run whose steps all meet it, the lookup is
exact for the instructions in front of the start of the last entry, and for no others.
`getLine_reads_behind` and `getLine_popped_modifier` are the control examples.
-/

set_option autoImplicit false

namespace Quirrel.FunctionProto

open Quirrel.Lib

/-! ## The two forms agree -/

section

variable {infos : List LineInfo} {li : LineInfo}

/-- A fold whose steps stay on one side of the value so far and of the element's value. -/
theorem foldl_bound {R : Nat → Nat → Prop} (hrefl : ∀ m, R m m)
    (htrans : ∀ a b c, R a b → R b c → R a c) {f : Nat → LineInfo → Nat}
    (hleft : ∀ m li, R (f m li) m) (hright : ∀ m li, R (f m li) li.lineOffset)
    (infos : List LineInfo) (m : Nat) :
    R (infos.foldl f m) m ∧ ∀ li ∈ infos, R (infos.foldl f m) li.lineOffset := by
  induction infos generalizing m with
  | nil => exact ⟨hrefl m, fun _ hli => absurd hli List.not_mem_nil⟩
  | cons a rest ih =>
    obtain ⟨hm, hrest⟩ := ih (f m a)
    refine ⟨htrans _ _ _ hm (hleft m a), fun li hli => ?_⟩
    rcases List.mem_cons.mp hli with rfl | hli
    · exact htrans _ _ _ hm (hright m li)
    · exact hrest li hli

theorem firstLine_le_of_mem (h : li ∈ infos) : firstLine infos ≤ li.lineOffset :=
  (foldl_bound (R := fun a b => a ≤ b) (fun _ => Nat.le_refl _) (fun _ _ _ => Nat.le_trans)
    (fun m li => by split <;> omega) (fun m li => by split <;> omega)
    infos intMax).2 li h

theorem le_lastLine_of_mem (h : li ∈ infos) : li.lineOffset ≤ lastLine infos :=
  (foldl_bound (R := fun a b => b ≤ a) (fun _ => Nat.le_refl _)
    (fun _ _ _ hab hbc => Nat.le_trans hbc hab)
    (fun m li => by split <;> omega) (fun m li => by split <;> omega)
    infos 0).2 li h

theorem encode_eq_of_mem (hc : useCompressedLineInfos infos = true) (h : li ∈ infos) :
    encode true (firstLine infos) li = encode false (firstLine infos) li := by
  obtain ⟨hops, hlines⟩ := (Bool.and_eq_true _ _).mp hc
  have hop := of_decide_eq_true (List.all_eq_true.mp hops li h)
  have hspan := of_decide_eq_true hlines
  have hfirst := firstLine_le_of_mem h
  have hlast := le_lastLine_of_mem h
  simp only [encode, if_true, Bool.false_eq_true, if_false]
  rw [Nat.mod_eq_of_lt (show li.op < 2 ^ 8 by omega), Int.emod_eq_of_lt (by omega) (by omega),
    Int.emod_eq_of_lt (by omega) (by omega)]

/-- Wherever the compressed form is used, it gives the same answers as the full one. -/
theorem buildLineInfos_entries (hc : useCompressedLineInfos infos = true) :
    (buildLineInfos true infos).entries = (buildLineInfos false infos).entries :=
  List.map_congr_left fun _ hli => encode_eq_of_mem hc hli

theorem getLine_compressed (hc : useCompressedLineInfos infos = true) (instructionIndex : Int)
    (hint : Option (BitVec 32)) :
    getLine (buildLineInfos true infos) instructionIndex hint =
      getLine (buildLineInfos false infos) instructionIndex hint := by
  rw [getLine, getLine, buildLineInfos_entries hc]
  rfl

/-- In either form that may be used, an entry keeps its instruction. -/
theorem encode_op {compressed : Bool}
    (hc : compressed = true → useCompressedLineInfos infos = true) (h : li ∈ infos) :
    (encode compressed (firstLine infos) li).op = li.op := by
  cases compressed with
  | false => rfl
  | true =>
    rw [encode_eq_of_mem (hc rfl) h]
    rfl

/-- In either form that may be used, the offset and the first line give the line again. -/
theorem encode_lineOffset {compressed : Bool}
    (hc : compressed = true → useCompressedLineInfos infos = true) (h : li ∈ infos)
    (hline : li.lineOffset < 2 ^ 31) :
    (encode compressed (firstLine infos) li).lineOffset + firstLine infos = li.lineOffset := by
  have hfirst := firstLine_le_of_mem h
  have hfull : (encode false (firstLine infos) li).lineOffset + firstLine infos = li.lineOffset := by
    simp only [encode, Bool.false_eq_true, if_false]
    rw [Int.emod_eq_of_lt (by omega) (by omega)]
    omega
  cases compressed with
  | false => exact hfull
  | true => rw [encode_eq_of_mem (hc rfl) h, hfull]

end

/-! ## Exact lookups -/

/-- The lookup gives the line of the last entry whose instruction is not behind the given one, whatever
the hint is, without reading outside the table, in each form that the table may have; and the two forms
answer alike. -/
structure ExactLookup (infos : List LineInfo) (instructionIndex : Int) : Prop where
  line (compressed : Bool) (hc : compressed = true → useCompressedLineInfos infos = true)
    (hint : Option (BitVec 32)) : ∃ li f, floorEntry LineInfo.op instructionIndex infos = some li ∧
      getLine (buildLineInfos compressed infos) instructionIndex hint = some f ∧
      f.line = li.lineOffset
  agree (hc : useCompressedLineInfos infos = true) (hint : Option (BitVec 32)) :
    getLine (buildLineInfos true infos) instructionIndex hint =
      getLine (buildLineInfos false infos) instructionIndex hint

/-- The lookup in a table in order. -/
theorem exactLookup_iff {infos : List LineInfo} (hord : Ascending LineInfo.op infos)
    (hlines : ∀ li ∈ infos, li.lineOffset < 2 ^ 31) (hlen : infos.length ≤ 2 ^ 31)
    (instructionIndex : Int) : ExactLookup infos instructionIndex ↔
      (∃ li ∈ infos, (li.op : Int) ≤ instructionIndex) ∧ ∃ li ∈ infos, instructionIndex < li.op := by
  constructor
  · intro h
    obtain ⟨_, _, hfloor, _⟩ := h.line false (fun hc => nomatch hc) none
    have hex := exists_le_of_floorEntry hfloor
    refine ⟨hex, ?_⟩
    obtain ⟨i, hs⟩ := hord.exists_spans hex
    by_cases hi : i + 1 < infos.length
    · exact ⟨infos[i + 1], List.getElem_mem hi,
        hs.lt (i + 1) _ (List.getElem?_eq_getElem hi) (Nat.lt_succ_self i)⟩
    · -- entry `i` is the last one: some hint makes the lookup read behind the table
      have hs' : Spans LineInfo.op (buildLineInfos false infos).entries instructionIndex i :=
        hs.map fun _ _ => rfl
      have hlength : (buildLineInfos false infos).entries.length = infos.length := List.length_map _
      have hlt := hs.lt_length
      obtain ⟨hint, hnone⟩ := getLineOffset_last hs' (by omega) (by omega)
      obtain ⟨_, _, _, hsome, _⟩ := h.line false (fun hc => nomatch hc) hint
      rw [getLine, hnone] at hsome
      cases hsome
  · rintro ⟨hex, li, hli, hlt⟩
    obtain ⟨i, hs⟩ := hord.exists_spans hex
    -- `li` is behind entry `i`
    obtain ⟨k, hk, rfl⟩ := List.mem_iff_getElem.mp hli
    have hik : i < k := Nat.lt_of_not_le fun hki => by
      have := hs.le k _ (List.getElem?_eq_getElem hk) hki
      omega
    refine ⟨fun compressed hc hint => ?_, fun hc hint => getLine_compressed hc _ hint⟩
    have hi : i < infos.length := hs.lt_length
    have hs' : Spans LineInfo.op (buildLineInfos compressed infos).entries instructionIndex i :=
      hs.map fun _ ha => encode_op hc ha
    have hlength : (buildLineInfos compressed infos).entries.length = infos.length :=
      List.length_map _
    have hentry : (buildLineInfos compressed infos).entries[i]? =
        some (encode compressed (firstLine infos) infos[i]) := by
      rw [show (buildLineInfos compressed infos).entries =
        infos.map (encode compressed (firstLine infos)) from rfl, List.getElem?_map,
        List.getElem?_eq_getElem hi]
      rfl
    refine ⟨infos[i], ⟨infos[i].lineOffset, hint.map fun _ => BitVec.ofInt 32 i,
      infos[i].isDbgStepPoint⟩, ?_, ?_, rfl⟩
    · rw [hs.floorEntry_eq, List.getElem?_eq_getElem hi]
    · rw [getLine, getLineOffset_of_spans hs' (by omega), answer, entryAt_natCast, hentry]
      have hmem := List.getElem_mem hi
      refine congrArg some ?_
      rw [Found.mk.injEq]
      refine ⟨encode_lineOffset hc hmem (hlines _ hmem), rfl, ?_⟩
      cases compressed <;> rfl

/-! ## Recording the lines -/

/-- What `SQFuncState` has to do with the lines: how many instructions there are, the line recorded
last, and `_full_line_infos`. -/
structure FuncState where
  instructions : Nat
  lastline : Int
  lineInfos : List LineInfo
deriving DecidableEq, Repr

namespace FuncState

/-- The function state as it is constructed. -/
def start : FuncState := ⟨0, 0, []⟩

/-- `GetCurrentPos` -/
def getCurrentPos (s : FuncState) : Int := s.instructions - 1

/-- `AddLineInfos`; the number of entries is an `int`. -/
def addLineInfos (s : FuncState) (line : Int) (isDbgStepPoint force : Bool) : Option FuncState :=
  if s.lastline ≠ line ∨ force then
    if s.lastline ≠ line then
      if s.lineInfos.length < intMax then
        some { s with
          lineInfos := s.lineInfos ++
            [⟨(s.getCurrentPos + 1).toNat, (line % 2 ^ 31).toNat, isDbgStepPoint⟩]
          lastline := line }
      else none
    else some { s with lastline := line }
  else some s

/-- What `cutRange` does to an entry. -/
def cutEntry (tmpStart tmpCount : Nat) (li : LineInfo) : LineInfo :=
  if tmpStart < li.op then { li with op := li.op - tmpCount } else li

/-- `SQOptimizer::cutRange`. -/
def cutRange (s : FuncState) (start oldCount newCount : Nat) : FuncState :=
  let tmpStart := start + newCount
  let tmpCount := oldCount - newCount
  { s with
    instructions := s.instructions - tmpCount
    lineInfos := s.lineInfos.map (cutEntry tmpStart tmpCount) }

end FuncState

/-- The steps of a compilation that matter for the lines. An instruction that `AddInstruction` merges
into the one before it is not a step. -/
inductive BuildStep
  | addInstruction
  | popInstructions (size : Nat)
  | addLineInfos (line : Int) (isDbgStepPoint force : Bool)
  | cutRange (start oldCount newCount : Nat)

/-- The counts that the optimizer calls `cutRange` with. -/
def cutCounts : List (Nat × Nat) := [(3, 1), (1, 0), (2, 1)]

/-- One call of the code generator. -/
def buildStep (s : FuncState) : BuildStep → Option FuncState
  | .addInstruction => some { s with instructions := s.instructions + 1 }
  | .popInstructions size =>
    if size ≤ s.instructions then some { s with instructions := s.instructions - size } else none
  | .addLineInfos line isDbgStepPoint force => s.addLineInfos line isDbgStepPoint force
  | .cutRange start oldCount newCount =>
    if (oldCount, newCount) ∈ cutCounts ∧ start + oldCount ≤ s.instructions then
      some (s.cutRange start oldCount newCount)
    else none

/-- No line is recorded while there are entries for instructions that have been dropped, and no entry
stays behind in a cut that moves a later entry in front of it. -/
def RecordsInOrder (s : FuncState) : BuildStep → Prop
  | .addLineInfos line _ _ => s.lastline ≠ line → ∀ li ∈ s.lineInfos, li.op ≤ s.instructions
  | .cutRange start oldCount newCount => ∀ a ∈ s.lineInfos, ∀ b ∈ s.lineInfos,
      a.op ≤ start + newCount → start + newCount < b.op → a.op + (oldCount - newCount) ≤ b.op
  | _ => True

theorem FuncState.cutEntry_op (tmpStart tmpCount : Nat) (li : LineInfo) :
    (cutEntry tmpStart tmpCount li).op = if tmpStart < li.op then li.op - tmpCount else li.op := by
  unfold cutEntry
  split <;> rfl

theorem FuncState.cutEntry_lineOffset (tmpStart tmpCount : Nat) (li : LineInfo) :
    (cutEntry tmpStart tmpCount li).lineOffset = li.lineOffset := by
  unfold cutEntry
  split <;> rfl

theorem ascending_cut_iff {infos : List LineInfo} (hord : Ascending LineInfo.op infos)
    {tmpStart tmpCount : Nat} (hcount : tmpCount ≤ tmpStart + 1) :
    Ascending LineInfo.op (infos.map (FuncState.cutEntry tmpStart tmpCount)) ↔
      ∀ a ∈ infos, ∀ b ∈ infos, a.op ≤ tmpStart → tmpStart < b.op → a.op + tmpCount ≤ b.op := by
  rw [Ascending, List.pairwise_map]
  constructor
  · intro h a ha b hb hat hbt
    obtain ⟨j, hj, rfl⟩ := List.mem_iff_getElem.mp ha
    obtain ⟨k, hk, rfl⟩ := List.mem_iff_getElem.mp hb
    -- an entry behind the cut comes after one in front of it
    have hjk : j < k := Nat.lt_of_not_le fun hkj => by
      have := hord.le_of_le (List.getElem?_eq_getElem hk) (List.getElem?_eq_getElem hj) hkj
      omega
    have hpair := List.pairwise_iff_getElem.mp h j k hj hk hjk
    rw [FuncState.cutEntry_op, FuncState.cutEntry_op, if_neg (by omega), if_pos hbt] at hpair
    omega
  · intro h
    refine List.Pairwise.imp_of_mem (fun {a b} ha hb hab => ?_) hord
    rw [FuncState.cutEntry_op, FuncState.cutEntry_op]
    have hpair := h a ha b hb
    split <;> split <;> omega

theorem ascending_concat_iff {infos : List LineInfo} (hord : Ascending LineInfo.op infos)
    (li : LineInfo) :
    Ascending LineInfo.op (infos ++ [li]) ↔ ∀ a ∈ infos, a.op ≤ li.op := by
  refine ⟨fun h a ha => ?_, hord.concat⟩
  exact (List.pairwise_append.mp h).2.2 a ha li (List.mem_singleton_self li)

/-- What a step does to the table. -/
theorem lineInfos_buildStep {s s' : FuncState} {e : BuildStep} (h : buildStep s e = some s') :
    (s'.lineInfos = s.lineInfos ∧ RecordsInOrder s e) ∨
    (∃ line isDbgStepPoint force, e = .addLineInfos line isDbgStepPoint force ∧ s.lastline ≠ line ∧
      s.lineInfos.length < intMax ∧ s'.lineInfos = s.lineInfos ++
        [⟨s.instructions, (line % 2 ^ 31).toNat, isDbgStepPoint⟩]) ∨
    (∃ start oldCount newCount, e = .cutRange start oldCount newCount ∧
      oldCount - newCount ≤ start + newCount + 1 ∧ s'.lineInfos =
        s.lineInfos.map (FuncState.cutEntry (start + newCount) (oldCount - newCount))) := by
  cases e with
  | addInstruction =>
    cases h
    exact .inl ⟨rfl, trivial⟩
  | popInstructions size =>
    simp only [buildStep] at h
    split at h
    · cases h
      exact .inl ⟨rfl, trivial⟩
    · cases h
  | addLineInfos line isDbgStepPoint force =>
    simp only [buildStep, FuncState.addLineInfos] at h
    by_cases hline : s.lastline = line
    · -- the line is the one recorded last
      have hkeep : s'.lineInfos = s.lineInfos := by
        split at h
        · rw [if_neg (fun hne => hne hline)] at h
          cases h
          rfl
        · cases h
          rfl
      exact .inl ⟨hkeep, fun hne => absurd hline hne⟩
    -- a new line is recorded at the position of the next instruction
    · rw [if_pos (.inl hline), if_pos hline] at h
      split at h
      case isTrue hlen =>
        cases h
        have hpos : (s.getCurrentPos + 1).toNat = s.instructions := by
          rw [FuncState.getCurrentPos]
          omega
        rw [hpos]
        exact .inr (.inl ⟨line, isDbgStepPoint, force, rfl, hline, hlen, rfl⟩)
      case isFalse => cases h
  | cutRange start oldCount newCount =>
    simp only [buildStep] at h
    split at h
    case isTrue hc =>
      cases h
      refine .inr (.inr ⟨start, oldCount, newCount, rfl, ?_, rfl⟩)
      have hcounts := hc.1
      simp only [cutCounts, List.mem_cons, Prod.mk.injEq, List.not_mem_nil, or_false] at hcounts
      omega
    case isFalse => cases h

/-- A step keeps the table in order exactly under its condition. -/
theorem ascending_buildStep_iff {s s' : FuncState} {e : BuildStep}
    (hord : Ascending LineInfo.op s.lineInfos) (hstep : buildStep s e = some s') :
    Ascending LineInfo.op s'.lineInfos ↔ RecordsInOrder s e := by
  rcases lineInfos_buildStep hstep with ⟨hkeep, hin⟩ | ⟨line, dbg, force, rfl, hline, -, hpush⟩ |
    ⟨start, oldCount, newCount, rfl, hcount, hcut⟩
  · rw [hkeep]
    exact iff_of_true hord hin
  · rw [hpush, ascending_concat_iff hord]
    exact ⟨fun h _ => h, fun h => h hline⟩
  · rw [hcut]
    exact ascending_cut_iff hord hcount

/-- What every run under the condition keeps. -/
structure TableInv (s : FuncState) : Prop where
  ascending : Ascending LineInfo.op s.lineInfos
  lineOffset_lt : ∀ li ∈ s.lineInfos, li.lineOffset < 2 ^ 31
  length_le : s.lineInfos.length ≤ intMax

theorem TableInv.buildStep {s s' : FuncState} {e : BuildStep} (h : TableInv s)
    (hin : RecordsInOrder s e) (hstep : buildStep s e = some s') : TableInv s' := by
  refine ⟨(ascending_buildStep_iff h.ascending hstep).mpr hin, ?_, ?_⟩
  all_goals rcases lineInfos_buildStep hstep with ⟨hkeep, -⟩ |
    ⟨line, dbg, force, rfl, hline, hlen, hpush⟩ | ⟨start, oldCount, newCount, rfl, hcount, hcut⟩
  · rw [hkeep]
    exact h.lineOffset_lt
  · rw [hpush]
    intro li hli
    rcases List.mem_append.mp hli with hli | hli
    · exact h.lineOffset_lt li hli
    · rw [List.mem_singleton.mp hli]
      show (line % 2 ^ 31).toNat < 2 ^ 31
      omega
  · rw [hcut]
    intro li hli
    obtain ⟨a, ha, rfl⟩ := List.mem_map.mp hli
    rw [FuncState.cutEntry_lineOffset]
    exact h.lineOffset_lt a ha
  · rw [hkeep]
    exact h.length_le
  · rw [hpush, List.length_append]
    exact hlen
  · rw [hcut, List.length_map]
    exact h.length_le

theorem tableInv_of_run {s : FuncState} {es : List BuildStep}
    (h : Run buildStep RecordsInOrder FuncState.start es s) : TableInv s :=
  h.invariant (fun _ _ _ hs hin hstep => hs.buildStep hin hstep)
    ⟨List.Pairwise.nil, fun _ hli => absurd hli List.not_mem_nil, Nat.zero_le _⟩

/-- When every step of a compilation records in order, the lookup is exact for the instructions from the
first entry on up to the start of the last one, and for no others. -/
theorem getLine_iff {s : FuncState} {es : List BuildStep}
    (h : Run buildStep RecordsInOrder FuncState.start es s) (instructionIndex : Int) :
    ExactLookup s.lineInfos instructionIndex ↔
      (∃ li ∈ s.lineInfos, (li.op : Int) ≤ instructionIndex) ∧
        ∃ li ∈ s.lineInfos, instructionIndex < li.op := by
  have hinv := tableInv_of_run h
  have hlen := hinv.length_le
  exact exactLookup_iff hinv.ascending hinv.lineOffset_lt (by unfold intMax at hlen; omega) _

/-- Two lines with an instruction each, and the first of the instructions. -/
theorem getLine_iff_two_lines : ExactLookup [⟨0, 1, true⟩, ⟨1, 2, true⟩] 0 := by
  have hrun : Run buildStep RecordsInOrder FuncState.start
      [.addLineInfos 1 true false, .addInstruction, .addLineInfos 2 true false, .addInstruction]
      ⟨2, 2, [⟨0, 1, true⟩, ⟨1, 2, true⟩]⟩ :=
    .cons (fun _ => by decide) rfl <| .cons trivial rfl <| .cons (fun _ => by decide) rfl <|
      .cons trivial rfl <| .nil _
  exact (getLine_iff hrun 0).mpr (by decide)

/-- One line: the search reads behind the table. -/
theorem getLine_reads_behind :
    execute buildStep FuncState.start [.addLineInfos 1 true false, .addInstruction] =
        some ⟨1, 1, [⟨0, 1, true⟩]⟩ ∧
      getLine (buildLineInfos true [⟨0, 1, true⟩]) 0 none = none ∧
      ¬ ExactLookup [⟨0, 1, true⟩] 0 := by
  have hnone : getLine (buildLineInfos true [⟨0, 1, true⟩]) 0 none = none := by decide
  refine ⟨by decide, hnone, fun h => ?_⟩
  obtain ⟨_, _, _, hsome, _⟩ := h.line true (by decide) none
  rw [hnone] at hsome
  cases hsome

/-- A loop whose modifier is on lines 2 and 3 and whose body is on line 4: the modifier's lines stay in
the table when its instructions are dropped, and the body's first instructions get the line of the
modifier. -/
theorem getLine_popped_modifier :
    ∃ s, execute buildStep FuncState.start [.addLineInfos 1 true false, .addInstruction,
        .addLineInfos 2 true false, .addInstruction, .addInstruction, .addLineInfos 3 true false,
        .addInstruction, .popInstructions 3, .addLineInfos 4 true false, .addInstruction,
        .addInstruction, .addInstruction, .addInstruction, .addLineInfos 5 true false,
        .addInstruction] = some s ∧
      (floorEntry LineInfo.op 2 s.lineInfos).map LineInfo.lineOffset = some 4 ∧
      (getLine (buildLineInfos true s.lineInfos) 2 none).map Found.line = some 2 :=
  ⟨_, rfl, by decide, by decide⟩

end Quirrel.FunctionProto
