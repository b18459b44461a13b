import Mathlib.Data.Set.Insert
import Mathlib.Tactic.Tauto
import Quirrel.Vm.Exec

/-!
# Frames that agree on the live registers

Two frames agree on a set of registers if they share the store and the cells of captured variables
and hold the same values in these registers. An instruction whose operands are in the set leaves
two such frames alike (`exec_agree`), and so does code that only reads live registers
(`runCode_agree`).
-/

set_option autoImplicit false

namespace Quirrel.Vm

variable {G : Type}

/-! ## Agreement -/

/-- Two machines agree on the store and on the registers of a set. -/
structure Agree (L : Set Nat) (m m' : Machine G) : Prop where
  store : m.store = m'.store
  captured : m.captured = m'.captured
  read : ∀ r, r ∈ L → m.read r = m'.read r

/-- The same branch, the same error or result, and the same registers where it goes on. -/
inductive Related (L : Set Nat) : Outcome G → Outcome G → Prop where
  | next {m m' : Machine G} (h : Agree L m m') : Related L (.next m) (.next m')
  | jump {live : Set Nat} {m m' : Machine G} (h : Agree live m m') :
      Related L (.jump live m) (.jump live m')
  | ret (v : SQObject) (s : Store G) : Related L (.ret v s) (.ret v s)
  | error {e : SQObject} {live : Option (Set Nat)} {m m' : Machine G} (hs : m.store = m'.store)
      (h : ∀ E, live = some E → Agree E m m') : Related L (.error e live m) (.error e live m')

theorem Agree.refl (L : Set Nat) (m : Machine G) : Agree L m m :=
  ⟨rfl, rfl, fun _ _ => rfl⟩

theorem Agree.trans {L : Set Nat} {m₁ m₂ m₃ : Machine G} (h : Agree L m₁ m₂)
    (h' : Agree L m₂ m₃) : Agree L m₁ m₃ :=
  ⟨h.store.trans h'.store, h.captured.trans h'.captured, fun r hr =>
    (h.read r hr).trans (h'.read r hr)⟩

/-- Agreement on more registers is agreement on fewer. -/
theorem Agree.mono {L L' : Set Nat} {m m' : Machine G} (h : Agree L m m') (hL : L' ⊆ L) :
    Agree L' m m' :=
  ⟨h.store, h.captured, fun r hr => h.read r (hL hr)⟩

theorem Related.refl (L : Set Nat) (o : Outcome G) : Related L o o := by
  cases o with
  | next m => exact .next (Agree.refl L m)
  | jump live m => exact .jump (Agree.refl live m)
  | ret v s => exact .ret v s
  | error e live m => exact .error rfl fun E _ => Agree.refl E m

theorem Related.trans {L : Set Nat} {o₁ o₂ o₃ : Outcome G} (h : Related L o₁ o₂)
    (h' : Related L o₂ o₃) : Related L o₁ o₃ := by
  cases h with
  | next h =>
    cases h' with
    | next h' => exact .next (h.trans h')
  | jump h =>
    cases h' with
    | jump h' => exact .jump (h.trans h')
  | ret v s => exact h'
  | error hs h =>
    cases h' with
    | error hs' h' => exact .error (hs.trans hs') fun E hE => (h E hE).trans (h' E hE)

/-- Related outcomes stay related for fewer registers. -/
theorem Related.mono {L L' : Set Nat} {o o' : Outcome G} (h : Related L o o') (hL : L' ⊆ L) :
    Related L' o o' := by
  cases h with
  | next h => exact .next (h.mono hL)
  | jump h => exact .jump h
  | ret v s => exact .ret v s
  | error hs h => exact .error hs h

/-! ## Reads and writes -/

/-- A register without an outer reads its slot. -/
theorem Machine.read_of_free {m : Machine G} {r : Nat} (h : m.captured r = none) :
    m.read r = m.slots r := by
  simp [Machine.read, h]

@[simp]
theorem Machine.write_captured (m : Machine G) (r : Nat) (v : SQObject) :
    (m.write r v).captured = m.captured := by
  unfold Machine.write
  split <;> rfl

@[simp]
theorem Machine.withStore_captured (m : Machine G) (s : Store G) :
    (m.withStore s).captured = m.captured := rfl

@[simp]
theorem Machine.withStore_store (m : Machine G) (s : Store G) : (m.withStore s).store = s := rfl

/-- A write to a register without an outer leaves the store. -/
theorem Machine.write_store_of_free {m : Machine G} {r : Nat} (h : m.captured r = none)
    (v : SQObject) : (m.write r v).store = m.store := by
  simp [Machine.write, h]

/-- A register reads what was written to it. -/
@[simp]
theorem Machine.read_write_self (m : Machine G) (r : Nat) (v : SQObject) :
    (m.write r v).read r = v := by
  cases h : m.captured r <;> simp [Machine.read, Machine.write, h]

/-- Writing a free register leaves the other registers alone. -/
theorem Machine.read_write_of_ne {m : Machine G} {t r : Nat} (h : m.captured t = none)
    (hr : r ≠ t) (v : SQObject) : (m.write t v).read r = m.read r := by
  simp [Machine.read, Machine.write, h, Function.update_of_ne hr]

/-- A register that is given its own value. -/
theorem Machine.write_read_self (m : Machine G) (r : Nat) : m.write r (m.read r) = m := by
  cases h : m.captured r <;> simp [Machine.read, Machine.write, h]

/-- After equal writes two machines agree on that register too. -/
theorem Agree.write {L : Set Nat} {m m' : Machine G} (h : Agree L m m') (r : Nat)
    (v : SQObject) : Agree (insert r L) (m.write r v) (m'.write r v) := by
  have hc := congrFun h.captured r
  refine ⟨?_, ?_, fun q hq => ?_⟩
  · cases hr : m.captured r <;>
      simp [Machine.write, hr, hc ▸ hr, h.store]
  · rw [Machine.write_captured, Machine.write_captured, h.captured]
  · by_cases hqr : q = r
    · rw [hqr, Machine.read_write_self, Machine.read_write_self]
    · have hread := h.read q (hq.resolve_left hqr)
      have hcq := congrFun h.captured q
      -- A cell is changed on both sides or on none; a slot `q ≠ r` on neither.
      cases hr : m.captured r with
      | none =>
        rw [Machine.read_write_of_ne hr hqr, Machine.read_write_of_ne (hc ▸ hr) hqr, hread]
      | some c =>
        cases hmq : m.captured q with
        | none =>
          rw [Machine.read_of_free hmq, Machine.read_of_free (hcq ▸ hmq)] at hread
          simpa [Machine.read, Machine.write, hr, hc ▸ hr, hmq, hcq ▸ hmq] using hread
        | some d =>
          simp [Machine.read, Machine.write, hr, hc ▸ hr, hmq, hcq ▸ hmq, h.store]

theorem Agree.withStore {L : Set Nat} {m m' : Machine G} (h : Agree L m m') (s : Store G) :
    Agree L (m.withStore s) (m'.withStore s) := by
  refine ⟨rfl, h.captured, fun r hr => ?_⟩
  have hread := h.read r hr
  have hc := congrFun h.captured r
  cases hm : m.captured r with
  | none =>
    rw [Machine.read_of_free hm, Machine.read_of_free (hc ▸ hm)] at hread
    simpa [Machine.read, Machine.withStore, hm, hc ▸ hm] using hread
  | some c => simp [Machine.read, Machine.withStore, hm, hc ▸ hm]

@[simp]
theorem Machine.read_closeOuters (m : Machine G) (n r : Nat) :
    (m.closeOuters n).read r = m.read r := by
  by_cases h : n ≤ r
  · simp [Machine.read, Machine.closeOuters, h]
  · cases hm : m.captured r <;> simp [Machine.read, Machine.closeOuters, h, hm]

/-- Closing outers keeps the agreement. -/
theorem Agree.closeOuters {L : Set Nat} {m m' : Machine G} (h : Agree L m m') (n : Nat) :
    Agree L (m.closeOuters n) (m'.closeOuters n) := by
  refine ⟨h.store, ?_, fun r hr => ?_⟩
  · funext r
    simp [Machine.closeOuters, h.captured]
  · rw [Machine.read_closeOuters, Machine.read_closeOuters, h.read r hr]

/-- A callee that changes captured registers keeps the agreement. -/
theorem Agree.clobber {L : Set Nat} {m m' : Machine G} (h : Agree L m m') (base : Nat)
    (f : Nat → Option SQObject) : Agree L (m.clobber base f) (m'.clobber base f) := by
  refine ⟨h.store, h.captured, fun r hr => ?_⟩
  have hread := h.read r hr
  have hc := congrFun h.captured r
  cases hm : m.captured r with
  | none =>
    rw [Machine.read_of_free hm, Machine.read_of_free (hc ▸ hm)] at hread
    simp [Machine.read, Machine.clobber, hm, hc ▸ hm, hread]
  | some c => simp [Machine.read, Machine.clobber, hm, hc ▸ hm, h.store]

/-- New outers keep the agreement. -/
theorem Agree.capture {L : Set Nat} {m m' : Machine G} (h : Agree L m m') (regs : List Nat)
    (newCells : Nat → Option Nat) : Agree L (m.capture regs newCells) (m'.capture regs newCells) := by
  refine ⟨h.store, ?_, fun r hr => ?_⟩
  · simp [Machine.capture, h.captured]
  · have hread := h.read r hr
    have hc := congrFun h.captured r
    by_cases hreg : r ∈ regs
    · cases hn : newCells r with
      | none =>
        cases hm : m.captured r with
        | none => simpa [Machine.read, Machine.capture, hreg, hn, hm, hc ▸ hm] using hread
        | some c => simp [Machine.read, Machine.capture, hreg, hn, hm, hc ▸ hm, h.store]
      | some c => simp [Machine.read, Machine.capture, hreg, hn, h.store]
    · cases hm : m.captured r with
      | none => simpa [Machine.read, Machine.capture, hreg, hm, hc ▸ hm] using hread
      | some c => simp [Machine.read, Machine.capture, hreg, hm, hc ▸ hm, h.store]

/-- After equal writes two machines agree on those registers too. -/
theorem Agree.writeAll {L : Set Nat} {m m' : Machine G} (h : Agree L m m')
    (updates : List (Nat × SQObject)) :
    Agree (L ∪ {r | r ∈ updates.map Prod.fst}) (m.writeAll updates) (m'.writeAll updates) := by
  induction updates generalizing L m m' with
  | nil => exact h.mono (by simp)
  | cons u updates ih =>
    refine (ih (h.write u.1 u.2)).mono ?_
    rintro r (hr | hr)
    · exact .inl (.inr hr)
    · rcases List.mem_cons.1 hr with rfl | hr
      · exact .inl (.inl rfl)
      · exact .inr hr

/-! ## The registers that an instruction reads and writes -/

/-- The register of an optional target. -/
def targetOf (arg0 : Nat) : List Nat :=
  if arg0 ≠ maxFuncStacksize then [arg0] else []

/-- The registers of a second move. -/
def secondMove (arg2 r : Nat) : List Nat :=
  if arg2 ≠ 0 then [r] else []

/-- `_OP_GET` leaves its target alone when the key is missing. -/
def keepsTarget (flags : Nat) : Prop :=
  flags &&& opGetFlagNoError ≠ 0 ∧ flags &&& opGetFlagKeepVal ≠ 0

instance (flags : Nat) : Decidable (keepsTarget flags) := inferInstanceAs (Decidable (_ ∧ _))

section Registers

variable (vm : VmServices G)

/-- The registers that an instruction reads. -/
def uses (i : SQInstruction) : List Nat :=
  match i.op with
  | .move => [i.arg1.toNat]
  | .dmove => [i.arg1.toNat, i.arg3]
  | .loadcallee | .getouter => secondMove i.arg2 i.arg3
  | .setouter => [i.arg2]
  | .get | .prepcall | .cmp => [i.arg2, i.arg1.toNat]
  | .getk | .prepcallk => [i.arg2]
  | .set | .newslot => [i.arg2, i.arg1.toNat, i.arg3]
  | .setk | .seti | .newslotk => [i.arg2, i.arg3]
  | .eq | .ne => i.arg2 :: if i.arg3 ≠ 0 then [] else [i.arg1.toNat]
  | .appendarray => i.arg0 :: if i.arg2 = AppendArrayType.stack.code then [i.arg1.toNat] else []
  | .value op => op.operands i
  | .jcmp => [i.arg2, i.arg0]
  | .jz => [i.arg0]
  | .call | .tailcall => i.arg1.toNat :: (List.range i.arg3).map fun k => i.arg2 + k
  | .return => if i.arg0 ≠ maxFuncStacksize then [i.arg1.toNat] else []
  | .other _ => vm.reads i ++ vm.captures i
  | .load | .loadint | .loadfloat | .loadbool | .dload | .loadnulls | .close => []

/-- The registers that are written whenever the next instruction follows. -/
def defines (i : SQInstruction) : List Nat :=
  match i.op with
  | .load | .loadint | .loadfloat | .loadbool | .move | .eq | .ne | .value _ | .cmp => [i.arg0]
  | .get | .getk => if keepsTarget i.arg3 then [] else [i.arg0]
  | .dload | .dmove => [i.arg0, i.arg2]
  | .loadcallee | .getouter => i.arg0 :: secondMove i.arg2 i.arg2
  | .loadnulls => nullRange i
  | .setouter | .set | .setk | .seti | .newslot | .newslotk | .call | .tailcall => targetOf i.arg0
  | .prepcall | .prepcallk => [i.arg3, i.arg0]
  | .other _ => vm.writes i
  | .appendarray | .jcmp | .jz | .return | .close => []

/-- The registers that are written whenever it jumps. -/
def jumpDefines (i : SQInstruction) : List Nat :=
  match i.op with
  | .other _ => vm.jumpWrites i
  | _ => []

/-- The instructions that may jump. -/
def jumps : Opcode → Bool
  | .jcmp | .jz | .other _ => true
  | _ => false

/-- Between registers that are live before and after it, an instruction reads only live ones and
what becomes live is written by it. -/
structure ReadsLive (L : Set Nat) (i : Emitted) : Prop where
  uses : ∀ r, r ∈ uses vm i.instr → r ∈ L
  live : ∀ r, r ∈ i.live → r ∈ L ∨ r ∈ defines vm i.instr
  onError : ∀ E, i.onError = some E → E ⊆ L
  onJump : jumps i.instr.op = true → ∀ r, r ∈ i.onJump → r ∈ L ∨ r ∈ jumpDefines vm i.instr

end Registers

/-! ## One instruction -/

section Exec

variable {vm : VmServices G} {lits : List SQObject} {i : Emitted} {L : Set Nat} {m m' : Machine G}

/-- Machines that agree read the same registers. -/
theorem Agree.map_read (h : Agree L m m') {rs : List Nat} (hrs : ∀ r, r ∈ rs → r ∈ L) :
    rs.map m.read = rs.map m'.read :=
  List.map_congr_left fun r hr => h.read r (hrs r hr)

/-- Machines that agree on the arguments pass the same ones. -/
theorem Agree.callArgs (h : Agree L m m') {i : SQInstruction}
    (hrs : ∀ r, r ∈ (List.range i.arg3).map (fun k => i.arg2 + k) → r ∈ L) :
    callArgs i m = callArgs i m' :=
  List.map_congr_left fun _ hk => h.read _ (hrs _ (List.mem_map_of_mem hk))

/-- The value for `TARGET` depends only on the operands. -/
theorem compute_agree (h : Agree L m m') {i : SQInstruction}
    (huses : ∀ r, r ∈ uses vm i → r ∈ L) : compute vm lits i m = compute vm lits i m' := by
  have hop : ∀ r, r ∈ uses vm i → m.read r = m'.read r := fun r hr => h.read r (huses r hr)
  cases hi : i.op with
  | get | getk | cmp => simp [uses, hi] at hop; simp [compute, hi, hop, h.store]
  | value op =>
    have hmap : (op.operands i).map m.read = (op.operands i).map m'.read :=
      h.map_read fun r hr => huses r (by simpa [uses, hi] using hr)
    simp [compute, hi, hmap, h.store]
  | eq | ne =>
    have hlit : condLiteral lits i m = condLiteral lits i m' := by
      unfold condLiteral
      split
      · rfl
      · next h3 => exact hop _ (by simp [uses, hi, h3])
    simp [compute, hi, hlit, hop i.arg2 (by simp [uses, hi]), h.store]
  | _ => simp [compute, hi, h.store]

/-- Equal results assigned to the target are related. -/
theorem assignTarget_agree (h : Agree L m m') (herr : ∀ E, i.onError = some E → E ⊆ L)
    (c : Computed G) (hlive : ∀ r, r ∈ i.live → r ∈ L ∨ (r = i.instr.arg0 ∧ ∀ s, c ≠ .keep s)) :
    Related i.live (assignTarget i m c) (assignTarget i m' c) := by
  cases c with
  | value s v =>
    refine .next (((h.withStore s).write _ v).mono fun r hr => ?_)
    rcases hlive r hr with hr | ⟨hr, -⟩
    · exact .inr hr
    · exact .inl hr
  | keep s =>
    refine .next ((h.withStore s).mono fun r hr => ?_)
    rcases hlive r hr with hr | ⟨-, hk⟩
    · exact hr
    · exact absurd rfl (hk s)
  | fail s e written =>
    cases written with
    | none => exact .error rfl fun E hE => (h.withStore s).mono (herr E hE)
    | some w =>
      have hw := (h.withStore s).write i.instr.arg0 w
      exact .error hw.store fun E hE => hw.mono fun r hr => .inr (herr E hE hr)

/-- The copy into the target keeps the agreement. -/
theorem Agree.copyTarget (h : Agree L m m') (arg0 : Nat) {r : Nat} (hr : r ∈ L) :
    Agree (L ∪ {q | q ∈ targetOf arg0}) (m.copyTarget arg0 r) (m'.copyTarget arg0 r) := by
  unfold Machine.copyTarget targetOf
  by_cases h0 : arg0 ≠ maxFuncStacksize
  · rw [if_pos h0, if_pos h0, if_pos h0, h.read r hr]
    refine (h.write arg0 _).mono ?_
    rintro q (hq | hq)
    · exact .inr hq
    · exact .inl (List.mem_singleton.1 hq)
  · rw [if_neg h0, if_neg h0, if_neg h0]
    exact h.mono (by simp)

/-- A store on machines that agree. -/
theorem execStore_agree (h : Agree L m m') (hval : i.instr.arg3 ∈ L)
    (herr : ∀ E, i.onError = some E → E ⊆ L)
    (hlive : ∀ r, r ∈ i.live → r ∈ L ∨ r ∈ targetOf i.instr.arg0)
    (result : Store G × Option SQObject) :
    Related i.live (execStore i m result) (execStore i m' result) := by
  obtain ⟨s, _ | e⟩ := result
  · exact .next (((h.withStore s).copyTarget _ hval).mono hlive)
  · exact .error rfl fun E hE => (h.withStore s).mono (herr E hE)

/-- The preparation of a call on machines that agree. -/
theorem execPrepcall_agree (h : Agree L m m') (hself : i.instr.arg2 ∈ L)
    (herr : ∀ E, i.onError = some E → E ⊆ L)
    (hlive : ∀ r, r ∈ i.live → r ∈ L ∨ r ∈ [i.instr.arg3, i.instr.arg0]) (key : SQObject) :
    Related i.live (execPrepcall vm i m key) (execPrepcall vm i m' key) := by
  unfold execPrepcall
  rw [← h.read _ hself, ← h.store]
  generalize vm.getImpl (m.read i.instr.arg2) key 0 m.store = result
  obtain ⟨s, v | e | e⟩ := result
  · have hs := h.withStore s
    have hw := (hs.write i.instr.arg3 (m'.withStore s |>.read i.instr.arg2)).write i.instr.arg0 v
    refine .next ?_
    rw [hs.read _ hself]
    refine hw.mono fun r hr => ?_
    rcases hlive r hr with hr | hr
    · exact .inr (.inr hr)
    · simp only [List.mem_cons, List.not_mem_nil, or_false] at hr
      rcases hr with rfl | rfl
      · exact .inr (.inl rfl)
      · exact .inl rfl
  · exact .error rfl fun E hE => (h.withStore s).mono (herr E hE)
  · exact .error rfl fun E hE => (h.withStore s).mono (herr E hE)

/-- A call on machines that agree. -/
theorem execCall_agree (h : Agree L m m') (hf : m.read i.instr.arg1.toNat = m'.read i.instr.arg1.toNat)
    (hargs : callArgs i.instr m = callArgs i.instr m') (herr : ∀ E, i.onError = some E → E ⊆ L)
    (hlive : ∀ r, r ∈ i.live → r ∈ L ∨ r ∈ targetOf i.instr.arg0) :
    Related i.live (execCall vm i m) (execCall vm i m') := by
  unfold execCall
  rw [← hf, ← hargs, ← h.store]
  generalize vm.call (m.read i.instr.arg1.toNat) (callArgs i.instr m) m.store = result
  obtain ⟨s, clobbered, v | ⟨e, written⟩⟩ := result
  all_goals
    have hc := (h.withStore s).clobber i.instr.arg2 clobbered
    by_cases h0 : i.instr.arg0 ≠ maxFuncStacksize
  · simp only [h0, if_true, ne_eq, not_false_eq_true]
    refine .next ((hc.write _ v).mono fun r hr => ?_)
    rcases hlive r hr with hr | hr
    · exact .inr hr
    · rw [targetOf, if_pos h0] at hr
      exact .inl (List.mem_singleton.1 hr)
  · simp only [h0, if_false]
    refine .next (hc.mono fun r hr => ?_)
    rcases hlive r hr with hr | hr
    · exact hr
    · simp [targetOf, h0] at hr
  · simp only [h0, if_true, ne_eq, not_false_eq_true]
    cases written with
    | none => exact .error hc.store fun E hE => hc.mono (herr E hE)
    | some w =>
      have hw := hc.write i.instr.arg0 w
      exact .error hw.store fun E hE => hw.mono fun r hr => .inr (herr E hE hr)
  · simp only [h0, if_false]
    exact .error hc.store fun E hE => hc.mono (herr E hE)

/-- A read that is not to keep its target never does. -/
theorem computeGet_ne_keep {flags : Nat} (hk : ¬ keepsTarget flags) (self key : SQObject)
    (s s' : Store G) : computeGet vm self key flags s ≠ .keep s' := by
  unfold computeGet
  split
  · nofun
  · nofun
  · split_ifs with h1 h2
    · nofun
    · nofun
    · exact absurd ⟨h1, h2⟩ hk

/-- The instructions that compute a value for `TARGET` write it whenever they go on. -/
theorem compute_defines {i : SQInstruction} {c : Computed G} (hc : compute vm lits i m = some c)
    {r : Nat} (hr : r ∈ defines vm i) : r = i.arg0 ∧ ∀ s, c ≠ .keep s := by
  cases hi : i.op with
  | get | getk =>
    simp only [compute, hi, Option.some.injEq] at hc
    simp only [defines, hi] at hr
    split_ifs at hr with hk
    · simp at hr
    · exact ⟨List.mem_singleton.1 hr, fun s => hc ▸ computeGet_ne_keep hk _ _ _ s⟩
  | load | loadint | loadfloat | loadbool | eq | ne =>
    simp only [compute, hi, Option.some.injEq] at hc
    simp only [defines, hi] at hr
    exact ⟨List.mem_singleton.1 hr, fun s => hc ▸ nofun⟩
  | value op =>
    simp only [compute, hi] at hc
    simp only [defines, hi] at hr
    refine ⟨List.mem_singleton.1 hr, fun s => ?_⟩
    split at hc <;> exact Option.some.inj hc ▸ nofun
  | cmp =>
    simp only [compute, hi] at hc
    simp only [defines, hi] at hr
    refine ⟨List.mem_singleton.1 hr, fun s => ?_⟩
    split at hc <;> exact Option.some.inj hc ▸ nofun
  | _ => simp [compute, hi] at hc

/-- The instructions that compute a value for `TARGET`. -/
def isComputing : Opcode → Bool
  | .load | .loadint | .loadfloat | .loadbool | .get | .getk | .eq | .ne | .value _ | .cmp => true
  | _ => false

variable (vm lits) in
/-- A computing instruction computes a result and assigns it. -/
theorem exec_computing (hi : isComputing i.instr.op) (m : Machine G) :
    ∃ c, compute vm lits i.instr m = some c ∧ exec vm lits i m = assignTarget i m c := by
  have hsome : ∃ c, compute vm lits i.instr m = some c := by
    cases h : i.instr.op with
    | value op =>
      simp only [compute, h]
      split <;> exact ⟨_, rfl⟩
    | cmp =>
      simp only [compute, h]
      split <;> exact ⟨_, rfl⟩
    | load | loadint | loadfloat | loadbool | get | getk | eq | ne =>
      simp only [compute, h]
      exact ⟨_, rfl⟩
    | _ => simp [h, isComputing] at hi
  obtain ⟨c, hc⟩ := hsome
  refine ⟨c, hc, ?_⟩
  cases h : i.instr.op <;> simp_all [exec, isComputing]

/-- A computing instruction on machines that agree on what it reads. -/
theorem exec_computing_agree (hi : isComputing i.instr.op) (h : Agree L m m')
    (hr : ReadsLive vm L i) : Related i.live (exec vm lits i m) (exec vm lits i m') := by
  obtain ⟨c, hc, hexec⟩ := exec_computing vm lits hi m
  obtain ⟨c', hc', hexec'⟩ := exec_computing vm lits hi m'
  obtain rfl : c = c' := by
    rw [compute_agree h hr.uses, hc'] at hc
    exact (Option.some.inj hc).symm
  rw [hexec, hexec']
  exact assignTarget_agree h hr.onError c fun r hl => (hr.live r hl).imp_right (compute_defines hc)

/-- Another instruction on machines that agree on what it reads. -/
theorem execOther_agree {code : Nat} (hi : i.instr.op = .other code) (h : Agree L m m')
    (hr : ReadsLive vm L i) : Related i.live (execOther vm i m) (execOther vm i m') := by
  have hargs : (vm.reads i.instr ++ vm.captures i.instr).map m.read =
      (vm.reads i.instr ++ vm.captures i.instr).map m'.read :=
    h.map_read fun r hu => hr.uses r (by simpa [uses, hi] using hu)
  unfold execOther
  rw [← hargs, ← h.store]
  have hnext := vm.writes_updates i.instr ((vm.reads i.instr ++ vm.captures i.instr).map m.read)
    m.store
  have hjump := vm.jumpWrites_updates i.instr
    ((vm.reads i.instr ++ vm.captures i.instr).map m.read) m.store
  revert hnext hjump
  generalize vm.other i.instr ((vm.reads i.instr ++ vm.captures i.instr).map m.read) m.store = res
  obtain ⟨s, updates, newCells, exit⟩ := res
  intro hnext hjump
  have hw := ((h.withStore s).capture (vm.captures i.instr) newCells).writeAll updates
  cases exit with
  | next =>
    refine .next (hw.mono fun r hl => ?_)
    rcases hr.live r hl with hl | hl
    · exact .inl hl
    · exact .inr (hnext rfl r (by simpa [defines, hi] using hl))
  | jump =>
    refine .jump (hw.mono fun r hl => ?_)
    rcases hr.onJump (by rw [hi]; rfl) r hl with hl | hl
    · exact .inl hl
    · exact .inr (hjump rfl r (by simpa [jumpDefines, hi] using hl))
  | ret v =>
    simp only [hw.store]
    exact .ret v _
  | error e => exact .error hw.store fun E hE => hw.mono fun r hl => .inl (hr.onError E hE hl)

/-- Assigning one register and then, where there is a second target, copying another. -/
theorem secondMove_agree (h : Agree L m m') (r0 r2 r3 : Nat) (v : SQObject)
    (huse : ∀ r, r ∈ secondMove r2 r3 → r ∈ L)
    (hlive : ∀ r, r ∈ i.live → r ∈ L ∨ r ∈ r0 :: secondMove r2 r2) :
    Related i.live
      (.next (if r2 ≠ 0 then (m.write r0 v).write r2 ((m.write r0 v).read r3) else m.write r0 v))
      (.next (if r2 ≠ 0 then (m'.write r0 v).write r2 ((m'.write r0 v).read r3)
        else m'.write r0 v)) := by
  have hw := h.write r0 v
  unfold secondMove at huse hlive
  by_cases h2 : r2 ≠ 0
  · simp only [if_pos h2] at huse hlive ⊢
    rw [hw.read r3 (.inr (huse r3 (List.mem_singleton_self r3)))]
    refine .next ((hw.write r2 _).mono fun r hl => ?_)
    rcases hlive r hl with hl | hl
    · exact .inr (.inr hl)
    · simp only [List.mem_cons, List.not_mem_nil, or_false] at hl
      rcases hl with rfl | rfl
      · exact .inr (.inl rfl)
      · exact .inl rfl
  · simp only [if_neg h2] at hlive ⊢
    refine .next (hw.mono fun r hl => ?_)
    rcases hlive r hl with hl | hl
    · exact .inr hl
    · exact .inl (List.mem_singleton.1 hl)

/-- A tail call on machines that agree on callee and arguments. -/
theorem execTailcall_agree (h : Agree L m m')
    (huses : ∀ r, r ∈ i.instr.arg1.toNat :: (List.range i.instr.arg3).map
      (fun k => i.instr.arg2 + k) → r ∈ L) (herr : ∀ E, i.onError = some E → E ⊆ L)
    (hlive : ∀ r, r ∈ i.live → r ∈ L ∨ r ∈ targetOf i.instr.arg0) :
    Related i.live (execTailcall vm i m) (execTailcall vm i m') := by
  have hf := h.read i.instr.arg1.toNat (huses _ List.mem_cons_self)
  have hargs := h.callArgs (i := i.instr) fun r hr => huses r (List.mem_cons_of_mem _ hr)
  unfold execTailcall
  rw [← hf, ← h.store]
  split_ifs
  · have hc := h.closeOuters 0
    rw [← hargs, ← hc.store]
    generalize vm.call (m.read i.instr.arg1.toNat) (callArgs i.instr m) (m.closeOuters 0).store = res
    obtain ⟨s, clobbered, v | ⟨e, written⟩⟩ := res
    · exact .ret v s
    · exact .error rfl fun E hE => (hc.withStore s).mono (herr E hE)
  · exact execCall_agree h hf hargs herr hlive

/-- **The frame rule**: an instruction that reads live registers only. -/
theorem exec_agree (h : Agree L m m') (hr : ReadsLive vm L i) :
    Related i.live (exec vm lits i m) (exec vm lits i m') := by
  have hop : ∀ r, r ∈ uses vm i.instr → m.read r = m'.read r := fun r hu => h.read r (hr.uses r hu)
  have hlive := hr.live
  have huses := hr.uses
  -- One case for each family of instructions: equal operands, equal results, equal writes.
  cases hi : i.instr.op with
  | load | loadint | loadfloat | loadbool | get | getk | eq | ne | value | cmp =>
    exact exec_computing_agree (by rw [hi]; rfl) h hr
  | dload =>
    simp only [exec, hi]
    refine .next (((h.write i.instr.arg0 _).write i.instr.arg2 _).mono fun r hl => ?_)
    have := hlive r hl
    simp only [defines, hi, List.mem_cons, List.not_mem_nil, or_false] at this
    simp only [Set.mem_insert_iff]
    tauto
  | move =>
    simp only [uses, defines, hi, List.mem_singleton] at huses hlive
    simp only [exec, hi, h.read _ (huses _ rfl)]
    exact .next ((h.write _ _).mono fun r hl => (hlive r hl).symm)
  | dmove =>
    simp only [uses, defines, hi, List.mem_cons, List.not_mem_nil, or_false] at huses hlive
    have hw := h.write i.instr.arg0 (m'.read i.instr.arg1.toNat)
    -- The second move reads what the first one may have written.
    simp only [exec, hi, h.read _ (huses _ (.inl rfl)), hw.read _ (.inr (huses _ (.inr rfl)))]
    refine .next ((hw.write i.instr.arg2 _).mono fun r hl => ?_)
    have := hlive r hl
    simp only [Set.mem_insert_iff]
    -- A dead register may differ, but what the load writes agrees.
    tauto
  | loadnulls =>
    simp only [defines, hi] at hlive
    simp only [exec, hi]
    refine .next ((h.writeAll _).mono fun r hl => (hlive r hl).imp_right fun hn => ?_)
    simpa using hn
  | loadcallee =>
    simp only [uses, defines, hi] at huses hlive
    simp only [exec, hi]
    exact secondMove_agree h _ _ _ _ huses hlive
  | getouter =>
    simp only [uses, defines, hi] at huses hlive
    simp only [exec, hi, h.store]
    exact secondMove_agree h _ _ _ _ huses hlive
  | setouter =>
    simp only [uses, defines, hi, List.mem_singleton] at huses hlive
    simp only [exec, hi, h.store, h.read _ (huses _ rfl)]
    exact .next (((h.withStore _).copyTarget _ (huses _ rfl)).mono hlive)
  | set | newslot | setk | seti | newslotk =>
    simp only [uses, defines, hi, List.mem_cons, List.not_mem_nil, or_false] at huses hlive hop
    simp only [exec, hi, hop, h.store, true_or, or_true]
    exact execStore_agree h (huses _ (by simp)) hr.onError hlive _
  | prepcall | prepcallk =>
    simp only [uses, defines, hi, List.mem_cons, List.not_mem_nil, or_false] at huses hlive hop
    simp only [exec, hi, hop, or_true]
    exact execPrepcall_agree h (huses _ (by simp)) hr.onError (by simpa using hlive) _
  | appendarray =>
    have happ : appendValue lits i.instr m = appendValue lits i.instr m' := by
      unfold appendValue
      split_ifs with h2
      · exact hop _ (by simp [uses, hi, h2])
      all_goals rfl
    simp only [defines, hi, List.not_mem_nil, or_false] at hlive
    simp only [exec, hi, happ, hop _ (by simp [uses, hi] : i.instr.arg0 ∈ uses vm i.instr), h.store]
    exact .next ((h.withStore _).mono hlive)
  | jcmp =>
    simp only [uses, defines, hi, List.mem_cons, List.not_mem_nil, or_false] at huses hlive hop
    have hjump := hr.onJump (by rw [hi]; rfl)
    simp only [jumpDefines, hi, List.not_mem_nil, or_false] at hjump
    simp only [exec, hi, hop, h.store, true_or, or_true]
    -- Equal operands compare alike, whatever the comparison answers.
    generalize vm.objCmp (m'.read i.instr.arg2) (m'.read i.instr.arg0) m'.store = res
    obtain ⟨s, e | r⟩ := res
    · exact .error rfl fun E hE => (h.withStore s).mono (hr.onError E hE)
    · dsimp only
      split_ifs
      · exact .jump ((h.withStore s).mono hjump)
      · exact .next ((h.withStore s).mono hlive)
  | jz =>
    simp only [uses, defines, hi, List.mem_singleton, List.not_mem_nil, or_false] at huses hlive hop
    have hjump := hr.onJump (by rw [hi]; rfl)
    simp only [jumpDefines, hi, List.not_mem_nil, or_false] at hjump
    simp only [exec, hi, hop]
    split_ifs
    · exact .jump (h.mono hjump)
    · exact .next (h.mono hlive)
  | call =>
    simp only [uses, defines, hi] at huses hlive
    simp only [exec, hi]
    exact execCall_agree h (h.read _ (huses _ List.mem_cons_self))
      (h.callArgs fun r hm => huses r (List.mem_cons_of_mem _ hm)) hr.onError hlive
  | tailcall =>
    simp only [uses, defines, hi] at huses hlive
    simp only [exec, hi]
    exact execTailcall_agree h huses hr.onError hlive
  | «return» =>
    simp only [exec, hi, h.store]
    -- Without a value nothing is read.
    split_ifs with h0
    · rw [hop _ (by simp [uses, hi, h0])]
      exact .ret _ _
    · exact .ret _ _
  | close =>
    simp only [defines, hi, List.not_mem_nil, or_false] at hlive
    simp only [exec, hi]
    exact .next ((h.closeOuters _).mono hlive)
  | other code =>
    simp only [exec, hi]
    exact execOther_agree hi h hr

/-! ## Code -/

/-- What follows after an instruction that does not leave the code. -/
def Outcome.andThen (o : Outcome G) (k : Machine G → Outcome G) : Outcome G :=
  match o with
  | .next m => k m
  | o => o

/-- Code after code. -/
theorem runCode_append (code code' : List Emitted) (m : Machine G) :
    runCode vm lits (code ++ code') m = (runCode vm lits code m).andThen (runCode vm lits code') := by
  induction code generalizing m with
  | nil => rfl
  | cons i code ih =>
    simp only [List.cons_append, runCode]
    cases exec vm lits i m with
    | next m' => exact ih m'
    | jump live m' => rfl
    | ret v s => rfl
    | error e live m' => rfl

theorem runCode_singleton (i : Emitted) (m : Machine G) :
    runCode vm lits [i] m = exec vm lits i m := by
  simp only [runCode]
  cases exec vm lits i m <;> rfl

/-- Related outcomes, continued alike. -/
theorem Related.andThen {L L' : Set Nat} {o o' : Outcome G} (h : Related L o o')
    {k k' : Machine G → Outcome G} (hk : ∀ m m', Agree L m m' → Related L' (k m) (k' m')) :
    Related L' (o.andThen k) (o'.andThen k') := by
  cases h with
  | next h => exact hk _ _ h
  | jump h => exact .jump h
  | ret v s => exact .ret v s
  | error hs h => exact .error hs h

/-- Two codes that agree still do so when the same instruction follows. -/
theorem Related.runCode_snoc {code code' : List Emitted}
    (h : Related L (runCode vm lits code m) (runCode vm lits code' m')) (hr : ReadsLive vm L i) :
    Related i.live (runCode vm lits (code ++ [i]) m) (runCode vm lits (code' ++ [i]) m') := by
  rw [runCode_append, runCode_append]
  apply h.andThen
  intro m₁ m₁' hm
  rw [runCode_singleton, runCode_singleton]
  exact exec_agree hm hr

end Exec

end Quirrel.Vm
