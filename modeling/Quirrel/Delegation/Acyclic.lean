import Mathlib.Logic.Function.Basic
import Quirrel.Delegation.Basic
import Quirrel.Lib.Chain
import Quirrel.Lib.Runs

/-!
# No cycle of delegates

In every state that a program reaches, the delegates of an object end. `SetDelegate` looks for its own
object behind the new delegate; as nothing but `SetDelegate` sets a delegate, following the delegates
finds it exactly when the new delegate would close a cycle.
-/

set_option autoImplicit false

namespace Quirrel.Delegation

open Lib (Chain execute)

variable {K V : Type} {h : Heap K V} {self o : Nat} {mt : Option Nat} {l : List Nat}
variable {f : SQDelegable K V → SQDelegable K V} {x : SQDelegable K V}

/-! ## Changes of one object -/

@[simp] theorem SQDelegable.delegate_withDelegate (d : Option Nat) (x : SQDelegable K V) :
    (x.withDelegate d).delegate = d := by
  cases x <;> rfl

@[simp] theorem SQDelegable.isTable_withDelegate (d : Option Nat) (x : SQDelegable K V) :
    (x.withDelegate d).isTable = x.isTable := by
  cases x <;> rfl

theorem Heap.lt_of_isTable (ho : h.isTable o) : o < h.length := by
  rw [Heap.isTable, Option.any_eq_true] at ho
  obtain ⟨x, hx, -⟩ := ho
  exact (List.getElem?_eq_some_iff.mp hx).1

/-- A new delegate of one object. -/
theorem delegate_modify (hf : ∀ x, (f x).delegate = mt) (hself : self < h.length) :
    Heap.delegate (h.modify self f) = Function.update h.delegate self mt := by
  funext o
  by_cases ho : o = self
  · subst ho
    simp [Heap.delegate, hself, hf]
  · simp [Heap.delegate, List.getElem?_modify_ne f _ (Ne.symm ho), Function.update_of_ne ho]

/-- A change of slots changes no delegate. -/
theorem delegate_modify_slots (hf : ∀ x, (f x).delegate = x.delegate) :
    Heap.delegate (h.modify self f) = h.delegate := by
  funext o
  by_cases ho : o = self
  · subst ho
    cases hx : h[o]? <;> simp [Heap.delegate, hx, hf]
  · simp [Heap.delegate, List.getElem?_modify_ne f _ (Ne.symm ho)]

theorem isTable_modify (hf : ∀ x, (f x).isTable = x.isTable) :
    Heap.isTable (h.modify self f) = h.isTable := by
  funext o
  by_cases ho : o = self
  · subst ho
    cases hx : h[o]? <;> simp [Heap.isTable, hx, hf]
  · simp [Heap.isTable, List.getElem?_modify_ne f _ (Ne.symm ho)]

/-- A new object with its delegate. -/
theorem delegate_snoc : Heap.delegate (h ++ [x]) = Function.update h.delegate h.length x.delegate := by
  funext o
  rcases Nat.lt_trichotomy o h.length with ho | rfl | ho
  · simp [Heap.delegate, List.getElem?_append_left ho, Function.update_of_ne (Nat.ne_of_lt ho)]
  · simp [Heap.delegate]
  · have hlen : (h ++ [x]).length ≤ o := by rw [List.length_append]; exact ho
    rw [Function.update_of_ne (Nat.ne_of_gt ho), Heap.delegate, Heap.delegate,
      List.getElem?_eq_none hlen, List.getElem?_eq_none (Nat.le_of_lt ho)]

theorem isTable_snoc (ho : h.isTable o) : Heap.isTable (h ++ [x]) o := by
  rw [Heap.isTable, List.getElem?_append_left (Heap.lt_of_isTable ho)]
  exact ho

/-! ## The invariant -/

/-- The delegates of every object end, and they are tables. -/
structure Heap.Acyclic (h : Heap K V) : Prop where
  ends : ∀ o, ∃ l, Chain h.delegate (some o) l
  tables : ∀ o d, h.delegate o = some d → h.isTable d

namespace Heap.Acyclic

/-- In an acyclic heap every chain of delegates ends. -/
theorem chain (hh : h.Acyclic) : ∀ mt, ∃ l, Chain h.delegate mt l
  | none => ⟨[], .nil⟩
  | some o => hh.ends o

/-- Behind its head a chain has tables only. -/
theorem mem_lt (hh : h.Acyclic) (hl : Chain h.delegate mt l) (hmt : ∀ o, mt = some o → o < h.length) :
    ∀ q ∈ l, q < h.length := by
  induction hl with
  | nil => simp
  | @cons p l _ ih =>
    intro q hq
    rcases List.mem_cons.mp hq with rfl | hq
    · exact hmt q rfl
    · exact ih (fun d hd => lt_of_isTable (hh.tables p d hd)) q hq

/-- Every delegate is a table. -/
theorem mem_isTable (hh : h.Acyclic) (hl : Chain h.delegate mt l)
    (hmt : ∀ o, mt = some o → h.isTable o) : ∀ q ∈ l, h.isTable q := by
  induction hl with
  | nil => simp
  | @cons p l _ ih =>
    intro q hq
    rcases List.mem_cons.mp hq with rfl | hq
    · exact hmt q rfl
    · exact ih (hh.tables p) q hq

/-- A chain is no longer than the heap. -/
theorem length_le (hh : h.Acyclic) (hl : Chain h.delegate mt l)
    (hmt : ∀ o, mt = some o → o < h.length) : l.length ≤ h.length :=
  hl.length_le_of_lt (hh.mem_lt hl hmt)

/-- A new object without a delegate. -/
theorem snoc (hh : h.Acyclic) (hx : x.delegate = none) : Heap.Acyclic (h ++ [x]) := by
  have hnone : h.delegate h.length = none := by simp [Heap.delegate]
  have heq : Heap.delegate (h ++ [x]) = h.delegate := by
    rw [delegate_snoc, hx, ← hnone, Function.update_eq_self]
  refine ⟨fun o => ?_, fun o d hd => ?_⟩
  · rw [heq]
    exact hh.ends o
  · rw [heq] at hd
    exact isTable_snoc (hh.tables o d hd)

/-- A change of slots keeps the heap acyclic. -/
theorem modify_slots (hh : h.Acyclic) (hd : ∀ x, (f x).delegate = x.delegate)
    (ht : ∀ x, (f x).isTable = x.isTable) (self : Nat) : Heap.Acyclic (h.modify self f) := by
  refine ⟨fun o => ?_, fun o d hod => ?_⟩
  · rw [delegate_modify_slots hd]
    exact hh.ends o
  · rw [delegate_modify_slots hd] at hod
    rw [isTable_modify ht]
    exact hh.tables o d hod

/-- A table whose delegates do not meet the object becomes its delegate. -/
theorem redirect (hh : h.Acyclic) (hl : Chain h.delegate mt l) (hself : self ∉ l)
    (hmt : mt.all h.isTable) : Heap.Acyclic (h.modify self (·.withDelegate mt)) := by
  by_cases hlt : self < h.length
  · have heq := delegate_modify (SQDelegable.delegate_withDelegate (K := K) (V := V) mt) hlt
    refine ⟨fun o => ?_, fun o d hd => ?_⟩
    · obtain ⟨k, hk⟩ := hh.ends o
      obtain ⟨k', hk', -⟩ := hk.redirect hl hself
      exact ⟨k', heq ▸ hk'⟩
    · rw [isTable_modify (SQDelegable.isTable_withDelegate mt)]
      rw [heq] at hd
      by_cases ho : o = self
      · subst ho
        rw [Function.update_self] at hd
        simpa [hd] using hmt
      · rw [Function.update_of_ne ho] at hd
        exact hh.tables o d hd
  · rw [List.modify_eq_self (Nat.le_of_not_lt hlt)]
    exact hh

end Heap.Acyclic

/-! ## `SetDelegate` -/

/-- The loop of `SetDelegate` decides whether the object is in the chain. -/
theorem cycleFree_eq {fuel : Nat} (hl : Chain h.delegate mt l) (hfuel : l.length < fuel) :
    cycleFree h self fuel mt = some (decide (∀ q ∈ l, h.delegate q ≠ some self)) := by
  induction hl generalizing fuel with
  | nil =>
    cases fuel with
    | zero => exact absurd hfuel (Nat.not_lt_zero _)
    | succ fuel => simp [cycleFree]
  | @cons p l _ ih =>
    cases fuel with
    | zero => exact absurd hfuel (Nat.not_lt_zero _)
    | succ fuel =>
      rw [cycleFree]
      by_cases hp : h.delegate p = some self
      · rw [if_pos hp]
        simp [hp]
      · rw [if_neg hp, ih (Nat.lt_of_succ_lt_succ hfuel)]
        simp [hp]

/-- The object is found behind the new delegate exactly when it is in the chain. -/
theorem setDelegate_eq {fuel : Nat} (hl : Chain h.delegate mt l) (hfuel : l.length < fuel) :
    setDelegate fuel h self mt =
      some (if self ∈ l then (false, h) else (true, h.modify self (·.withDelegate mt))) := by
  rw [setDelegate]
  by_cases hmt : mt = some self
  · have hmem : self ∈ l := hl.mem_iff.mpr (.inl hmt)
    rw [if_pos hmt, if_pos hmem]
  · have hiff : self ∈ l ↔ ¬ ∀ q ∈ l, h.delegate q ≠ some self := by
      rw [hl.mem_iff]
      simp [hmt]
    rw [if_neg hmt, cycleFree_eq hl hfuel]
    by_cases hmem : self ∈ l
    · rw [decide_eq_false (hiff.mp hmem), if_pos hmem]
      rfl
    · have hfree : ∀ q ∈ l, h.delegate q ≠ some self :=
        Classical.not_not.mp fun hnot => hmem (hiff.mpr hnot)
      rw [decide_eq_true hfree, if_neg hmem]
      rfl

/-- When `sq_setdelegate` refuses and what it does else. -/
theorem sqSetDelegate_eq (hh : h.Acyclic) (hl : Chain h.delegate mt l) (hmt : mt.all h.isTable) :
    sqSetDelegate (h.length + 1) h self mt =
      some (if self ∈ l then (.delegateCycle, h)
        else (.ok, h.modify self (·.withDelegate mt))) := by
  have hlen : l.length < h.length + 1 := by
    refine Nat.lt_succ_of_le (hh.length_le hl fun o ho => ?_)
    subst ho
    exact Heap.lt_of_isTable hmt
  rw [sqSetDelegate, if_pos hmt, setDelegate_eq hl hlen]
  by_cases hmem : self ∈ l
  · -- a userdata is never a delegate
    have hself : h.isTable self := hh.mem_isTable hl (fun o ho => by simpa [ho] using hmt) self hmem
    have hsome : mt.isNone = false := by
      cases hl with
      | nil => exact absurd hmem List.not_mem_nil
      | cons => rfl
    simp [hmem, hself, hsome]
  · simp [hmem]

/-- `sq_setdelegate` returns and keeps the heap acyclic. -/
theorem sqSetDelegate_acyclic (hh : h.Acyclic) (self : Nat) (mt : Option Nat) :
    ∃ status h', sqSetDelegate (h.length + 1) h self mt = some (status, h') ∧ h'.Acyclic := by
  by_cases hmt : mt.all h.isTable
  · obtain ⟨l, hl⟩ := hh.chain mt
    rw [sqSetDelegate_eq hh hl hmt]
    by_cases hself : self ∈ l
    · rw [if_pos hself]
      exact ⟨_, _, rfl, hh⟩
    · rw [if_neg hself]
      exact ⟨_, _, rfl, hh.redirect hl hself hmt⟩
  · rw [sqSetDelegate, if_neg hmt]
    exact ⟨_, _, rfl, hh⟩

/-! ## Runs -/

theorem isTable_delegate (hh : h.Acyclic) (hx : h[o]? = some x) : x.delegate.all h.isTable := by
  cases hd : x.delegate with
  | none => rfl
  | some d =>
    have ho : h.delegate o = some d := by rw [Heap.delegate, hx]; exact hd
    exact hh.tables o d ho

/-- The copy is new, so no delegate of the original is behind it. -/
theorem clone_acyclic {slots : K → Option V} {d : Option Nat} (hh : h.Acyclic)
    (hx : h[o]? = some (.table slots d)) : ∃ h', clone h slots d = some h' ∧ h'.Acyclic := by
  have hd : d.all h.isTable := isTable_delegate hh hx
  obtain ⟨l, hl⟩ := hh.chain d
  have hd' : ∀ t, d = some t → h.isTable t := fun t ht => by simpa [ht] using hd
  have hlt : ∀ q ∈ l, q < h.length := hh.mem_lt hl fun t ht => Heap.lt_of_isTable (hd' t ht)
  have hnew : h.length ∉ l := fun hmem => Nat.lt_irrefl _ (hlt _ hmem)
  have hl' : Chain (Heap.delegate (h ++ [.table slots none])) d l := by
    rw [delegate_snoc]
    exact hl.update_of_notMem hnew _
  have hfuel : l.length < h.length + 2 := Nat.lt_succ_of_lt (Nat.lt_succ_of_le (hl.length_le_of_lt hlt))
  refine ⟨(h ++ [SQDelegable.table slots none]).modify h.length (·.withDelegate d), ?_, ?_⟩
  · rw [clone, setDelegate_eq hl' hfuel, if_neg hnew]
    rfl
  · refine Heap.Acyclic.redirect (hh.snoc rfl) hl' hnew ?_
    cases d with
    | none => rfl
    | some t => exact isTable_snoc (hd' t rfl)

/-- Every operation returns and keeps the heap acyclic. -/
theorem step_acyclic [DecidableEq K] (hh : h.Acyclic) (op : Op K V) :
    ∃ h', step h op = some h' ∧ h'.Acyclic := by
  cases op with
  | newTable => exact ⟨_, rfl, hh.snoc rfl⟩
  | newUserData => exact ⟨_, rfl, hh.snoc rfl⟩
  | setDelegate self mt =>
    obtain ⟨status, h', hset, hh'⟩ := sqSetDelegate_acyclic hh self mt
    exact ⟨h', by rw [step, hset]; rfl, hh'⟩
  | clone self =>
    rw [step]
    split
    · exact clone_acyclic hh ‹_›
    · exact ⟨h, rfl, hh⟩
  | newSlot self key val =>
    refine ⟨_, rfl, hh.modify_slots (fun x => ?_) (fun x => ?_) self⟩ <;> cases x <;> rfl
  | remove self key =>
    refine ⟨_, rfl, hh.modify_slots (fun x => ?_) (fun x => ?_) self⟩ <;> cases x <;> rfl

/-- No run gets stuck in a loop over delegates. -/
theorem execute_acyclic [DecidableEq K] (ops : List (Op K V)) (hh : h.Acyclic) :
    ∃ h', execute step h ops = some h' ∧ h'.Acyclic := by
  induction ops generalizing h with
  | nil => exact ⟨h, rfl, hh⟩
  | cons op ops ih =>
    obtain ⟨h', hstep, hh'⟩ := step_acyclic hh op
    rw [execute, hstep]
    exact ih hh'

theorem acyclic_nil : Heap.Acyclic ([] : Heap K V) :=
  ⟨fun _ => ⟨_, .cons .nil⟩, fun _ _ hd => absurd hd (by simp [Heap.delegate])⟩

/-- Every program runs to its end. In the state it reaches the delegates of every object end, and a table
becomes a delegate of an object exactly when the object is not the table and not behind it. -/
theorem delegates_end [DecidableEq K] (ops : List (Op K V)) :
    ∃ h, execute step [] ops = some h ∧ (∀ o, ∃ l, Chain h.delegate (some o) l) ∧
      ∀ self mt, h.isTable mt → ∃ l, Chain h.delegate (some mt) l ∧
        sqSetDelegate (h.length + 1) h self (some mt) =
          some (if self ∈ l then (.delegateCycle, h)
            else (.ok, h.modify self (·.withDelegate (some mt)))) := by
  obtain ⟨h, hrun, hh⟩ := execute_acyclic ops acyclic_nil
  refine ⟨h, hrun, hh.ends, fun self mt hmt => ?_⟩
  obtain ⟨l, hl⟩ := hh.ends mt
  exact ⟨l, hl, sqSetDelegate_eq hh hl hmt⟩

/-- Two tables that are to be delegates of each other. -/
theorem delegates_end_cycle :
    ∃ h : Heap Nat Nat,
      execute step [] [.newTable, .newTable, .setDelegate 0 (some 1)] = some h ∧
        sqSetDelegate 3 h 1 (some 0) = some (.delegateCycle, h) := by
  obtain ⟨h, hrun, -, hset⟩ := @delegates_end Nat Nat _
    [.newTable, .newTable, .setDelegate 0 (some 1)]
  refine ⟨h, hrun, ?_⟩
  obtain rfl : [.table (fun _ => none) (some 1), .table (fun _ => none) none] = h := Option.some.inj hrun
  obtain ⟨l, hl, hres⟩ := hset 1 0 rfl
  obtain rfl : l = [0, 1] := hl.unique (.cons (.cons .nil))
  exact hres

end Quirrel.Delegation
