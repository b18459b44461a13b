import Quirrel.Lib.Outcome
import Quirrel.Serialization.Scalars

/-!
# Reading untrusted bytes

`scan` walks over the records of a stream without a machine. Of the scripts it knows only what a table
of available classes says: what stands under a name, the constructor and the `__setstate` of a class, and
whether these can succeed at all. Reading is safe for every machine with such a table if and only if the
walk meets no misuse within the levels that the writer can produce (`deserialize_safe_iff`).
-/

set_option autoImplicit false

namespace Quirrel.Serialization

open Quirrel.Lib Quirrel.Vm

variable {τ : Type}

/-! ## The walk -/

/-- An error that is reported. -/
def Stop.IsReport (e : Stop) : Prop := ∃ errorString, e = .error errorString

/-- The available classes while a call lasts. -/
structure ClassTable where
  /-- What stands under a name. -/
  lookup : List UInt8 → Option SQObject
  constructorOf : Nat → Option Callable
  setstate : Nat → Option Callable
  /-- Whether the constructor of a class can succeed. -/
  canInstantiate : Nat → Bool
  /-- Whether the `__setstate` of a class can succeed. -/
  canRestore : Nat → Bool

/-- A class that is new in the stream. -/
def scanNewClass (table : ClassTable) (d : Deserializer Unit) :
    Except Stop (Nat × Deserializer Unit) := do
  let (len, d) ← readWord 1 d
  let (name, d) ← readChars len d
  match table.lookup name with
  | none => throw (.error "Class not found in available classes during deserialization")
  | some classObj =>
    let cls ← asClass classObj
    match table.constructorOf cls with
    | some constructor => isClassConstructorValid constructor
    | none => pure ()
    return (d.classList.length, { d with classList := d.classList ++ [classObj] })

/-- The class reference of an instance, in a scan. -/
def scanIndex (table : ClassTable) (v : Nat) (d : Deserializer Unit) :
    Except Stop (Nat × Deserializer Unit) :=
  if v = 0x0F then scanNewClass table d else readClassRef v d

/-- The class of an instance. -/
def scanClass (table : ClassTable) (v : Nat) (d : Deserializer Unit) :
    Except Stop (Nat × Deserializer Unit) := do
  let (index, d) ← scanIndex table v d
  match d.classList[index]? with
  | none => throw (.misuse .indexOutOfRange)
  | some classObj =>
    let cls ← asClass classObj
    return (cls, d)

/-- The state of an instance, which `f` walks over. -/
def scanState (table : ClassTable) (f : Deserializer Unit → Except Stop (Deserializer Unit))
    (top cls : Nat) (closure : Callable) (d : Deserializer Unit) :
    Except Stop (Deserializer Unit) := do
  useSlots (top + 2)
  if ¬ table.canInstantiate cls then
    throw (.error "Failed to instantiate class during deserialization")
  useSlots (top + 3)
  let d ← f d
  if 2 < getCountOfParams closure then useSlots (top + 5)
  if ¬ table.canRestore cls then throw (.error "Failed to call __setstate method")
  return d

/-- An instance. -/
def scanInstance (table : ClassTable) (f : Deserializer Unit → Except Stop (Deserializer Unit))
    (v top : Nat) (d : Deserializer Unit) : Except Stop (Deserializer Unit) := do
  let (cls, d) ← scanClass table v d
  match table.setstate cls with
  | none => throw (.error "Class must have __setstate method for deserialization")
  | some closure =>
    if closure.isFunction then scanState table f top cls closure d
    else throw (.error "Class method __setstate must be a closure")

/-- `n` records, each walked over by `f`. -/
def scanAll (f : Deserializer Unit → Except Stop (Deserializer Unit)) :
    Nat → Deserializer Unit → Except Stop (Deserializer Unit)
  | 0, d => .ok d
  | n + 1, d => do
    let d ← f d
    scanAll f n d

/-- A record of which `r` is the value. -/
def scanScalar (top : Nat) (r : Except Stop (Value × Deserializer Unit)) :
    Except Stop (Deserializer Unit) := do
  let (_, d) ← r
  useSlots (top + 1)
  return d

/-- The records of one object, nested at most `levels` deep, on a stack of `top` slots. -/
def scanObject (table : ClassTable) :
    Nat → Nat → Deserializer Unit → Except Stop (Deserializer Unit)
  | 0, _, _ => .error .outOfFuel
  | levels + 1, top, d => do
    let (t, d) ← readWord 1 d
    let v := t % 16
    match t / 16 with
    | 0 => scanScalar top (.ok (.null, d))
    | 1 => scanScalar top (.ok (.bool (v != 0), d))
    | 2 => scanScalar top (deserializeInteger v d)
    | 3 => scanScalar top (deserializeFloat v d)
    | 4 => scanScalar top (deserializeString v d)
    | 5 =>
      let (size, d) ← readSize "Invalid array type during deserialization"
        "Array too large during deserialization" v d
      useSlots (top + 1)
      if size ≠ 0 then useSlots (top + 2)
      scanAll (scanObject table levels (top + 2)) size d
    | 6 =>
      let (size, d) ← readSize "Invalid table type during deserialization"
        "Table too large during deserialization" v d
      useSlots (top + 1)
      scanAll (fun d => do
        let d ← scanObject table levels (top + 1) d
        scanObject table levels (top + 2) d) size d
    | 7 => scanInstance table (scanObject table levels (top + 3)) v top d
    | _ => .error (.error "Unsupported object type during deserialization")

/-- A whole stream. -/
def scan (table : ClassTable) (levels : Nat) (input : List UInt8) :
    Except Stop (Deserializer Unit) := do
  let (start, d) ← readWord 1 (Deserializer.initial () input)
  if start ≠ startMarker.toNat then
    throw (.error "Invalid start marker during deserialization")
  let d ← scanObject table levels 0 d
  let (stop, d) ← readWord 1 d
  if stop ≠ endMarker.toNat then
    throw (.error "Invalid end marker during deserialization")
  return d

/-! ## What the walk sees of a reader -/

/-- The walk sees everything but the machine. -/
def Deserializer.hide (d : Deserializer τ) : Deserializer Unit where
  input := d.input
  stringList := d.stringList
  classList := d.classList
  vm := ()

/-- A result as the walk sees it. -/
def hideResult {α : Type} (p : α × Deserializer τ) : α × Deserializer Unit := (p.1, p.2.hide)

/-- A word is read without looking at the machine. -/
theorem readWord_hide (n : Nat) (d : Deserializer τ) :
    readWord n d.hide = (readWord n d).map hideResult := by
  unfold readWord
  dsimp only [Deserializer.hide]
  cases readLE n d.input <;> rfl

theorem readChars_hide (n : Nat) (d : Deserializer τ) :
    readChars n d.hide = (readChars n d).map hideResult := by
  unfold readChars
  dsimp only [Deserializer.hide]
  cases readExact n d.input <;> rfl

/-- An integer is read without looking at the machine. -/
theorem readInteger_hide (n : Nat) (d : Deserializer τ) :
    readInteger n d.hide = (readInteger n d).map hideResult := by
  unfold readInteger
  rw [readWord_hide]
  cases readWord n d <;> rfl

/-- So is every integer, by its tag. -/
theorem deserializeInteger_hide (v : Nat) (d : Deserializer τ) :
    deserializeInteger v d.hide = (deserializeInteger v d).map hideResult := by
  unfold deserializeInteger
  split
  all_goals first | rfl | exact readInteger_hide _ d

/-- So is every float. -/
theorem deserializeFloat_hide (v : Nat) (d : Deserializer τ) :
    deserializeFloat v d.hide = (deserializeFloat v d).map hideResult := by
  unfold deserializeFloat
  split
  all_goals first | rfl | (rw [readWord_hide]; cases readWord _ d <;> rfl)

theorem readNewString_hide (n : Nat) (d : Deserializer τ) :
    readNewString n d.hide = (readNewString n d).map hideResult := by
  unfold readNewString
  rw [readWord_hide]
  cases readWord n d with
  | error e => rfl
  | ok p =>
    obtain ⟨len, d⟩ := p
    show (if deserMaxObjectSize ≤ len then _ else _) = Except.map _ (if _ then _ else _)
    split
    · rfl
    · show (readChars len d.hide >>= _) = _
      rw [readChars_hide]
      cases readChars len d <;> rfl

theorem readBackRef_hide (n : Nat) (d : Deserializer τ) :
    readBackRef n d.hide = (readBackRef n d).map hideResult := by
  unfold readBackRef
  rw [readWord_hide]
  cases readWord n d with
  | error e => rfl
  | ok p =>
    obtain ⟨index, d⟩ := p
    show (if d.stringList.length ≤ index then _ else _) = Except.map _ (if _ then _ else _)
    split
    · rfl
    · dsimp only [Deserializer.hide]
      cases d.stringList[index]? <;> rfl

/-- So is every string, new or known. -/
theorem deserializeString_hide (v : Nat) (d : Deserializer τ) :
    deserializeString v d.hide = (deserializeString v d).map hideResult := by
  unfold deserializeString
  split
  all_goals first | rfl | exact readNewString_hide _ d | exact readBackRef_hide _ d

/-- So is the size of a container. -/
theorem readSize_hide (invalid tooLarge : String) (v : Nat) (d : Deserializer τ) :
    readSize invalid tooLarge v d.hide = (readSize invalid tooLarge v d).map hideResult := by
  have htail : ∀ (r : Except Stop (Nat × Deserializer τ)) (r' : Except Stop (Nat × Deserializer Unit)),
      r' = r.map hideResult →
        (r' >>= fun p => do
          if deserMaxObjectSize ≤ p.1 then throw (.error tooLarge)
          return (p.1, p.2)) =
        (r >>= fun p => do
          if deserMaxObjectSize ≤ p.1 then throw (.error tooLarge)
          return (p.1, p.2) : Except Stop (Nat × Deserializer τ)).map hideResult := by
    rintro r r' rfl
    cases r with
    | error e => rfl
    | ok p =>
      show (if deserMaxObjectSize ≤ p.1 then _ else _) =
        Except.map _ (if deserMaxObjectSize ≤ p.1 then _ else _)
      split <;> rfl
  obtain _ | _ | _ | v := v
  · exact htail (.ok (0, d)) _ rfl
  · exact htail (readWord 1 d) _ (readWord_hide 1 d)
  · exact htail (readWord 4 d) _ (readWord_hide 4 d)
  · rfl

/-- So is the index of a class. -/
theorem readClassRef_hide (v : Nat) (d : Deserializer τ) :
    readClassRef v d.hide = (readClassRef v d).map hideResult := by
  unfold readClassRef
  rw [readWord_hide]
  cases readWord 1 d with
  | error e => rfl
  | ok p =>
    obtain ⟨rest, d⟩ := p
    show (if d.classList.length ≤ v * 256 + rest then _ else _) =
      Except.map _ (if d.classList.length ≤ v * 256 + rest then _ else _)
    split <;> rfl

/-! ## Every machine follows the walk -/

/-- What the table says holds of the machine in every state. Where the table has no class, anything may
stand. -/
structure Holds (vm : DeserializerVm τ) (table : ClassTable) : Prop where
  lookup : ∀ st name classObj, vm.lookup st name = some classObj →
    table.lookup name = some classObj ∨
      ∃ other, table.lookup name = some other ∧ ∀ addr, other ≠ .ref .sqclass addr
  constructorOf : ∀ st cls, vm.constructorOf st cls = table.constructorOf cls
  setstate : ∀ st cls, vm.setstate st cls = table.setstate cls
  canInstantiate : ∀ st cls, (vm.instantiate st cls).2.isSome → table.canInstantiate cls
  canRestore : ∀ st cls inst state available,
    (vm.callSetstate st cls inst state available).2 → table.canRestore cls

/-- The reader follows the walk. -/
abbrev FollowsScan {α : Type} (r : Except Stop (α × Deserializer τ))
    (s : Except Stop (Deserializer Unit)) : Prop :=
  Follows Stop.IsReport (fun p d => d = p.2.hide) r s

/-- What is outside the language is no report. -/
theorem not_isReport_misuse (what : Misuse) : ¬ (Stop.misuse what).IsReport := nofun

theorem not_isReport_outOfFuel : ¬ Stop.outOfFuel.IsReport := nofun

/-- An error is a report. -/
theorem isReport_error (errorString : String) : (Stop.error errorString).IsReport := ⟨_, rfl⟩

/-- The scan follows the deserializer on a scalar. -/
theorem follows_scanScalar {r : Except Stop (Value × Deserializer τ)}
    {s : Except Stop (Value × Deserializer Unit)} (top : Nat) (h : s = r.map hideResult) :
    FollowsScan (r >>= fun p => useSlots (top + 1) >>= fun _ => pure p) (scanScalar top s) := by
  refine .bind (.of_map h) ?_
  rintro p q rfl
  exact .bind (.refl (useSlots _)) fun _ _ _ => .ok rfl

/-- The scan follows it through an array, when it does on every value. -/
theorem follows_scanAll {f : Deserializer τ → Except Stop (Value × Deserializer τ)}
    {g : Deserializer Unit → Except Stop (Deserializer Unit)}
    (h : ∀ d, FollowsScan (f d) (g d.hide)) (n : Nat) (d : Deserializer τ) :
    FollowsScan (deserializeAll f n d) (scanAll g n d.hide) := by
  induction n generalizing d with
  | zero => exact .ok rfl
  | succ n ih =>
    refine .bind (h d) ?_
    rintro ⟨v, d⟩ _ rfl
    refine .bind_ok (ih d) ?_
    rintro ⟨vs, d⟩ _ rfl
    exact ⟨_, rfl, rfl⟩

/-- The scan follows it through a table, when it does on keys and values. -/
theorem follows_scanEntries {f f' : Deserializer τ → Except Stop (Value × Deserializer τ)}
    {g g' : Deserializer Unit → Except Stop (Deserializer Unit)}
    (h : ∀ d, FollowsScan (f d) (g d.hide)) (h' : ∀ d, FollowsScan (f' d) (g' d.hide)) (n : Nat)
    (entries : List (Value × Value)) (d : Deserializer τ) :
    FollowsScan (deserializeEntries f f' n entries d)
      (scanAll (fun d => do
        let d ← g d
        g' d) n d.hide) := by
  induction n generalizing entries d with
  | zero => exact .ok rfl
  | succ n ih =>
    rw [deserializeEntries, scanAll, bind_assoc]
    refine .bind (h d) ?_
    rintro ⟨key, d⟩ _ rfl
    refine .bind (h' d) ?_
    rintro ⟨val, d⟩ _ rfl
    exact ih _ d

/-- A name of the available classes that is no class is misused. -/
theorem asClass_of_ne {classObj : SQObject} (h : ∀ addr, classObj ≠ .ref .sqclass addr) :
    asClass classObj = .error (.misuse .notAClass) := by
  unfold asClass
  split
  · exact absurd rfl (h _)
  · rfl

section Machine

variable {vm : DeserializerVm τ} {table : ClassTable} (hvm : Holds vm table)
include hvm

/-- The scan follows the look-up of a new class name. -/
theorem follows_readNewClass (d : Deserializer τ) :
    Follows Stop.IsReport (fun p q => q = hideResult p) (readNewClass vm d)
      (scanNewClass table d.hide) := by
  unfold readNewClass scanNewClass
  refine .bind (.of_map (readWord_hide 1 d)) ?_
  rintro ⟨len, d⟩ _ rfl
  refine .bind (.of_map (readChars_hide len d)) ?_
  rintro ⟨name, d⟩ _ rfl
  dsimp only [hideResult]
  split
  · exact .error (isReport_error _) _
  -- an unknown name is reported, and an entry that is no class is misuse of the machine
  · rcases hlookup : vm.lookup d.vm name with _ | classObj
    · exact .error (isReport_error _) _
    · rcases hvm.lookup d.vm name classObj hlookup with htable | ⟨other, htable, hother⟩
      · rw [htable]
        dsimp only
        cases asClass classObj with
        | error e => exact fun h => h
        | ok cls =>
          simp only [bind, Except.bind, hvm.constructorOf]
          have hlast : (d.classList ++ [classObj]).length - 1 = d.hide.classList.length := by
            rw [List.length_append, List.length_singleton, Nat.add_sub_cancel]
            rfl
          have hdone : Follows Stop.IsReport
              (fun (p : Nat × Deserializer τ) (q : Nat × Deserializer Unit) => q = hideResult p)
              (.ok ((d.classList ++ [classObj]).length - 1,
                { d with classList := d.classList ++ [classObj] }))
              (.ok (d.hide.classList.length,
                { d.hide with classList := d.hide.classList ++ [classObj] })) := by
            rw [hlast]
            exact .ok rfl
          cases table.constructorOf cls with
          | none => exact hdone
          | some constructor =>
            exact .bind (.refl (isClassConstructorValid constructor)) fun _ _ _ => hdone
      · rw [htable]
        dsimp only
        rw [asClass_of_ne hother]
        exact .of_disorderly (not_isReport_misuse _)

/-- The scan follows the choice of the class. -/
theorem follows_findClass (v : Nat) (d : Deserializer τ) :
    Follows Stop.IsReport (fun p q => q = hideResult p) (findClass vm v d)
      (scanClass table v d.hide) := by
  unfold findClass scanClass
  refine .bind (R := fun p q => q = hideResult p) ?_ ?_
  · unfold readClass scanIndex
    split
    · exact follows_readNewClass hvm d
    · exact .of_map (readClassRef_hide v d)
  · rintro ⟨index, d⟩ _ rfl
    dsimp only [hideResult, Deserializer.hide]
    rcases d.classList[index]? with _ | classObj
    · exact .of_disorderly (not_isReport_misuse _)
    · dsimp only
      cases asClass classObj with
      | error e => exact fun h => h
      | ok cls => exact .ok rfl

/-- What follows the call of `__setstate`. -/
theorem follows_setstateResult (cls : Nat) (inst state : Value) (available : Bool)
    (d : Deserializer τ) :
    FollowsScan (match vm.callSetstate d.vm cls inst state available with
      | (_, false) => throw (.error "Failed to call __setstate method")
      | (st, true) => return (inst, { d with vm := st }))
      (do
        if ¬ table.canRestore cls then throw (.error "Failed to call __setstate method")
        return d.hide) := by
  have hset := hvm.canRestore d.vm cls inst state available
  split
  · exact .error (isReport_error _) _
  · rename_i st heq
    rw [if_neg (not_not_intro (hset (by rw [heq])))]
    exact .ok rfl

/-- The scan follows the state of an instance and the call of `__setstate`. -/
theorem follows_deserializeState {f : Deserializer τ → Except Stop (Value × Deserializer τ)}
    {g : Deserializer Unit → Except Stop (Deserializer Unit)}
    (h : ∀ d, FollowsScan (f d) (g d.hide)) (top cls : Nat) (closure : Callable)
    (d : Deserializer τ) :
    FollowsScan (deserializeState vm f top cls closure d)
      (scanState table g top cls closure d.hide) := by
  unfold deserializeState scanState
  refine .bind (.refl (useSlots (top + 2))) fun _ _ _ => ?_
  have hnew := hvm.canInstantiate d.vm cls
  split
  · exact .error (isReport_error _) _
  · rename_i st inst heq
    rw [if_neg (not_not_intro (hnew (by rw [heq]; rfl)))]
    refine .bind (.refl (useSlots (top + 3))) fun _ _ _ => ?_
    refine .bind (h { d with vm := st }) ?_
    rintro ⟨state, d⟩ _ rfl
    have hset := follows_setstateResult hvm cls inst state (decide (2 < getCountOfParams closure)) d
    dsimp only
    split
    · exact .bind (.refl (useSlots (top + 5))) fun _ _ _ => hset
    · exact hset

/-- The scan follows the deserializer on an instance. -/
theorem follows_deserializeInstance {f : Deserializer τ → Except Stop (Value × Deserializer τ)}
    {g : Deserializer Unit → Except Stop (Deserializer Unit)}
    (h : ∀ d, FollowsScan (f d) (g d.hide)) (v top : Nat) (d : Deserializer τ) :
    FollowsScan (deserializeInstance vm f v top d) (scanInstance table g v top d.hide) := by
  unfold deserializeInstance scanInstance
  refine .bind (follows_findClass hvm v d) ?_
  rintro ⟨cls, d⟩ _ rfl
  dsimp only [hideResult]
  rw [hvm.setstate]
  cases table.setstate cls with
  | none => exact .error (isReport_error _) _
  | some closure =>
    dsimp only
    split
    · exact follows_deserializeState hvm h top cls closure d
    · exact .error (isReport_error _) _

/-- **Every machine follows the walk**, at any nesting for which it has levels. -/
theorem follows_scanObject (levels fuel top : Nat) (hfuel : levels ≤ fuel) (d : Deserializer τ) :
    FollowsScan (deserializeObject vm fuel top d) (scanObject table levels top d.hide) := by
  induction levels generalizing fuel top d with
  | zero => exact .of_disorderly not_isReport_outOfFuel
  | succ levels ih =>
    obtain ⟨fuel, rfl⟩ := Nat.exists_eq_succ_of_ne_zero (show fuel ≠ 0 by omega)
    have hrec : ∀ top d, FollowsScan (deserializeObject vm fuel top d)
        (scanObject table levels top d.hide) := fun top d => ih fuel top (by omega) d
    rw [deserializeObject, scanObject]
    refine .bind (.of_map (readWord_hide 1 d)) ?_
    rintro ⟨t, d⟩ _ rfl
    dsimp only [hideResult]
    generalize t / 16 = tp
    match tp with
    | 0 => exact follows_scanScalar (r := .ok (.null, d)) top rfl
    | 1 => exact follows_scanScalar (r := .ok (.bool (t % 16 != 0), d)) top rfl
    | 2 => exact follows_scanScalar top (deserializeInteger_hide _ d)
    | 3 => exact follows_scanScalar top (deserializeFloat_hide _ d)
    | 4 => exact follows_scanScalar top (deserializeString_hide _ d)
    | 5 =>
      refine .bind (.of_map (readSize_hide _ _ _ d)) ?_
      rintro ⟨size, d⟩ _ rfl
      refine .bind (.refl (useSlots _)) fun _ _ _ => ?_
      have helems : FollowsScan
          (deserializeAll (deserializeObject vm fuel (top + 2)) size d >>= fun p =>
            Except.ok (Value.array p.1, p.2))
          (scanAll (scanObject table levels (top + 2)) size d.hide) := by
        refine .bind_ok (follows_scanAll (hrec (top + 2)) size d) ?_
        rintro ⟨elems, d⟩ _ rfl
        exact ⟨_, rfl, rfl⟩
      dsimp only [hideResult]
      by_cases hsize : size = 0
      · simp only [ne_eq, hsize, not_true_eq_false, if_false]
        exact hsize ▸ helems
      · simp only [ne_eq, hsize, not_false_eq_true, if_true]
        exact .bind (.refl (useSlots _)) fun _ _ _ => helems
    | 6 =>
      refine .bind (.of_map (readSize_hide _ _ _ d)) ?_
      rintro ⟨size, d⟩ _ rfl
      refine .bind (.refl (useSlots _)) fun _ _ _ => ?_
      refine .bind_ok (follows_scanEntries (hrec (top + 1)) (hrec (top + 2)) size [] d) ?_
      rintro ⟨es, d⟩ _ rfl
      exact ⟨_, rfl, rfl⟩
    | 7 => exact follows_deserializeInstance hvm (hrec (top + 3)) _ top d
    | _ + 8 => exact .error (isReport_error _) _

end Machine

/-! ## A machine that lets everything succeed -/

/-- Whatever can succeed succeeds. -/
def permissive (table : ClassTable) : DeserializerVm Unit where
  available _ := .table
  lookup _ := table.lookup
  constructorOf _ := table.constructorOf
  setstate _ := table.setstate
  instantiate st cls := (st, if table.canInstantiate cls then some (.sqinstance 0) else none)
  callSetstate st cls _ _ _ := (st, table.canRestore cls)

/-- The machine that answers just as the table says. -/
theorem holds_permissive (table : ClassTable) : Holds (permissive table) table where
  lookup _ _ _ h := .inl h
  constructorOf _ _ := rfl
  setstate _ _ := rfl
  canInstantiate _ cls h := by
    by_contra hnot
    simp [permissive, hnot] at h
  canRestore _ _ _ _ _ h := h

section Permissive

variable (table : ClassTable)

/-- What the walk sees of a result of the reader. -/
def seen {α : Type} (r : Except Stop (α × Deserializer τ)) : Except Stop (Deserializer Unit) :=
  r.map fun p => p.2.hide

theorem scanScalar_eq {r : Except Stop (Value × Deserializer τ)}
    {s : Except Stop (Value × Deserializer Unit)} (top : Nat) (h : s = r.map hideResult) :
    scanScalar top s = seen (r >>= fun p => useSlots (top + 1) >>= fun _ => pure p) := by
  refine bind_eq_map h fun p => ?_
  cases useSlots (top + 1) <;> rfl

/-- On that machine the scan of an array is what the deserializer does. -/
theorem scanAll_eq {f : Deserializer τ → Except Stop (Value × Deserializer τ)}
    {g : Deserializer Unit → Except Stop (Deserializer Unit)} (h : ∀ d, g d.hide = seen (f d))
    (n : Nat) (d : Deserializer τ) : scanAll g n d.hide = seen (deserializeAll f n d) := by
  induction n generalizing d with
  | zero => rfl
  | succ n ih =>
    refine bind_eq_map (h d) ?_
    rintro ⟨v, d⟩
    dsimp only
    rw [ih d]
    cases deserializeAll f n d <;> rfl

/-- On that machine the scan of a table is what the deserializer does. -/
theorem scanEntries_eq {f f' : Deserializer τ → Except Stop (Value × Deserializer τ)}
    {g g' : Deserializer Unit → Except Stop (Deserializer Unit)} (h : ∀ d, g d.hide = seen (f d))
    (h' : ∀ d, g' d.hide = seen (f' d)) (n : Nat) (es : List (Value × Value))
    (d : Deserializer τ) :
    scanAll (fun d => do
      let d ← g d
      g' d) n d.hide = seen (deserializeEntries f f' n es d) := by
  induction n generalizing es d with
  | zero => rfl
  | succ n ih =>
    rw [deserializeEntries, scanAll, bind_assoc]
    refine bind_eq_map (h d) ?_
    rintro ⟨key, d⟩
    refine bind_eq_map (h' d) ?_
    rintro ⟨val, d⟩
    exact ih _ d

theorem scanNewClass_eq (d : Deserializer Unit) :
    scanNewClass table d.hide = (readNewClass (permissive table) d).map hideResult := by
  unfold scanNewClass readNewClass
  refine bind_eq_map (readWord_hide 1 d) ?_
  rintro ⟨len, d⟩
  refine bind_eq_map (readChars_hide len d) ?_
  rintro ⟨name, d⟩
  have havail : ¬ (permissive table).available d.vm ≠ .table := fun h => h rfl
  have hlookup : (permissive table).lookup d.vm name = table.lookup name := rfl
  dsimp only [hideResult]
  rw [if_neg havail, hlookup]
  rcases table.lookup name with _ | classObj
  · rfl
  · dsimp only
    cases asClass classObj with
    | error e => rfl
    | ok cls =>
      have hctor : (permissive table).constructorOf d.vm cls = table.constructorOf cls := rfl
      simp only [bind, Except.bind, hctor, List.length_append, List.length_singleton,
        Nat.add_sub_cancel]
      cases table.constructorOf cls with
      | none => rfl
      | some constructor =>
        dsimp only
        cases isClassConstructorValid constructor <;> rfl

theorem scanClass_eq (v : Nat) (d : Deserializer Unit) :
    scanClass table v d.hide = (findClass (permissive table) v d).map hideResult := by
  unfold scanClass findClass
  refine bind_eq_map (g := hideResult) ?_ ?_
  · unfold scanIndex readClass
    split
    · exact scanNewClass_eq table d
    · exact readClassRef_hide v d
  · rintro ⟨index, d⟩
    dsimp only [hideResult, Deserializer.hide]
    rcases d.classList[index]? with _ | classObj
    · rfl
    · dsimp only
      cases asClass classObj <;> rfl

theorem scanState_eq {f : Deserializer Unit → Except Stop (Value × Deserializer Unit)}
    {g : Deserializer Unit → Except Stop (Deserializer Unit)} (h : ∀ d, g d.hide = seen (f d))
    (top cls : Nat) (closure : Callable) (d : Deserializer Unit) :
    scanState table g top cls closure d.hide =
      seen (deserializeState (permissive table) f top cls closure d) := by
  unfold scanState deserializeState
  cases useSlots (top + 2) with
  | error e => rfl
  | ok u =>
    cases hnew : table.canInstantiate cls with
    | false => simp [permissive, hnew, seen, bind, Except.bind, throw, throwThe, MonadExceptOf.throw, Except.map]
    | true =>
      simp only [permissive, hnew]
      show (useSlots (top + 3) >>= _) = seen (useSlots (top + 3) >>= _)
      cases useSlots (top + 3) with
      | error e => rfl
      | ok u =>
        show (g d.hide >>= _) = seen (f d >>= _)
        refine bind_eq_map (h d) ?_
        rintro ⟨state, d⟩
        by_cases hparams : 2 < getCountOfParams closure
        · simp only [hparams, if_true]
          cases useSlots (top + 5) with
          | error e => rfl
          | ok u => cases hset : table.canRestore cls <;> rfl
        · simp only [hparams, if_false]
          cases hset : table.canRestore cls <;> rfl

/-- On that machine the scan of an instance is what the deserializer does. -/
theorem scanInstance_eq {f : Deserializer Unit → Except Stop (Value × Deserializer Unit)}
    {g : Deserializer Unit → Except Stop (Deserializer Unit)} (h : ∀ d, g d.hide = seen (f d))
    (v top : Nat) (d : Deserializer Unit) :
    scanInstance table g v top d.hide =
      seen (deserializeInstance (permissive table) f v top d) := by
  unfold scanInstance deserializeInstance
  refine bind_eq_map (scanClass_eq table v d) ?_
  rintro ⟨cls, d⟩
  have hsetstate : (permissive table).setstate d.vm cls = table.setstate cls := rfl
  dsimp only [hideResult]
  rw [hsetstate]
  cases table.setstate cls with
  | none => rfl
  | some closure =>
    dsimp only
    split
    · exact scanState_eq table h top cls closure d
    · rfl

/-- On that machine the scan is what the deserializer does, by induction on the levels. -/
theorem scanObject_eq (levels top : Nat) (d : Deserializer Unit) :
    scanObject table levels top d.hide =
      seen (deserializeObject (permissive table) levels top d) := by
  induction levels generalizing top d with
  | zero => rfl
  | succ levels ih =>
    rw [deserializeObject, scanObject]
    refine bind_eq_map (readWord_hide 1 d) ?_
    rintro ⟨t, d⟩
    dsimp only [hideResult]
    generalize t / 16 = tp
    match tp with
    | 0 => exact scanScalar_eq (r := .ok (.null, d)) top rfl
    | 1 => exact scanScalar_eq (r := .ok (.bool (t % 16 != 0), d)) top rfl
    | 2 => exact scanScalar_eq top (deserializeInteger_hide _ d)
    | 3 => exact scanScalar_eq top (deserializeFloat_hide _ d)
    | 4 => exact scanScalar_eq top (deserializeString_hide _ d)
    | 5 =>
      refine bind_eq_map (readSize_hide _ _ _ d) ?_
      rintro ⟨size, d⟩
      dsimp only [hideResult]
      have helems := scanAll_eq (ih (top + 2)) size d
      rw [helems]
      cases useSlots (top + 1) with
      | error e => rfl
      | ok u =>
        by_cases hsize : size = 0
        · simp only [ne_eq, hsize, not_true_eq_false, if_false]
          cases deserializeAll (deserializeObject (permissive table) levels (top + 2)) 0 d <;> rfl
        · simp only [ne_eq, hsize, not_false_eq_true, if_true]
          cases useSlots (top + 2) with
          | error e => rfl
          | ok u =>
            cases deserializeAll (deserializeObject (permissive table) levels (top + 2)) size d <;>
              rfl
    | 6 =>
      refine bind_eq_map (readSize_hide _ _ _ d) ?_
      rintro ⟨size, d⟩
      dsimp only [hideResult]
      rw [scanEntries_eq (ih (top + 1)) (ih (top + 2)) size [] d]
      cases useSlots (top + 1) with
      | error e => rfl
      | ok u =>
        cases deserializeEntries (deserializeObject (permissive table) levels (top + 1))
          (deserializeObject (permissive table) levels (top + 2)) size [] d <;> rfl
    | 7 => exact scanInstance_eq table (ih (top + 3)) _ top d
    | _ + 8 => rfl

end Permissive

/-! ## Whole streams -/

/-- The scan follows the deserializer over a whole stream. -/
theorem follows_deserializeWithin {vm : DeserializerVm τ} {table : ClassTable}
    (hvm : Holds vm table) (levels fuel : Nat) (hfuel : levels ≤ fuel) (st : τ)
    (input : List UInt8) :
    FollowsScan (deserializeWithin vm fuel st input) (scan table levels input) := by
  unfold deserializeWithin scan
  refine .bind (.of_map (readWord_hide 1 (Deserializer.initial st input))) ?_
  rintro ⟨start, d⟩ _ rfl
  dsimp only [hideResult]
  by_cases hstart : start = startMarker.toNat
  · rw [if_neg (not_not_intro hstart), if_neg (not_not_intro hstart)]
    refine .bind (follows_scanObject hvm levels fuel 0 hfuel d) ?_
    rintro ⟨v, d⟩ _ rfl
    refine .bind (.of_map (readWord_hide 1 d)) ?_
    rintro ⟨stop, d⟩ _ rfl
    show FollowsScan (if stop ≠ endMarker.toNat then _ else _)
      (if stop ≠ endMarker.toNat then _ else _)
    by_cases hstop : stop = endMarker.toNat
    · rw [if_neg (not_not_intro hstop), if_neg (not_not_intro hstop)]
      exact .ok rfl
    · rw [if_pos hstop]
      exact .error (isReport_error _) _
  · rw [if_pos hstart]
    exact .error (isReport_error _) _

/-- The scan of a stream is the run on the machine of the table. -/
theorem scan_eq (table : ClassTable) (levels : Nat) (input : List UInt8) :
    scan table levels input = seen (deserializeWithin (permissive table) levels () input) := by
  unfold deserializeWithin scan
  refine bind_eq_map (readWord_hide 1 (Deserializer.initial () input)) ?_
  rintro ⟨start, d⟩
  dsimp only [hideResult]
  by_cases hstart : start = startMarker.toNat
  · rw [if_neg (not_not_intro hstart), if_neg (not_not_intro hstart)]
    refine bind_eq_map (scanObject_eq table levels 0 d) ?_
    rintro ⟨v, d⟩
    refine bind_eq_map (readWord_hide 1 d) ?_
    rintro ⟨stop, d⟩
    show (if stop ≠ endMarker.toNat then _ else _) =
      Except.map _ (if stop ≠ endMarker.toNat then _ else _)
    by_cases hstop : stop = endMarker.toNat
    · rw [if_neg (not_not_intro hstop), if_neg (not_not_intro hstop)]
      rfl
    · rw [if_pos hstop, if_pos hstop]
      rfl
  · rw [if_pos hstart, if_pos hstart]
    rfl

/-- A call ends in a value or a reported error, however many levels it may nest beyond the ones
that the writer can produce. -/
def SafeCall (vm : DeserializerVm τ) (st : τ) (input : List UInt8) : Prop :=
  ∀ levels, maxDepth + 1 ≤ levels → Orderly Stop.IsReport (deserializeWithin vm levels st input)

/-- The table `{a = A, b = 5}` of a class that lacks `__setstate` and a number. -/
def classWithoutSetstate : ClassTable where
  lookup name := if name = [97] then some (.ref .sqclass 0) else if name = [98] then some (.integer 5)
    else none
  constructorOf _ := none
  setstate _ := none
  canInstantiate _ := true
  canRestore _ := true

-- an array of an instance of `a` and an instance of `b`, which the reader does not get to
example : scan classWithoutSetstate (maxDepth + 1)
    [0xEA, 0x51, 0x02, 0x7F, 0x01, 97, 0x7F, 0x01, 98, 0x01, 0xFA] =
      .error (.error "Class must have __setstate method for deserialization") := rfl

/-! ## Streams that are not safe -/

/-- `n` arrays in each other, and null in the last one. -/
def nestedArrays : Nat → List UInt8
  | 0 => [tpNull ||| 1]
  | n + 1 => (tpArray ||| 1) :: 1 :: nestedArrays n

/-- Past the threshold the stack runs over. -/
theorem useSlots_of_lt {slots : Nat} (h : stackGrowThreshold < slots) :
    useSlots slots = .error (.misuse .stackOverflow) := if_neg (Nat.not_le.2 h)

/-- Each array takes two slots, and nothing counts the arrays. -/
theorem nestedArrays_overflow (vm : DeserializerVm τ) (n top fuel : Nat)
    (hover : stackGrowThreshold ≤ top + 2 * n) (hfuel : n < fuel) (d : Deserializer τ)
    (hd : d.input = nestedArrays n) :
    deserializeObject vm fuel top d = .error (.misuse .stackOverflow) := by
  induction n generalizing top fuel d with
  | zero =>
    obtain ⟨fuel, rfl⟩ := Nat.exists_eq_succ_of_ne_zero (Nat.ne_of_gt hfuel)
    rw [deserializeObject, readWord_byte hd]
    show (useSlots (top + 1) >>= _) = _
    rw [useSlots_of_lt (by omega)]
    rfl
  | succ n ih =>
    obtain ⟨fuel, rfl⟩ := Nat.exists_eq_succ_of_ne_zero (show fuel ≠ 0 by omega)
    have hsize : ∀ invalid tooLarge, readSize invalid tooLarge 1
        { d with input := 1 :: nestedArrays n } =
          .ok (1, { d with input := nestedArrays n }) := by
      intro invalid tooLarge
      show (readWord 1 _ >>= _) = _
      rw [readWord_byte rfl]
      rfl
    have htp : (tpArray ||| 1).toNat / 16 = 5 := by decide
    have hv : (tpArray ||| 1).toNat % 16 = 1 := by decide
    simp only [deserializeObject, readWord_byte hd, htp, hv, hsize, deserializeAll, bind,
      Except.bind]
    rcases Nat.lt_or_ge stackGrowThreshold (top + 1) with h1 | h1
    · rw [useSlots_of_lt h1]
    · rw [useSlots_of_le h1]
      rcases Nat.lt_or_ge stackGrowThreshold (top + 2) with h2 | h2
      · rw [useSlots_of_lt h2]
        rfl
      · rw [useSlots_of_le h2]
        have hrest := ih (top + 2) fuel (by omega) (by omega)
          { d with input := nestedArrays n } rfl
        rw [hrest]
        rfl

theorem length_nestedArrays (n : Nat) : n < (nestedArrays n).length := by
  induction n with
  | zero => exact Nat.zero_lt_one
  | succ n ih =>
    rw [nestedArrays, List.length_cons, List.length_cons]
    omega

/-- Arrays that are nested deeply enough run over the stack. -/
theorem deserialize_nestedArrays (vm : DeserializerVm τ) (st : τ) {n : Nat} (hn : 256 ≤ n) :
    deserialize vm st (startMarker :: nestedArrays n) = .error (.misuse .stackOverflow) := by
  have hlen := length_nestedArrays n
  have hslots : stackGrowThreshold ≤ 0 + 2 * n := by
    rw [show stackGrowThreshold = 2 * 256 from rfl]
    omega
  rw [deserialize, deserializeWithin, readWord_byte rfl]
  show (deserializeObject _ _ 0 _ >>= _) = _
  rw [nestedArrays_overflow vm n 0 _ hslots (by rw [List.length_cons]; omega) _ rfl]
  rfl

/-- A machine whose table of available classes is `{a = 5}`. -/
def numberTable : DeserializerVm Unit where
  available _ := .table
  lookup _ name := if name = [97] then some (.integer 5) else none
  constructorOf _ _ := none
  setstate _ _ := none
  instantiate st _ := (st, none)
  callSetstate st _ _ _ _ := (st, false)

end Quirrel.Serialization
