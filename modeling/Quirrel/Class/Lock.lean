import Quirrel.Class.NativeFields
import Quirrel.Lib.Runs

/-!
# Locking a class

`SQClass::Lock` locks the base, calls the metamethod `_lock` and locks the class. The metamethod is
script: any operation may run inside it, another `Lock` too. The machine takes the calls of `Lock` in
small steps between the events of a script. Every locked class keeps its fields, their default values
and, while it has instances, its metamethods, in every run that avoids three kinds of step
(`careful_keeps_locked`): a slot that is static or holds a closure replaces a field or a metamethod
of a locked class, a value is stored through the handle of a field in a locked class, and a
metamethod `_lock` fails. A request that ends with an error before it reaches the class (`cls.x = v`,
any through an immutable reference) is no event.
-/

set_option autoImplicit false

namespace Quirrel.Class

open Lib

universe u v w

variable {K : Type u} {V : Type v} {D : Type w}

/-! ## The machine -/

/-- What a call of `SQClass::Lock` waits for. -/
inductive LockStage where
  | base
  | metamethod
  deriving DecidableEq

/-- A call of `SQClass::Lock`, with the class as the call found it. -/
structure LockCall (K : Type u) (V : Type v) where
  cls : Nat
  before : SQClass K V

/-- What runs: the script, the beginning of `Lock`, or a call of it that returns. -/
inductive Control (K : Type u) (V : Type v) where
  | script
  | enter (cls : Nat)
  | returned (call : LockCall K V) (success : Bool)

/-- The calls of `Lock` that are under way, the innermost first, over the state of the script. -/
structure LockState (K : Type u) (V : Type v) (D : Type w) where
  state : State K V D
  calls : List (LockCall K V × LockStage)
  control : Control K V

/-- What happens while scripts run and a class is locked: `Lock` calls metamethods between its
steps. -/
inductive LockEvent (K : Type u) (V : Type v) (D : Type w) where
  /-- Any operation of the script but a call of `Lock`. -/
  | script (e : Event K V D)
  | lock (cls : Nat)
  /-- The next step of `Lock`. -/
  | proceed
  /-- The metamethod of the innermost call ends, with or without an error. -/
  | endMetamethod (success : Bool)

/-- No class, and no call of `Lock` going on. -/
def LockState.initial : LockState K V D := ⟨State.initial, [], .script⟩

/-- Whether the event is a lock in one step. -/
def Event.IsLock : Event K V D → Prop
  | .lock _ => True
  | _ => False

/-- The class that the event destroys. -/
def Event.destroyed : Event K V D → Option Nat
  | .destroyClass cls => some cls
  | _ => none

/-- The class that the event destroys. -/
def LockEvent.destroyed : LockEvent K V D → Option Nat
  | .script e => e.destroyed
  | _ => none

/-- The instance that the event destroys. -/
def Event.destroyedInstance : Event K V D → Option Nat
  | .destroyInstance inst => some inst
  | _ => none

/-- The instance that the event destroys. -/
def LockEvent.destroyedInstance : LockEvent K V D → Option Nat
  | .script e => e.destroyedInstance
  | _ => none

/-- The end of `Lock`: the class is locked whatever the metamethod gave. -/
def LockState.finish (m : LockState K V D) (call : LockCall K V) (c : SQClass K V)
    (success : Bool) (calls : List (LockCall K V × LockStage)) : LockState K V D where
  state := m.state.setClass call.cls (some { c with lockedTypeId := currentHint call.cls })
  calls := calls
  control := .returned call success

variable (ops : ObjectOps K V D) [DecidableEq K] (sites : Nat → Site K)

/-- `MT_LOCK` among the metamethods of a class. -/
def mtLock : Nat := 16

/-- The part of `Lock` after the base: the metamethod is called if there is one. -/
inductive CallMetamethod (m : LockState K V D) (call : LockCall K V)
    (calls : List (LockCall K V × LockStage)) : LockState K V D → Prop
  | none {c : SQClass K V} (hc : m.state.heap.classes call.cls = some c)
      (hmm : c.metamethods mtLock = ops.null) :
    CallMetamethod m call calls (m.finish call c true calls)
  | some {c : SQClass K V} (hc : m.state.heap.classes call.cls = some c)
      (hmm : c.metamethods mtLock ≠ ops.null) :
    CallMetamethod m call calls
      { m with calls := (call, .metamethod) :: calls, control := .script }

/-- One step of the machine. -/
inductive LockStep (m : LockState K V D) : LockEvent K V D → LockState K V D → Prop
  | script {e : Event K V D} {s : State K V D} (hctl : m.control = .script) (hlock : ¬ e.IsLock)
      (hused : ∀ cls, e.destroyed = some cls → ∀ f ∈ m.calls, f.1.cls ≠ cls)
      (hstep : Step ops sites m.state e s) :
    LockStep m (.script e) { m with state := s }
  | lock {cls : Nat} (hctl : m.control = .script) :
    LockStep m (.lock cls) { m with control := .enter cls }
  | enterLocked {cls : Nat} {c : SQClass K V} (hctl : m.control = .enter cls)
      (hc : m.state.heap.classes cls = some c) (hlocked : c.isLocked = true) :
    LockStep m .proceed { m with control := .returned ⟨cls, c⟩ true }
  | enterDerived {cls base : Nat} {c : SQClass K V} (hctl : m.control = .enter cls)
      (hc : m.state.heap.classes cls = some c) (hlocked : c.isLocked = false)
      (hbase : c.base = some base) :
    LockStep m .proceed { m with calls := (⟨cls, c⟩, .base) :: m.calls, control := .enter base }
  | enterRoot {cls : Nat} {c : SQClass K V} {m' : LockState K V D} (hctl : m.control = .enter cls)
      (hc : m.state.heap.classes cls = some c) (hlocked : c.isLocked = false)
      (hbase : c.base = none) (hcall : CallMetamethod ops m ⟨cls, c⟩ m.calls m') :
    LockStep m .proceed m'
  | baseLocked {inner call : LockCall K V} {calls : List (LockCall K V × LockStage)}
      {m' : LockState K V D} (hctl : m.control = .returned inner true)
      (hcalls : m.calls = (call, .base) :: calls) (hcall : CallMetamethod ops m call calls m') :
    LockStep m .proceed m'
  | baseFailed {inner call : LockCall K V} {calls : List (LockCall K V × LockStage)}
      (hctl : m.control = .returned inner false) (hcalls : m.calls = (call, .base) :: calls) :
    LockStep m .proceed { m with calls := calls, control := .returned call false }
  | toScript {inner : LockCall K V} {success : Bool} (hctl : m.control = .returned inner success)
      (hcalls : ∀ f ∈ m.calls.head?, f.2 = .metamethod) :
    LockStep m .proceed { m with control := .script }
  | endMetamethod {call : LockCall K V} {calls : List (LockCall K V × LockStage)}
      {c : SQClass K V} {success : Bool} (hctl : m.control = .script)
      (hcalls : m.calls = (call, .metamethod) :: calls)
      (hc : m.state.heap.classes call.cls = some c) :
    LockStep m (.endMetamethod success) (m.finish call c success calls)

/-! ## What a locked class keeps -/

/-- The second class has the fields of the first, at the same positions and with the same default
values. -/
structure SQClass.SameFields (c c' : SQClass K V) : Prop where
  slots : ∀ key idx, (isField idx || isNativeField idx) = true →
    (c'.members.lookup key = some idx ↔ c.members.lookup key = some idx)
  defaultvalues : c'.defaultvalues = c.defaultvalues
  nativefields : c'.nativefields = c.nativefields

/-- From the first state to the second, by the events, the locked classes that were not destroyed have
stayed locked and have kept their fields; the instances that were not destroyed have kept their
class, and it has kept its metamethods. -/
structure KeepsLocked (m : LockState K V D) (es : List (LockEvent K V D)) (n : LockState K V D) :
    Prop where
  fields : ∀ cls c, m.state.heap.classes cls = some c → c.isLocked = true →
    (∀ e ∈ es, e.destroyed ≠ some cls) →
    ∃ c', n.state.heap.classes cls = some c' ∧ c'.isLocked = true ∧ c.SameFields c'
  metamethods : ∀ inst i, m.state.heap.instances inst = some i →
    (∀ e ∈ es, e.destroyedInstance ≠ some inst) →
    ∃ i' c c', n.state.heap.instances inst = some i' ∧ i'.cls = i.cls ∧
      m.state.heap.classes i.cls = some c ∧ n.state.heap.classes i.cls = some c' ∧
      c'.metamethods = c.metamethods

/-- A call of `Lock` that returns without success leaves the class as it was, and not locked. -/
def FailedLockUndone (m : LockState K V D) : Prop :=
  ∀ call, m.control = .returned call false →
    call.before.isLocked = false ∧ m.state.heap.classes call.cls = some call.before

/-! ## Steps that keep it -/

/-- The key is a field, so a new slot replaces its default value. -/
def SQClass.ReplacesField (c : SQClass K V) (key : K) : Prop :=
  ∃ idx, c.members.lookup key = some idx ∧ isField idx = true

/-- A new slot of this key and value becomes a metamethod. -/
def SQClass.SetsMetamethod (c : SQClass K V) (key : K) (val : V) : Prop :=
  (∃ mmidx, metaMethodSlot ops key val = some mmidx) ∧ c.countUsed < memberMaxCount ∧
    ∀ idx, c.members.lookup key = some idx → isNativeField idx = false

/-- The step avoids the three ways to change a locked class. -/
def Careful (m : LockState K V D) : LockEvent K V D → Prop
  | .script (.newSlot cls key val bstatic) =>
    ∀ c, m.state.heap.classes cls = some c → c.isLocked = true →
      belongsToStaticTable ops val bstatic = true → ¬ c.ReplacesField key ∧
        ((∃ inst i, m.state.heap.instances inst = some i ∧ i.cls = cls) →
          ¬ c.SetsMetamethod ops key val)
  | .script (.setByHandle cls isMethod _ _) =>
    isMethod = false → ∀ c, m.state.heap.classes cls = some c → c.isLocked = false
  | .endMetamethod success => success = true
  | _ => True

/-! ## What an operation does to one class and to one instance -/

/-- The operations that change a class in place. -/
inductive ClassChange (cls : Nat) (c : SQClass K V) : Event K V D → SQClass K V → Prop
  | newSlot (key : K) (val : V) (bstatic : Bool) :
    ClassChange cls c (.newSlot cls key val bstatic) (c.newSlot ops key val bstatic).1
  | registerNativeField (key : K) (desc : NativeFieldDesc) :
    ClassChange cls c (.registerNativeField cls key desc) (c.registerNativeField key desc).1
  | setClassUdSize (udsize : Int) (hopen : c.isLocked = false) :
    ClassChange cls c (.setClassUdSize cls udsize) { c with udsize := udsize }
  | setMethodByHandle (pos : Nat) (val : V) :
    ClassChange cls c (.setByHandle cls true pos val)
      { c with methods := c.methods.set pos val }
  | setDefaultByHandle (pos : Nat) (val : V) :
    ClassChange cls c (.setByHandle cls false pos val)
      { c with defaultvalues := c.defaultvalues.set pos val }
  | lock : ClassChange cls c (.lock cls) { c with lockedTypeId := currentHint cls }

/-- A class made by the step. -/
def NewClass (s : State K V D) (cls : Nat) (c : SQClass K V) : Prop :=
  FreshAddr s cls ∧ (c = SQClass.create ops none ∨ ∃ base b, s.heap.classes base = some b ∧
    c = SQClass.create ops (some (base, b)))

variable {ops sites} {s s' : State K V D} {e : Event K V D}

omit [DecidableEq K] in
theorem classes_setClass_self (cls : Nat) (c : Option (SQClass K V)) :
    (s.setClass cls c).heap.classes cls = c := by
  simp [State.setClass]

omit [DecidableEq K] in
/-- Another class is as before. -/
theorem classes_setClass_of_ne {cls d : Nat} (hne : d ≠ cls) (c : Option (SQClass K V)) :
    (s.setClass cls c).heap.classes d = s.heap.classes d := by
  simp [State.setClass, Function.update_of_ne hne]

omit [DecidableEq K] in
/-- A fresh address is not that of a class. -/
theorem FreshAddr.ne {addr cls : Nat} {c : SQClass K V} (h : FreshAddr s addr)
    (hc : s.heap.classes cls = some c) : cls ≠ addr := by
  rintro rfl
  rcases h.2.2 _ c hc with hlt | hlt <;> omega

/-- A class changed in place, seen from every class. -/
theorem change_setClass {a cls : Nat} {b c c' : SQClass K V} (hb : s.heap.classes a = some b)
    (hc : s.heap.classes cls = some c) (hchange : ClassChange ops a b e c') :
    (s.setClass a (some c')).heap.classes cls = some c ∨
      ∃ d, (s.setClass a (some c')).heap.classes cls = some d ∧ ClassChange ops cls c e d := by
  cases Decidable.em (cls = a) with
  | inl heq =>
    subst heq
    obtain rfl : c = b := Option.some.inj (hc.symm.trans hb)
    exact Or.inr ⟨c', classes_setClass_self cls _, hchange⟩
  | inr hne =>
    left
    rw [classes_setClass_of_ne hne]
    exact hc

/-- A live class that is not destroyed stays as it is or is changed in place. -/
theorem Step.live_class (hstep : Step ops sites s e s') {cls : Nat} {c : SQClass K V}
    (hc : s.heap.classes cls = some c) (hlive : e.destroyed ≠ some cls) :
    s'.heap.classes cls = some c ∨
      ∃ c', s'.heap.classes cls = some c' ∧ ClassChange ops cls c e c' := by
  cases hstep with
  | createClass hfresh =>
    left
    rw [classes_setClass_of_ne (hfresh.ne hc)]
    exact hc
  | createDerived hfresh hb hlocked =>
    left
    rw [classes_setClass_of_ne (hfresh.ne hc)]
    exact hc
  | newSlot hb => exact change_setClass hb hc (.newSlot _ _ _)
  | registerNativeField hb => exact change_setClass hb hc (.registerNativeField _ _)
  | setClassUdSize hb hopen => exact change_setClass hb hc (.setClassUdSize _ hopen)
  | setMethodByHandle hb => exact change_setClass hb hc (.setMethodByHandle _ _)
  | setDefaultByHandle hb => exact change_setClass hb hc (.setDefaultByHandle _ _)
  | lock hb => exact change_setClass hb hc .lock
  | destroyClass hfree =>
    left
    rw [classes_setClass_of_ne fun heq => hlive (congrArg some heq.symm)]
    exact hc
  | setLiteral hkind hi hd hset =>
    left
    split
    · exact hc
    · exact hc
  | createInstance | storeInstance | destroyInstance | getLiteral | accessTable => exact Or.inl hc

/-- A class that is destroyed has no references. -/
theorem Step.unreferenced (hstep : Step ops sites s e s') {cls : Nat}
    (hdestroyed : e.destroyed = some cls) : Unreferenced s cls := by
  cases hstep with
  | destroyClass hfree =>
    cases hdestroyed
    exact hfree
  | _ => cases hdestroyed

/-- A class after a change comes from the one before. -/
theorem origin_setClass {a cls : Nat} {b c c' : SQClass K V} (hb : s.heap.classes a = some b)
    (hchange : ClassChange ops a b e c') (hc : (s.setClass a (some c')).heap.classes cls = some c) :
    s.heap.classes cls = some c ∨ ∃ d, s.heap.classes cls = some d ∧ ClassChange ops cls d e c := by
  rcases classes_setClass hc with ⟨rfl, rfl⟩ | ⟨-, hold⟩
  · exact Or.inr ⟨b, hb, hchange⟩
  · exact Or.inl hold

/-- A live class was there before the step, or is a new one. -/
theorem Step.class_origin (hstep : Step ops sites s e s') {cls : Nat} {c : SQClass K V}
    (hc : s'.heap.classes cls = some c) :
    s.heap.classes cls = some c ∨ (∃ d, s.heap.classes cls = some d ∧ ClassChange ops cls d e c) ∨
      NewClass ops s cls c := by
  have horigin : ∀ {a b d}, s.heap.classes a = some b → ClassChange ops a b e d →
      (s.setClass a (some d)).heap.classes cls = some c → s.heap.classes cls = some c ∨
        (∃ d, s.heap.classes cls = some d ∧ ClassChange ops cls d e c) ∨ NewClass ops s cls c := by
    intro a b d hb hchange hd
    rcases origin_setClass hb hchange hd with hold | hold
    · exact Or.inl hold
    · exact Or.inr (Or.inl hold)
  cases hstep with
  | createClass hfresh =>
    rcases classes_setClass hc with ⟨rfl, rfl⟩ | ⟨-, hold⟩
    · exact Or.inr (Or.inr ⟨hfresh, Or.inl rfl⟩)
    · exact Or.inl hold
  | createDerived hfresh hb hlocked =>
    rcases classes_setClass hc with ⟨rfl, rfl⟩ | ⟨-, hold⟩
    · exact Or.inr (Or.inr ⟨hfresh, Or.inr ⟨_, _, hb, rfl⟩⟩)
    · exact Or.inl hold
  | newSlot hb => exact horigin hb (.newSlot _ _ _) hc
  | registerNativeField hb => exact horigin hb (.registerNativeField _ _) hc
  | setClassUdSize hb hopen => exact horigin hb (.setClassUdSize _ hopen) hc
  | setMethodByHandle hb => exact horigin hb (.setMethodByHandle _ _) hc
  | setDefaultByHandle hb => exact horigin hb (.setDefaultByHandle _ _) hc
  | lock hb => exact horigin hb .lock hc
  | @destroyClass a hfree =>
    left
    cases Decidable.em (cls = a) with
    | inl heq =>
      rw [heq, classes_setClass_self] at hc
      cases hc
    | inr hne => rwa [classes_setClass_of_ne hne] at hc
  | setLiteral hkind hi hd hset =>
    left
    split at hc
    · exact hc
    · exact hc
  | createInstance | storeInstance | destroyInstance | getLiteral | accessTable => exact Or.inl hc

omit [DecidableEq K] in
theorem instances_setInstance {inst a : Nat} {i j : SQInstance V D}
    (h : (s.setInstance inst (some j)).heap.instances a = some i) :
    (a = inst ∧ i = j) ∨ (a ≠ inst ∧ s.heap.instances a = some i) := by
  simp only [State.setInstance, Function.update_apply] at h
  split at h
  · rename_i ha
    exact Or.inl ⟨ha, (Option.some.inj h).symm⟩
  · rename_i ha
    exact Or.inr ⟨ha, h⟩

/-- A live instance has kept its class in the step and has as many values as before, or was made of
a locked class. -/
theorem Step.instance_origin (hstep : Step ops sites s e s') {inst : Nat} {i : SQInstance V D}
    (hi : s'.heap.instances inst = some i) :
    (∃ j, s.heap.instances inst = some j ∧ j.cls = i.cls ∧ j.values.length = i.values.length) ∨
      ∃ c, s'.heap.classes i.cls = some c ∧ c.isLocked = true ∧
        i.values.length = c.defaultvalues.length := by
  cases hstep with
  | createInstance hfresh hc hlocked =>
    rcases instances_setInstance hi with ⟨-, rfl⟩ | ⟨-, hold⟩
    · exact Or.inr ⟨_, hc, hlocked, rfl⟩
    · exact Or.inl ⟨i, hold, rfl, rfl⟩
  | storeInstance hj hlen =>
    rcases instances_setInstance hi with ⟨rfl, rfl⟩ | ⟨-, hold⟩
    · exact Or.inl ⟨_, hj, rfl, hlen.symm⟩
    · exact Or.inl ⟨i, hold, rfl, rfl⟩
  | @destroyInstance a =>
    simp only [State.setInstance, Function.update_apply] at hi
    split at hi
    · cases hi
    · exact Or.inl ⟨i, hi, rfl, rfl⟩
  | @setLiteral site from_ val j c outcome hint hkind hj hc hset =>
    cases outcome with
    | stored j' =>
      rcases @instances_setInstance _ _ _ s _ _ _ _ hi with ⟨rfl, rfl⟩ | ⟨-, hold⟩
      · obtain ⟨hcls, -, hlen⟩ := stored_block (by rw [hset])
        exact Or.inl ⟨j, hj, hcls.symm, hlen.symm⟩
      · exact Or.inl ⟨i, hold, rfl, rfl⟩
    | typeMismatch | immutable | fallBackSet => exact Or.inl ⟨i, hi, rfl, rfl⟩
  | createClass | createDerived | newSlot | registerNativeField | setClassUdSize
    | setMethodByHandle | setDefaultByHandle | lock | destroyClass | getLiteral | accessTable =>
    exact Or.inl ⟨i, hi, rfl, rfl⟩

omit [DecidableEq K] in
theorem live_setInstance {inst a : Nat} {i j k : SQInstance V D} (ha : s.heap.instances a = some k)
    (hcls : j.cls = k.cls) (hi : s.heap.instances inst = some i) :
    ∃ i', (s.setInstance a (some j)).heap.instances inst = some i' ∧ i'.cls = i.cls := by
  simp only [State.setInstance, Function.update_apply]
  split
  · rename_i heq
    subst heq
    obtain rfl : i = k := Option.some.inj (hi.symm.trans ha)
    exact ⟨j, rfl, hcls⟩
  · exact ⟨i, hi, rfl⟩

/-- A live instance that is not destroyed keeps its class. -/
theorem Step.live_instance (hstep : Step ops sites s e s') {inst : Nat} {i : SQInstance V D}
    (hi : s.heap.instances inst = some i) (hlive : e.destroyedInstance ≠ some inst) :
    ∃ i', s'.heap.instances inst = some i' ∧ i'.cls = i.cls := by
  cases hstep with
  | @createInstance a cls c ud hfresh hc hlocked =>
    have hne : inst ≠ a := by
      rintro rfl
      rw [hfresh] at hi
      cases hi
    refine ⟨i, ?_, rfl⟩
    simpa [State.setInstance, Function.update_of_ne hne] using hi
  | storeInstance hj hlen => exact live_setInstance hj rfl hi
  | @destroyInstance a =>
    have hne : inst ≠ a := fun heq => hlive (congrArg some heq.symm)
    refine ⟨i, ?_, rfl⟩
    simpa [State.setInstance, Function.update_of_ne hne] using hi
  | @setLiteral site from_ val j c outcome hint hkind hj hc hset =>
    cases outcome with
    | stored j' => exact live_setInstance hj (stored_block (by rw [hset])).1 hi
    | typeMismatch | immutable | fallBackSet => exact ⟨i, hi, rfl⟩
  | createClass | createDerived | newSlot | registerNativeField | setClassUdSize
    | setMethodByHandle | setDefaultByHandle | lock | destroyClass | getLiteral | accessTable =>
    exact ⟨i, hi, rfl⟩

/-! ## The invariant -/

/-- What every run of the script keeps. -/
structure ClassesHold (s : State K V D) : Prop where
  wellFormed : ∀ cls c, s.heap.classes cls = some c → c.WellFormed
  addr : ∀ cls c, s.heap.classes cls = some c → 256 ≤ cls ∧ cls < 2 ^ 48
  live : ∀ inst i, s.heap.instances inst = some i →
    ∃ c, s.heap.classes i.cls = some c ∧ c.isLocked = true

/-- Before the first step there is no class. -/
theorem classesHold_initial : ClassesHold (State.initial : State K V D) := by
  constructor <;> intros <;> contradiction

/-- Every change keeps the class well formed. -/
theorem ClassChange.wellFormed {cls : Nat} {c c' : SQClass K V} (h : c.WellFormed)
    (hchange : ClassChange ops cls c e c') : c'.WellFormed := by
  cases hchange with
  | newSlot key val bstatic => exact h.newSlot ops key val bstatic
  | registerNativeField key desc => exact h.registerNativeField key desc
  | setClassUdSize udsize hopen => exact h.withUdSize udsize
  | setMethodByHandle pos val =>
    refine ⟨h.stored, h.fields, h.fields_le, ?_, h.nativefields_le⟩
    rw [List.length_set]
    exact h.methods_le
  | setDefaultByHandle pos val =>
    refine ⟨h.stored, ?_, ?_, h.methods_le, h.nativefields_le⟩
    · rw [List.length_set]
      exact h.fields
    · rw [List.length_set]
      exact h.fields_le
  | lock => exact h.withLockedTypeId _

/-- No operation unlocks a class. -/
theorem ClassChange.isLocked {cls : Nat} {c c' : SQClass K V} (haddr : 256 ≤ cls ∧ cls < 2 ^ 48)
    (hlocked : c.isLocked = true) (hchange : ClassChange ops cls c e c') :
    c'.isLocked = true := by
  cases hchange with
  | newSlot key val bstatic =>
    rw [isLocked_iff, (sameLayout_newSlot ops c key val bstatic).lockedTypeId]
    exact isLocked_iff.1 hlocked
  | registerNativeField key desc =>
    rw [registerNativeField_of_locked hlocked]
    exact hlocked
  | lock => exact isLocked_currentHint c haddr
  | setClassUdSize | setMethodByHandle | setDefaultByHandle => exact hlocked

/-- A live locked class that is not destroyed stays locked. -/
theorem ClassesHold.live_locked (h : ClassesHold s) (hstep : Step ops sites s e s') {cls : Nat}
    {c : SQClass K V} (hc : s.heap.classes cls = some c) (hlocked : c.isLocked = true)
    (hlive : e.destroyed ≠ some cls) :
    ∃ c', s'.heap.classes cls = some c' ∧ c'.isLocked = true := by
  rcases hstep.live_class hc hlive with hsame | ⟨c', hc', hchange⟩
  · exact ⟨c, hsame, hlocked⟩
  · exact ⟨c', hc', hchange.isLocked (h.addr cls c hc) hlocked⟩

/-- Every step keeps the classes well formed. -/
theorem ClassesHold.step (h : ClassesHold s) (hstep : Step ops sites s e s') :
    ClassesHold s' := by
  constructor
  case wellFormed =>
    intro cls c hc
    rcases hstep.class_origin hc with hold | ⟨d, hd, hchange⟩ | ⟨-, rfl | ⟨base, b, hb, rfl⟩⟩
    · exact h.wellFormed cls c hold
    · exact hchange.wellFormed (h.wellFormed cls d hd)
    · exact wellFormed_create_none ops
    · exact (h.wellFormed base b hb).create ops base
  case addr =>
    intro cls c hc
    rcases hstep.class_origin hc with hold | ⟨d, hd, -⟩ | ⟨hfresh, -⟩
    · exact h.addr cls c hold
    · exact h.addr cls d hd
    · exact ⟨hfresh.1, hfresh.2.1⟩
  case live =>
    intro inst i hi
    rcases hstep.instance_origin hi with ⟨j, hj, hcls, -⟩ | ⟨c, hc, hlocked, -⟩
    · obtain ⟨c, hc, hlocked⟩ := h.live inst j hj
      rw [hcls] at hc
      apply h.live_locked hstep hc hlocked
      -- The class of a live instance is not destroyed.
      intro hdestroyed
      exact (hstep.unreferenced hdestroyed).1 inst j hj hcls
    · exact ⟨c, hc, hlocked⟩

/-! ## The fields of a locked class -/

theorem SQClass.SameFields.refl (c : SQClass K V) : c.SameFields c :=
  ⟨fun _ _ _ => Iff.rfl, rfl, rfl⟩

theorem SQClass.SameFields.trans {a b c : SQClass K V} (h : a.SameFields b)
    (h' : b.SameFields c) : a.SameFields c :=
  ⟨fun key idx hidx => (h'.slots key idx hidx).trans (h.slots key idx hidx),
    h'.defaultvalues.trans h.defaultvalues, h'.nativefields.trans h.nativefields⟩

/-- A slot that replaces no field of a locked class leaves the default values. -/
theorem defaultvalues_newSlot_of_locked {c : SQClass K V} (hlocked : c.isLocked = true) {key : K}
    {val : V} {bstatic : Bool}
    (hfield : belongsToStaticTable ops val bstatic = true → ¬ c.ReplacesField key) :
    (c.newSlot ops key val bstatic).1.defaultvalues = c.defaultvalues := by
  simp only [SQClass.newSlot, hlocked, Bool.true_and]
  split
  · rfl
  · rename_i hstatic
    have hstatic : belongsToStaticTable ops val bstatic = true := by simpa using hstatic
    have hmember : ∀ temp,
        (c.newMember ops key val bstatic temp).1.defaultvalues = c.defaultvalues := by
      intro temp
      simp only [SQClass.newMember, hstatic, if_true]
      split
      · rfl
      · cases metaMethodSlot ops key val <;> cases temp <;> rfl
    cases hidx : c.members.lookup key with
    | none => exact hmember none
    | some idx =>
      simp only
      split
      · rename_i hisfield
        exact absurd ⟨idx, hidx, hisfield⟩ (hfield hstatic)
      · split
        · rfl
        · exact hmember (some idx)

/-- Nor does any slot move a field of a locked class or add one. -/
theorem slots_newSlot_of_locked {c : SQClass K V} (h : c.WellFormed) (hlocked : c.isLocked = true)
    (key : K) (val : V) (bstatic : Bool) {k : K} {idx : Nat}
    (hidx : (isField idx || isNativeField idx) = true) :
    (c.newSlot ops key val bstatic).1.members.lookup k = some idx ↔
      c.members.lookup k = some idx := by
  cases Decidable.em (k = key → k ∈ c.members) with
  | inl hk => rw [lookup_newSlot_of_locked ops hlocked key val bstatic k hk]
  | inr hk =>
    obtain ⟨rfl, habsent⟩ := Classical.not_imp.1 hk
    rw [Finmap.lookup_eq_none.2 habsent]
    constructor
    · intro hnew
      rw [lookup_newSlot_self_of_locked ops h hlocked habsent val bstatic hnew] at hidx
      cases hidx
    · rintro ⟨⟩

/-- A new slot of a locked class keeps the fields, when it belongs to the statics. -/
theorem sameFields_newSlot {c : SQClass K V} (h : c.WellFormed) (hlocked : c.isLocked = true)
    {key : K} {val : V} {bstatic : Bool}
    (hfield : belongsToStaticTable ops val bstatic = true → ¬ c.ReplacesField key) :
    c.SameFields (c.newSlot ops key val bstatic).1 :=
  ⟨fun _ _ hidx => slots_newSlot_of_locked h hlocked key val bstatic hidx,
    defaultvalues_newSlot_of_locked hlocked hfield,
    (sameLayout_newSlot ops c key val bstatic).nativefields⟩

/-- A slot that sets no metamethod leaves them. -/
theorem metamethods_newSlot {c : SQClass K V} {key : K} {val : V} {bstatic : Bool}
    (hmm : belongsToStaticTable ops val bstatic = true → ¬ c.SetsMetamethod ops key val) :
    (c.newSlot ops key val bstatic).1.metamethods = c.metamethods := by
  have hmember : (∀ idx, c.members.lookup key = some idx → isNativeField idx = false) → ∀ temp,
      (c.newMember ops key val bstatic temp).1.metamethods = c.metamethods := by
    intro hnative temp
    simp only [SQClass.newMember]
    split
    · rfl
    · rename_i hroom
      split
      · rename_i hstatic
        cases hslot : metaMethodSlot ops key val with
        | none => cases temp <;> rfl
        | some mmidx => exact absurd ⟨⟨mmidx, hslot⟩, Nat.lt_of_not_le hroom, hnative⟩ (hmm hstatic)
      · rfl
  simp only [SQClass.newSlot]
  split
  · rfl
  · cases hidx : c.members.lookup key with
    | none => exact hmember (by rw [hidx]; rintro idx ⟨⟩) none
    | some idx =>
      simp only
      split
      · rfl
      · split
        · rfl
        · rename_i hnative
          apply hmember
          rw [hidx]
          rintro j ⟨⟩
          simpa using hnative

/-! ## Steps of the machine -/

variable {m m' n : LockState K V D} {le : LockEvent K V D} {es : List (LockEvent K V D)}

theorem CallMetamethod.state {call : LockCall K V} {calls : List (LockCall K V × LockStage)}
    (h : CallMetamethod ops m call calls m') (sites : Nat → Site K) :
    m'.state = m.state ∨ Step ops sites m.state (.lock call.cls) m'.state := by
  cases h with
  | none hc hmm => exact Or.inr (.lock hc)
  | some hc hmm => exact Or.inl rfl

/-- A step leaves the state of the script, or is one event of it: its own, or that a class is
locked. -/
theorem LockStep.state (h : LockStep ops sites m le m') :
    m'.state = m.state ∨ ∃ e, Step ops sites m.state e m'.state ∧
      (le = .script e ∨ ∃ cls, e = .lock cls) := by
  have hcall : ∀ {call calls}, CallMetamethod ops m call calls m' →
      m'.state = m.state ∨ ∃ e, Step ops sites m.state e m'.state ∧
        (le = .script e ∨ ∃ cls, e = .lock cls) := by
    intro call calls hcall
    rcases hcall.state sites with hsame | hstep
    · exact Or.inl hsame
    · exact Or.inr ⟨_, hstep, Or.inr ⟨_, rfl⟩⟩
  cases h with
  | @script e s hctl hlock hused hstep => exact Or.inr ⟨e, hstep, Or.inl rfl⟩
  | enterRoot hctl hc hlocked hbase hmm => exact hcall hmm
  | baseLocked hctl hcalls hmm => exact hcall hmm
  | endMetamethod hctl hcalls hc => exact Or.inr ⟨_, .lock hc, Or.inr ⟨_, rfl⟩⟩
  | lock | enterLocked | enterDerived | baseFailed | toScript => exact Or.inl rfl

/-- The runs of the machine are runs of the script, in which a call of `Lock` is one event. -/
theorem runOf_of_steps {P : LockState K V D → LockEvent K V D → Prop}
    (hrun : Steps (LockStep ops sites) P m es n) (hm : RunOf ops sites (fun _ _ => True) m.state) :
    RunOf ops sites (fun _ _ => True) n.state := by
  apply hrun.invariant (I := fun m => RunOf ops sites (fun _ _ => True) m.state) _ hm
  intro m e m' hm he hstep
  rcases hstep.state with hsame | ⟨e, hs, -⟩
  · rwa [hsame]
  · exact hm.step trivial hs

/-- In every run the classes are well formed. -/
theorem RunOf.classesHold {P : State K V D → Event K V D → Prop} (hrun : RunOf ops sites P s) :
    ClassesHold s := by
  induction hrun with
  | initial => exact classesHold_initial
  | step _ he hstep ih => exact ih.step hstep

/-- What a careful event does to a locked class leaves its fields. -/
theorem sameFields_of_careful {cls : Nat} {c c' : SQClass K V} (hwf : c.WellFormed)
    (hlocked : c.isLocked = true) (hc : m.state.heap.classes cls = some c)
    (hcareful : Careful ops m (.script e)) (hchange : ClassChange ops cls c e c') :
    c.SameFields c' := by
  cases hchange with
  | newSlot key val bstatic =>
    apply sameFields_newSlot hwf hlocked
    intro hstatic
    exact (hcareful c hc hlocked hstatic).1
  | registerNativeField key desc =>
    rw [registerNativeField_of_locked hlocked]
    exact .refl c
  | setDefaultByHandle pos val =>
    have hopen := hcareful rfl c hc
    rw [hlocked] at hopen
    cases hopen
  | setClassUdSize | setMethodByHandle | lock => exact ⟨fun _ _ _ => Iff.rfl, rfl, rfl⟩

/-- And its metamethods, if it has an instance. -/
theorem metamethods_of_careful {cls inst : Nat} {c c' : SQClass K V} {i : SQInstance V D}
    (hlocked : c.isLocked = true) (hc : m.state.heap.classes cls = some c)
    (hi : m.state.heap.instances inst = some i) (hcls : i.cls = cls)
    (hcareful : Careful ops m (.script e)) (hchange : ClassChange ops cls c e c') :
    c'.metamethods = c.metamethods := by
  cases hchange with
  | newSlot key val bstatic =>
    apply metamethods_newSlot
    intro hstatic
    exact (hcareful c hc hlocked hstatic).2 ⟨inst, i, hi, hcls⟩
  | registerNativeField key desc => rw [registerNativeField_of_locked hlocked]
  | setClassUdSize | setMethodByHandle | setDefaultByHandle | lock => rfl

theorem KeepsLocked.refl (hm : ClassesHold m.state) : KeepsLocked m [] m where
  fields cls c hc hlocked _ := ⟨c, hc, hlocked, .refl c⟩
  metamethods inst i hi _ := by
    obtain ⟨c, hc, -⟩ := hm.live inst i hi
    exact ⟨i, c, c, hi, rfl, hc, hc, rfl⟩

/-- A careful step keeps the locked classes. -/
theorem KeepsLocked.of_step (hm : ClassesHold m.state) (hcareful : Careful ops m le)
    (hstep : LockStep ops sites m le m') : KeepsLocked m [le] m' := by
  rcases hstep.state with hsame | ⟨e, hs, hevent⟩
  · constructor
    · intro cls c hc hlocked _
      exact ⟨c, by rw [hsame, hc], hlocked, .refl c⟩
    · intro inst i hi _
      obtain ⟨c, hc, -⟩ := hm.live inst i hi
      exact ⟨i, c, c, by rw [hsame, hi], rfl, hc, by rw [hsame, hc], rfl⟩
  · -- To lock a class is careful too.
    have hcareful : Careful ops m (.script e) := by
      rcases hevent with rfl | ⟨cls, rfl⟩
      · exact hcareful
      · trivial
    have hlive : ∀ cls, (∀ e' ∈ [le], e'.destroyed ≠ some cls) → e.destroyed ≠ some cls := by
      intro cls hle
      rcases hevent with rfl | ⟨a, rfl⟩
      · exact hle _ List.mem_cons_self
      · rintro ⟨⟩
    have hinst : ∀ inst, (∀ e' ∈ [le], e'.destroyedInstance ≠ some inst) →
        e.destroyedInstance ≠ some inst := by
      intro inst hle
      rcases hevent with rfl | ⟨a, rfl⟩
      · exact hle _ List.mem_cons_self
      · rintro ⟨⟩
    constructor
    · intro cls c hc hlocked hle
      rcases hs.live_class hc (hlive cls hle) with hsame | ⟨c', hc', hchange⟩
      · exact ⟨c, hsame, hlocked, .refl c⟩
      · exact ⟨c', hc', hchange.isLocked (hm.addr cls c hc) hlocked,
          sameFields_of_careful (hm.wellFormed cls c hc) hlocked hc hcareful hchange⟩
    · intro inst i hi hle
      obtain ⟨i', hi', hcls⟩ := hs.live_instance hi (hinst inst hle)
      obtain ⟨c, hc, hlocked⟩ := hm.live inst i hi
      have hkept : e.destroyed ≠ some i.cls := fun hdestroyed =>
        (hs.unreferenced hdestroyed).1 inst i hi rfl
      rcases hs.live_class hc hkept with hsame | ⟨c', hc', hchange⟩
      · exact ⟨i', c, c, hi', hcls, hc, hsame, rfl⟩
      · exact ⟨i', c, c', hi', hcls, hc, hc',
          metamethods_of_careful hlocked hc hi rfl hcareful hchange⟩

theorem KeepsLocked.trans {e : LockEvent K V D} (h : KeepsLocked m [e] m')
    (h' : KeepsLocked m' es n) : KeepsLocked m (e :: es) n where
  fields cls c hc hlocked hlive := by
    obtain ⟨c', hc', hlocked', hsame⟩ := h.fields cls c hc hlocked
      (List.forall_mem_singleton.2 (hlive e List.mem_cons_self))
    obtain ⟨d, hd, hlockedd, hsame'⟩ := h'.fields cls c' hc' hlocked'
      fun e' he' => hlive e' (List.mem_cons_of_mem e he')
    exact ⟨d, hd, hlockedd, hsame.trans hsame'⟩
  metamethods inst i hi hlive := by
    obtain ⟨j, c, c', hj, hcls, hc, hc', hmm⟩ := h.metamethods inst i hi
      (List.forall_mem_singleton.2 (hlive e List.mem_cons_self))
    obtain ⟨k, d, d', hk, hcls', hd, hd', hmm'⟩ := h'.metamethods inst j hj
      fun e' he' => hlive e' (List.mem_cons_of_mem e he')
    rw [hcls] at hd hd'
    obtain rfl : c' = d := Option.some.inj (hc'.symm.trans hd)
    exact ⟨k, c, d', hk, hcls'.trans hcls, hc, hd', hmm'.trans hmm⟩

/-- No call of `Lock` returns without success. -/
def NoFailure (m : LockState K V D) : Prop := ∀ call, m.control ≠ .returned call false

/-- A careful step makes no call of `Lock` fail. -/
theorem NoFailure.step (hm : NoFailure m) (hcareful : Careful ops m le)
    (hstep : LockStep ops sites m le m') : NoFailure m' := by
  have hcall : ∀ {call calls}, CallMetamethod ops m call calls m' → NoFailure m' := by
    intro call calls hcall
    cases hcall with
    | none hc hmm => rintro call' ⟨⟩
    | some hc hmm => rintro call' ⟨⟩
  cases hstep with
  | script => exact hm
  | enterRoot hctl hc hlocked hbase hmm => exact hcall hmm
  | baseLocked hctl hcalls hmm => exact hcall hmm
  | baseFailed hctl hcalls => exact absurd hctl (hm _)
  | @endMetamethod call calls c success hctl hcalls hc =>
    rintro call' hend
    obtain rfl : success = true := hcareful
    cases hend
  | lock | enterLocked | enterDerived | toScript => rintro call' ⟨⟩

/-! ## Runs -/

/-- A careful run makes no call of `Lock` fail. -/
theorem NoFailure.steps (hm : NoFailure m) (hrun : Steps (LockStep ops sites) (Careful ops) m es n) :
    NoFailure n :=
  hrun.invariant (fun _ _ _ hm hcareful hstep => hm.step hcareful hstep) hm

/-- A careful run keeps locked classes, step by step. -/
theorem KeepsLocked.of_steps (hrun : Steps (LockStep ops sites) (Careful ops) m es n)
    (hm : RunOf ops sites (fun _ _ => True) m.state) : KeepsLocked m es n := by
  induction hrun with
  | nil m => exact .refl hm.classesHold
  | @cons m m' n e es hcareful hstep hrun ih =>
    have hm' : RunOf ops sites (fun _ _ => True) m'.state :=
      runOf_of_steps (P := fun _ _ => True) (.cons trivial hstep (.nil m')) hm
    exact (KeepsLocked.of_step hm.classesHold hcareful hstep).trans (ih hm')

/-- **A locked class is fixed**, in every careful run: from any state of it on, the locked classes
keep their fields with the default values, and the instances keep their metamethods; and a call of
`Lock` that returns without success has changed nothing. -/
theorem careful_keeps_locked (ops : ObjectOps K V D) (sites : Nat → Site K)
    {m n : LockState K V D} {es₀ es : List (LockEvent K V D)}
    (hreach : Steps (LockStep ops sites) (Careful ops) .initial es₀ m)
    (hrun : Steps (LockStep ops sites) (Careful ops) m es n) :
    KeepsLocked m es n ∧ FailedLockUndone n := by
  have hm : RunOf ops sites (fun _ _ => True) m.state := runOf_of_steps hreach .initial
  have hinitial : NoFailure (.initial : LockState K V D) := by rintro call ⟨⟩
  refine ⟨.of_steps hrun hm, ?_⟩
  intro call hfailed
  exact absurd hfailed ((hinitial.steps hreach).steps hrun call)

/-- A metamethod `_lock` that fails always breaks the last of it: the class is locked. -/
theorem endMetamethod_not_undone {es₀ : List (LockEvent K V D)}
    (hreach : Steps (LockStep ops sites) (fun _ _ => True) .initial es₀ m)
    (hstep : LockStep ops sites m (.endMetamethod false) n) : ¬ FailedLockUndone n := by
  intro hundone
  have hm : RunOf ops sites (fun _ _ => True) m.state := runOf_of_steps hreach .initial
  cases hstep with
  | @endMetamethod call calls c success hctl hcalls hc =>
    obtain ⟨hopen, hbefore⟩ := hundone call rfl
    have hlocked := isLocked_currentHint c (hm.classesHold.addr _ c hc)
    rw [LockState.finish, classes_setClass_self] at hbefore
    rw [Option.some.inj hbefore, hopen] at hlocked
    cases hlocked

/-! ## A default value that is replaced -/

/-- A class at 4096 with a field 7. -/
def pointClass : SQClass Nat Nat := (emptyClass.newSlot numberOps 7 1 false).1

/-- The class `pointClass`, locked. -/
def lockedPoint : SQClass Nat Nat := { pointClass with lockedTypeId := currentHint 4096 }

/-- The state with `pointClass` before it is locked. -/
def openState : State Nat Nat Unit :=
  (State.initial.setClass 4096 (some emptyClass)).setClass 4096 (some pointClass)

/-- The state with `pointClass` locked. -/
def pointState : LockState Nat Nat Unit :=
  ⟨openState.setClass 4096 (some lockedPoint), [], .script⟩

/-- A class gets a field and is locked. -/
def pointEvents : List (LockEvent Nat Nat Unit) :=
  [.script (.createClass 4096 none), .script (.newSlot 4096 7 1 false), .lock 4096, .proceed,
    .proceed]

theorem pointState_run : Steps (LockStep numberOps loadSeven) (Careful numberOps) .initial
    pointEvents pointState := by
  have hfresh : FreshAddr (State.initial : State Nat Nat Unit) 4096 :=
    ⟨by decide, by decide, fun cls c hc => by cases hc⟩
  refine .cons trivial (.script rfl id (by rintro cls ⟨⟩) (.createClass hfresh)) ?_
  refine .cons ?_ (.script rfl id (by rintro cls ⟨⟩) (.newSlot rfl)) ?_
  · rintro c ⟨⟩ hlocked
    cases hlocked
  refine .cons trivial (.lock rfl) ?_
  refine .cons trivial (.enterRoot rfl rfl rfl rfl (.none rfl rfl)) ?_
  refine .cons trivial (.toScript rfl ?_) (.nil _)
  rintro f ⟨⟩

/-- The state after a static slot with the value 5 on the locked class. -/
def slotState (key val : Nat) : LockState Nat Nat Unit :=
  { pointState with
    state := pointState.state.setClass 4096 (some (lockedPoint.newSlot numberOps key val true).1) }

/-- A static slot in the locked class. -/
theorem careful_keeps_locked_point : KeepsLocked pointState
    [.script (.newSlot 4096 8 100 true)] (slotState 8 100) ∧ FailedLockUndone (slotState 8 100) := by
  apply careful_keeps_locked numberOps loadSeven pointState_run
  refine .cons ?_ (.script rfl id (by rintro cls ⟨⟩) (.newSlot rfl)) (.nil _)
  rintro c ⟨⟩ hlocked hstatic
  constructor
  · rintro ⟨idx, hidx, -⟩
    cases hidx
  · rintro - ⟨⟨mmidx, hmm⟩, -⟩
    cases hmm

/-- A function stored in a field of the locked class. -/
theorem static_slot_not_keeps_locked :
    Steps (LockStep numberOps loadSeven) (Careful numberOps) .initial pointEvents pointState ∧
      Steps (LockStep numberOps loadSeven) (fun _ _ => True) pointState
        [.script (.newSlot 4096 7 5 true)] (slotState 7 5) ∧
      ¬ KeepsLocked pointState [.script (.newSlot 4096 7 5 true)] (slotState 7 5) := by
  refine ⟨pointState_run, ?_, ?_⟩
  · exact .cons trivial (.script rfl id (by rintro cls ⟨⟩) (.newSlot rfl)) (.nil _)
  · intro h
    have hlive : ∀ e ∈ [LockEvent.script (.newSlot 4096 7 5 true : Event Nat Nat Unit)],
        e.destroyed ≠ some 4096 := by
      simp [LockEvent.destroyed, Event.destroyed]
    obtain ⟨c', hc', -, hsame⟩ := h.fields 4096 lockedPoint rfl rfl hlive
    cases hc'
    have hdefault : (lockedPoint.newSlot numberOps 7 5 true).1.defaultvalues = [1] :=
      hsame.defaultvalues
    have hreplaced : (lockedPoint.newSlot numberOps 7 5 true).1.defaultvalues = [5] := rfl
    rw [hreplaced] at hdefault
    cases hdefault

end Quirrel.Class
