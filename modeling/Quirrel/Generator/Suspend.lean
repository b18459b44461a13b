import Quirrel.Generator.Outers

set_option autoImplicit false

/-!
# Frames that are suspended

The part of the VM that captured locals depend on: the stack, the outers and the registers that
suspended generators keep. `Op` lists what an instruction does to it. `Calls` is the call stack; it
says at which slots the instructions of the running function work.
-/

namespace Quirrel.Generator

variable {V : Type}

/-- `saved g` is `_stack` of the generator `g`. `outervalues` lists, in the order of the captures,
the outers that closures were given. -/
structure SQVM (V : Type) where
  stack : Nat → V
  outers : Nat → SQOuter V
  nouters : Nat
  openouters : List Nat
  outervalues : List Nat
  saved : Nat → Nat → V

/-- Where a value is kept. -/
inductive Place where
  | slot (i : Nat)
  | cell (o : Nat)
  | saved (g r : Nat)
  deriving DecidableEq

namespace SQVM

/-- What an outer's `_valptr` points at. -/
def place (vm : SQVM V) (o : Nat) : Place :=
  match (vm.outers o).valptr with
  | some i => .slot i
  | none => .cell o

/-- An open outer is at its register. -/
theorem place_eq_slot {vm : SQVM V} {o i : Nat} :
    vm.place o = .slot i ↔ (vm.outers o).valptr = some i := by
  unfold place
  cases (vm.outers o).valptr with
  | none => simp
  | some j => simp

/-- A closed outer is its own cell. -/
theorem place_eq_cell {vm : SQVM V} {o p : Nat} :
    vm.place o = .cell p ↔ (vm.outers o).valptr = none ∧ o = p := by
  unfold place
  cases (vm.outers o).valptr with
  | none => simp
  | some j => simp

/-- No outer is at a saved value. -/
theorem place_ne_saved {vm : SQVM V} {o g r : Nat} : vm.place o ≠ .saved g r := by
  unfold place
  cases (vm.outers o).valptr with
  | none => simp
  | some j => simp

theorem place_congr {vm vm' : SQVM V} {o : Nat}
    (h : (vm'.outers o).valptr = (vm.outers o).valptr) : vm'.place o = vm.place o := by
  unfold place
  rw [h]

/-- The value in a place. -/
def held (vm : SQVM V) : Place → V
  | .slot i => vm.stack i
  | .cell o => (vm.outers o).value
  | .saved g r => vm.saved g r

/-- A value goes into a place. -/
def put (vm : SQVM V) (p : Place) (v : V) : SQVM V :=
  match p with
  | .slot i => { vm with stack := Function.update vm.stack i v }
  | .cell o => { vm with outers := Function.update vm.outers o { vm.outers o with value := v } }
  | .saved g r => { vm with saved := Function.update vm.saved g (Function.update (vm.saved g) r v) }

/-- After a write the place holds the value, and no other changes. -/
theorem held_put {vm : SQVM V} {p : Place} {v : V} :
    (vm.put p v).held = Function.update vm.held p v := by
  funext q
  by_cases hq : q = p
  · subst hq
    rw [Function.update_self]
    cases q <;> simp [put, held]
  · rw [Function.update_of_ne hq]
    cases p <;> cases q <;> simp only [put, held]
    case slot.slot i j => exact Function.update_of_ne (fun h => hq (congrArg _ h)) _ _
    case cell.cell o o' =>
      rw [Function.update_of_ne fun h => hq (congrArg _ h)]
    case saved.saved g r g' r' =>
      by_cases hg : g' = g
      · subst hg
        rw [Function.update_self]
        exact Function.update_of_ne (fun h => hq (congrArg _ h)) _ _
      · rw [Function.update_of_ne hg]

/-- A write moves no outer. -/
theorem valptr_put {vm : SQVM V} {p : Place} {v : V} (o : Nat) :
    ((vm.put p v).outers o).valptr = (vm.outers o).valptr := by
  cases p with
  | slot i => rfl
  | saved g r => rfl
  | cell o' =>
    by_cases ho : o = o'
    · subst ho
      simp only [put, Function.update_self]
    · simp only [put, Function.update_of_ne ho]

/-- `CloseOuters` -/
def closeOuters (vm : SQVM V) (stackindex : Nat) : SQVM V :=
  let (outers, openouters) := closeOutersIn vm.stack stackindex vm.outers vm.openouters
  { vm with outers, openouters }

@[simp] theorem stack_closeOuters (vm : SQVM V) (i : Nat) : (vm.closeOuters i).stack = vm.stack :=
  rfl

@[simp] theorem saved_closeOuters (vm : SQVM V) (i : Nat) : (vm.closeOuters i).saved = vm.saved :=
  rfl

@[simp] theorem outervalues_closeOuters (vm : SQVM V) (i : Nat) :
    (vm.closeOuters i).outervalues = vm.outervalues :=
  rfl

@[simp] theorem nouters_closeOuters (vm : SQVM V) (i : Nat) :
    (vm.closeOuters i).nouters = vm.nouters :=
  rfl

section Close

variable {vm : SQVM V} (h : OpenList vm.outers vm.nouters vm.openouters)
include h

/-- Each outer is closed by itself. -/
theorem outers_closeOuters (i o : Nat) :
    (vm.closeOuters i).outers o = (vm.outers o).closed vm.stack i :=
  h.closeOutersIn o

/-- The outers below stay open. -/
theorem valptr_closeOuters {i o j : Nat} :
    ((vm.closeOuters i).outers o).valptr = some j ↔ (vm.outers o).valptr = some j ∧ j < i := by
  rw [outers_closeOuters h, SQOuter.valptr_closed]

/-- An outer keeps its value when it is closed. -/
theorem held_place_closeOuters (i o : Nat) :
    (vm.closeOuters i).held ((vm.closeOuters i).place o) = vm.held (vm.place o) := by
  have ho := outers_closeOuters h i o
  cases hv : (vm.outers o).valptr with
  | none =>
    rw [SQOuter.closed_of_none hv] at ho
    simp only [place, ho, hv, held]
  | some j =>
    by_cases hj : i ≤ j
    · rw [SQOuter.closed_of_le hv hj] at ho
      simp only [place, ho, hv, held]
    · rw [SQOuter.closed_of_lt hv (Nat.lt_of_not_le hj)] at ho
      simp only [place, ho, hv, held, stack_closeOuters]

end Close

variable [Inhabited V]

/-- The outer of a slot, created if there is none. -/
def findOuter (vm : SQVM V) (stackindex : Nat) : Nat × SQVM V :=
  let (o, openouters) := findOuterIn vm.outers vm.nouters stackindex vm.openouters
  if o = vm.nouters then
    (o, { vm with
      outers := Function.update vm.outers o ⟨some stackindex, default⟩
      nouters := vm.nouters + 1
      openouters := openouters })
  else (o, vm)

/-- `_OP_CLOSURE` gives its closure the outer of a local. -/
def capture (vm : SQVM V) (stackindex : Nat) : SQVM V :=
  let (o, vm) := vm.findOuter stackindex
  { vm with outervalues := vm.outervalues ++ [o] }

/-- `_OP_SETOUTER` in a closure that was given its outer by the capture `k`. -/
def setOuter (vm : SQVM V) (k : Nat) (v : V) : SQVM V :=
  match vm.outervalues[k]? with
  | some o => vm.put (vm.place o) v
  | none => vm

/-- `_OP_YIELD` closes the outers of the frame; `SQGenerator::Yield` then keeps the registers below
`target` and clears the frame. -/
def yield (vm : SQVM V) (g base size target : Nat) : SQVM V :=
  let vm := vm.closeOuters base
  { vm with
    saved := Function.update vm.saved g fun r =>
      if r < target then vm.stack (base + r) else default
    stack := fun i => if base ≤ i ∧ i < base + size then default else vm.stack i }

/-- `SQGenerator::Resume` copies the registers back at a new base. `self` is what the weak
reference kept for `this` gives. -/
def resume (vm : SQVM V) (g base size : Nat) (self : V) : SQVM V :=
  { vm with
    stack := fun i =>
      if i = base then self
      else if base < i ∧ i < base + size then vm.saved g (i - base)
      else vm.stack i
    saved := Function.update vm.saved g fun r => if 0 < r ∧ r < size then default else vm.saved g r }

end SQVM

section Capture

variable [Inhabited V] {vm : SQVM V} {stackindex : Nat}

/-- A register that is captured again gets the outer that it has. -/
theorem SQVM.capture_of_open {p : Nat} (hp : p ≠ vm.nouters)
    (hfind : findOuterIn vm.outers vm.nouters stackindex vm.openouters = (p, vm.openouters)) :
    vm.capture stackindex = { vm with outervalues := vm.outervalues ++ [p] } := by
  simp only [capture, findOuter, hfind, if_neg hp]

/-- A register that is captured first gets a new outer. -/
theorem SQVM.capture_of_fresh {list : List Nat}
    (hfind : findOuterIn vm.outers vm.nouters stackindex vm.openouters = (vm.nouters, list)) :
    vm.capture stackindex =
      { vm with
        outers := Function.update vm.outers vm.nouters ⟨some stackindex, default⟩
        nouters := vm.nouters + 1
        openouters := list
        outervalues := vm.outervalues ++ [vm.nouters] } := by
  simp only [capture, findOuter, hfind, if_pos]

/-- `vm'` is `vm` after a capture that gave the closure the outer `o` of the slot. -/
structure Captures (vm vm' : SQVM V) (stackindex o : Nat) : Prop where
  outervalues : vm'.outervalues = vm.outervalues ++ [o]
  valptr : (vm'.outers o).valptr = some stackindex
  openList : OpenList vm'.outers vm'.nouters vm'.openouters
  others : ∀ p < vm.nouters, vm'.outers p = vm.outers p
  created : o < vm'.nouters
  nouters : vm.nouters ≤ vm'.nouters
  stack : vm'.stack = vm.stack
  saved : vm'.saved = vm.saved
  -- An outer that was there before was open at the slot.
  known : o < vm.nouters → (vm.outers o).valptr = some stackindex

/-- A capture finds an outer for the register or makes one. -/
theorem SQVM.captures (h : OpenList vm.outers vm.nouters vm.openouters) :
    ∃ o, Captures vm (vm.capture stackindex) stackindex o := by
  rcases @findOuterIn_cases _ vm.outers vm.nouters stackindex _ h.sorted h.isOpen with
    ⟨p, hp, hslot, hfind⟩ | ⟨above, below, hlist, ha, hb, hfind⟩
  · have hlt := h.bound p hp
    rw [capture_of_open (Nat.ne_of_lt hlt) hfind]
    exact ⟨p, rfl, hslot, h, fun _ _ => rfl, hlt, Nat.le_refl _, rfl, rfl, fun _ => hslot⟩
  · rw [capture_of_fresh hfind]
    rw [hlist] at h
    refine ⟨vm.nouters, rfl, ?_, h.insert ha hb, ?_, Nat.lt_succ_self _, Nat.le_succ _, rfl, rfl, ?_⟩
    · simp only [Function.update_self]
    · intro p hp
      exact Function.update_of_ne (Nat.ne_of_lt hp) _ _
    · exact fun hlt => absurd hlt (Nat.lt_irrefl _)

end Capture

/-- What an instruction does to the stack, the outers and the generators; slots are counted from
the bottom of the stack. -/
inductive Op (V : Type) where
  | write (i : Nat) (v : V)
  | capture (i : Nat)
  | setOuter (k : Nat) (v : V)
  | close (i : Nat)
  | enter (base : Nat)
  | yield (g base size target : Nat)
  | resume (g base size : Nat) (self : V)

/-- Entering a function changes neither the stack nor the outers: the arguments are its first
registers. -/
def SQVM.apply [Inhabited V] (vm : SQVM V) : Op V → SQVM V
  | .write i v => vm.put (.slot i) v
  | .capture i => vm.capture i
  | .setOuter k v => vm.setOuter k v
  | .close i => vm.closeOuters i
  | .enter _ => vm
  | .yield g base size target => vm.yield g base size target
  | .resume g base size self => vm.resume g base size self

/-! ## The call stack -/

/-- A frame: its base, the number of its registers, and its `_generator`. -/
structure SQCallInfo where
  stackbase : Nat
  size : Nat
  generator : Option Nat

/-- The end of the frame. -/
def SQCallInfo.top (ci : SQCallInfo) : Nat :=
  ci.stackbase + ci.size

/-- `_state` of a generator; a suspended one has the size of its `_stack`. -/
inductive SQGeneratorState where
  | running
  | suspended (size : Nat)
  | dead
  deriving DecidableEq

/-- The running function, its callers, and the generators made so far. -/
structure Calls where
  ci : SQCallInfo
  callers : List SQCallInfo
  generators : Nat → Option SQGeneratorState

/-- The state of a generator changes. -/
def Calls.setGenerator (c : Calls) (g : Nat) (state : SQGeneratorState) : Calls :=
  { c with generators := Function.update c.generators g (some state) }

theorem Calls.setGenerator_self (c : Calls) (g : Nat) (state : SQGeneratorState) :
    (c.setGenerator g state).generators g = some state :=
  Function.update_self g _ c.generators

theorem Calls.setGenerator_of_ne (c : Calls) {g g' : Nat} (h : g' ≠ g)
    (state : SQGeneratorState) : (c.setGenerator g state).generators g' = c.generators g' :=
  Function.update_of_ne h _ c.generators

/-- `SQGenerator::Kill`, where the frame that is left is a generator's. -/
def Calls.kill (c : Calls) : Calls :=
  match c.ci.generator with
  | some g => c.setGenerator g .dead
  | none => c

/-- A step of the running function. The compiler counts registers as it counts the locals in scope:
the arguments of a call and the `_stacksize` given to a `yield` lie above the locals in scope, and
a local that is out of scope has been closed. -/
inductive Calls.Next (vm : SQVM V) (c : Calls) : Op V → Calls → Prop where
  | write {r : Nat} {v : V} (hr : r < c.ci.size) : Next vm c (.write (c.ci.stackbase + r) v) c
  | capture {r : Nat} (hr : r < c.ci.size) : Next vm c (.capture (c.ci.stackbase + r)) c
  | setOuter {k : Nat} {v : V} (hk : k < vm.outervalues.length) : Next vm c (.setOuter k v) c
  | close {r : Nat} : Next vm c (.close (c.ci.stackbase + r)) c
  | call {r size : Nat} (hr : r ≤ c.ci.size)
      (hargs : ∀ o i, (vm.outers o).valptr = some i → i < c.ci.stackbase + r) :
      Next vm c (.enter (c.ci.stackbase + r))
        { c with
          ci := ⟨c.ci.stackbase + r, size, none⟩
          callers := c.ci :: c.callers }
  | tailcall {size : Nat} :
      Next vm c (.close c.ci.stackbase)
        { c with ci := { c.ci with size := max c.ci.size size } }
  -- A return, or a frame that an exception unwinds.
  | leave {f : SQCallInfo} {rest : List SQCallInfo} (hcallers : c.callers = f :: rest) :
      Next vm c (.close c.ci.stackbase) { c.kill with ci := f, callers := rest }
  -- `StartCall` of a generator function: the new generator keeps the whole frame.
  | create {g : Nat} {f : SQCallInfo} {rest : List SQCallInfo} (hcallers : c.callers = f :: rest)
      (hci : c.ci.generator = none) (hg : c.generators g = none) :
      Next vm c (.yield g c.ci.stackbase c.ci.size c.ci.size)
        { c.setGenerator g (.suspended c.ci.size) with ci := f, callers := rest }
  | yield {g target : Nat} {f : SQCallInfo} {rest : List SQCallInfo}
      (hcallers : c.callers = f :: rest) (hci : c.ci.generator = some g)
      (htarget : target ≤ c.ci.size) :
      Next vm c (.yield g c.ci.stackbase c.ci.size target)
        { c.setGenerator g (.suspended c.ci.size) with ci := f, callers := rest }
  | resume {g size : Nat} {self : V} (hg : c.generators g = some (.suspended size)) :
      Next vm c (.resume g c.ci.top size self)
        { c.setGenerator g .running with
          ci := ⟨c.ci.top, size, some g⟩
          callers := c.ci :: c.callers }

end Quirrel.Generator
