import Quirrel.Lib.Marking

set_option autoImplicit false

/-!
# Collectable objects

The objects of the garbage collector with the fields that hold references: what each `Mark` follows
(`markChildren`), what each object refers to (`references`), and what `Finalize` leaves of it.
-/

namespace Quirrel.Gc

open Marking

/-- An `SQObject` by what `MarkObject` does with it: `plain` stands for null, numbers, strings and the
like, and a weak reference is not followed. -/
inductive SQObject where
  | plain
  | weakref (a : Nat)
  | collectable (a : Nat)

/-- The collectable that an object refers to. -/
def SQObject.target : SQObject → List Nat
  | .collectable a => [a]
  | _ => []

/-- The collectables that objects refer to. -/
def targets (objects : List SQObject) : List Nat :=
  objects.flatMap SQObject.target

/-- A thread. `callsstack` holds the `_closure` of each call, and `openouters` the list of its open
outers. -/
structure SQVM where
  lasterror : SQObject
  errorhandler : SQObject
  debughookClosure : SQObject
  roottable : SQObject
  tempReg : SQObject
  stack : List SQObject
  callsstack : List SQObject
  openouters : List Nat

/-- Pointers that `Finalize` sets to null are options. The `valptr` of an open outer is a thread and a
slot of its stack. -/
inductive SQCollectable where
  | thread (vm : SQVM)
  | array (values : List SQObject)
  | table (delegate : Option Nat) (nodes : List (SQObject × SQObject))
  | class (members base : Option Nat) (defaultvalues methods metamethods : List SQObject)
  | instance (cls : Option Nat) (values : List SQObject)
  | generator (stack : List SQObject) (closure : SQObject)
  | funcproto (literals functions staticmemos : List SQObject)
  | closure (base : Option Nat) (function : Nat) (outervalues defaultparams : List SQObject)
  | nativeclosure (outervalues : List SQObject)
  | outer (valptr : Option (Nat × Nat)) (value : SQObject)
  | userdata (delegate : Option Nat)

/-- The roots of `RunMark`. `builtinClasses` are `_null_class` to `_userdata_class`. -/
structure SQSharedState where
  objects : List SQCollectable
  gcChain : List Nat
  rootVm : Nat
  refsTable : List SQObject
  registry : SQObject
  consts : SQObject
  metamethodsmap : SQObject
  builtinClasses : List SQObject
  docObjects : SQObject

namespace SQSharedState

variable (s : SQSharedState)

/-- The number of `_defaultvalues` of a class. -/
def nvalues (cls : Nat) : Nat :=
  match s.objects[cls]? with
  | some (.class _ _ defaultvalues _ _) => defaultvalues.length
  | _ => 0

/-- The memoized values of a function prototype. -/
def staticmemos (function : Nat) : List SQObject :=
  match s.objects[function]? with
  | some (.funcproto _ _ staticmemos) => staticmemos
  | _ => []

/-- The value in a slot of a thread's stack. -/
def slotValue (thread i : Nat) : SQObject :=
  match s.objects[thread]? with
  | some (.thread vm) => vm.stack[i]?.getD .plain
  | _ => .plain

/-- What the `Mark` of an object goes on to mark, in its order. -/
def markObject : SQCollectable → List Nat
  | .thread vm =>
    targets [vm.lasterror, vm.errorhandler, vm.debughookClosure, vm.roottable, vm.tempReg] ++
      targets vm.stack ++ targets vm.callsstack
  | .array values => targets values
  | .table delegate nodes =>
    delegate.toList ++ nodes.flatMap fun node => targets [node.1, node.2]
  | .class members base defaultvalues methods metamethods =>
    members.toList ++ base.toList ++ targets defaultvalues ++ targets methods ++
      targets metamethods
  | .instance cls values =>
    cls.toList ++ targets (values.take (cls.elim 0 s.nvalues))
  | .generator stack closure => targets stack ++ targets [closure]
  | .funcproto literals functions _ => targets literals ++ targets functions
  | .closure base function outervalues defaultparams =>
    base.toList ++ [function] ++ targets outervalues ++ targets defaultparams ++
      targets (s.staticmemos function)
  | .nativeclosure outervalues => targets outervalues
  -- If the valptr points to a closed value, that value is alive.
  | .outer none value => targets [value]
  | .outer (some _) _ => []
  | .userdata delegate => delegate.toList

/-- What an object refers to: its fields, and for an open outer the value in the slot. -/
def referencesOf : SQCollectable → List Nat
  | .thread vm => s.markObject (.thread vm) ++ vm.openouters
  | .instance cls values => cls.toList ++ targets values
  | .funcproto literals functions staticmemos =>
    targets literals ++ targets functions ++ targets staticmemos
  | .closure base function outervalues defaultparams =>
    base.toList ++ [function] ++ targets outervalues ++ targets defaultparams
  | .outer (some (thread, i)) _ => targets [s.slotValue thread i]
  | o => s.markObject o

/-- What the mark function of an object marks. -/
def markChildren (a : Nat) : List Nat :=
  (s.objects[a]?.elim [] s.markObject)

/-- What an object refers to. -/
def references (a : Nat) : List Nat :=
  (s.objects[a]?.elim [] s.referencesOf)

/-- What `SQSharedState::RunMark` starts from. -/
def roots : List Nat :=
  [s.rootVm] ++ targets s.refsTable ++ targets [s.registry, s.consts, s.metamethodsmap] ++
    targets s.builtinClasses ++ targets [s.docObjects]

/-! ## Finalize -/

end SQSharedState

/-- `Finalize` of an object that is not a thread. -/
def SQCollectable.finalize : SQCollectable → SQCollectable
  | .thread vm => .thread vm
  | .array _ => .array []
  | .table _ _ => .table none []
  | .class _ _ defaultvalues _ metamethods =>
    .class none none (defaultvalues.map fun _ => .plain) [] (metamethods.map fun _ => .plain)
  | .instance _ values => .instance none (values.map fun _ => .plain)
  | .generator _ _ => .generator [] .plain
  | .funcproto literals functions staticmemos =>
    .funcproto (literals.map fun _ => .plain) functions (staticmemos.map fun _ => .plain)
  | .closure base function outervalues defaultparams =>
    .closure base function (outervalues.map fun _ => .plain) (defaultparams.map fun _ => .plain)
  | .nativeclosure outervalues => .nativeclosure (outervalues.map fun _ => .plain)
  | .outer valptr _ => .outer valptr .plain
  | .userdata _ => .userdata none

/-- `CloseOuters` on one outer of the thread at `thread`. -/
def SQCollectable.closed (thread : Nat) (stack : List SQObject) : SQCollectable → SQCollectable
  | .outer (some (t, i)) value =>
    if t = thread then .outer none (stack[i]?.getD .plain) else .outer (some (t, i)) value
  | o => o

/-- A thread without its references; its open outers have been closed. -/
def SQVM.finalize (vm : SQVM) : SQVM where
  lasterror := .plain
  errorhandler := .plain
  debughookClosure := .plain
  roottable := .plain
  tempReg := .plain
  stack := vm.stack.map fun _ => .plain
  callsstack := []
  openouters := []

/-- `t->Finalize()` on the objects. -/
def finalizeAt (objects : List SQCollectable) (a : Nat) : List SQCollectable :=
  match objects[a]? with
  | some (.thread vm) =>
    (vm.openouters.foldl (fun os o => os.modify o (.closed a vm.stack)) objects).set a
      (.thread vm.finalize)
  | some _ => objects.modify a SQCollectable.finalize
  | none => objects

/-! ## CollectGarbage -/

namespace SQSharedState

variable (s : SQSharedState)

/-- `RunMark` -/
def runMark : Option (Marks Nat) :=
  markAll s.markChildren (s.objects.length + 1) ⟨[], s.gcChain, []⟩ s.roots

/-- The objects after `CollectGarbage`, and which were finalized. -/
structure Collection where
  objects : List SQCollectable
  gcChain : List Nat
  finalized : List Nat

/-- What marking left on `_gc_chain` is finalized, in the order of the chain; the marked objects are
the chain from then on. -/
def collectGarbage : Option Collection :=
  s.runMark.map fun m => ⟨m.chain.foldl finalizeAt s.objects, m.kept, m.chain⟩

end SQSharedState

end Quirrel.Gc
