import Mathlib.Algebra.Group.Int.Defs
import Mathlib.Algebra.GroupWithZero.Nat
import Mathlib.Data.List.Basic

/-!
# Reference counting

`SQObjectPtr` counts the references to an object in the object. When the count comes to zero the object is
released: its own references are released one after the other, which may release further objects, then its
weak reference is made null and its memory is given back. A computation has no result when it touches an
object whose memory has been given back, and when `fuel` runs out in a release.
-/

set_option autoImplicit false

namespace Quirrel.RefCount

/-- A value, or a counted reference to the object at an address. -/
inductive SQObjectPtr where
  | null
  | scalar (n : Int)
  | ref (o : Nat)
  deriving DecidableEq

/-- What an object consists of: references, or for a `SQWeakRef` the object that it refers to. -/
inductive Contents where
  | fields (vals : List SQObjectPtr)
  | weakRef (obj : Option Nat)

/-- The values that the object holds references through. -/
def Contents.vals : Contents → List SQObjectPtr
  | fields vals => vals
  | weakRef _ => []

/-- `_obj` of a `SQWeakRef`. -/
def Contents.obj : Contents → Option Nat
  | fields _ => none
  | weakRef obj => obj

/-- `SQRefCounted` with what the derived class holds. -/
structure SQRefCounted where
  uiRef : Nat
  weakref : Option Nat
  contents : Contents

/-- The objects by address; nothing where the memory has been given back. -/
abbrev Heap : Type := List (Option SQRefCounted)

namespace Heap

/-- The object at an address, unless it is freed. -/
def get (h : Heap) (o : Nat) : Option SQRefCounted := h[o]?.join

/-- The object is replaced by a new state of it. -/
def put (h : Heap) (o : Nat) (x : SQRefCounted) : Heap := h.set o (some x)

/-- The memory goes. -/
def free (h : Heap) (o : Nat) : Heap := h.set o none

end Heap

/-! ## Counting -/

/-- `__AddRef` -/
def addRef (h : Heap) : SQObjectPtr → Option Heap
  | .ref o => (h.get o).map fun x => h.put o { x with uiRef := x.uiRef + 1 }
  | _ => some h

/-- What is left to do in a release: a reference to release, or the destructor of an object whose references
have been released. -/
inductive Task where
  | release (v : SQObjectPtr)
  | delete (o : Nat)

/-- `~SQRefCounted`, and the memory given back. -/
def delete (h : Heap) (o : Nat) : Option Heap := do
  let x ← h.get o
  match x.weakref with
  | none => return h.free o
  | some w =>
    let y ← h.get w
    return (h.put w { y with contents := .weakRef none }).free o

/-- The beginning of `Release` of an object, and the references that its destructor releases. -/
def beginRelease (h : Heap) (o : Nat) (x : SQRefCounted) : Option (Heap × List SQObjectPtr) :=
  match x.contents with
  | .fields vals => some (h.put o { x with uiRef := 0, contents := .fields [] }, vals)
  | .weakRef none => some (h.put o { x with uiRef := 0, contents := .weakRef none }, [])
  | .weakRef (some t) => do
    let h := h.put o { x with uiRef := 0, contents := .weakRef none }
    let y ← h.get t
    return (h.put t { y with weakref := none }, [])

/-- `__Release`, where a call of `Release` puts what it has to do before what is left. -/
def work : Nat → Heap → List Task → Option Heap
  | _, h, [] => some h
  | 0, _, _ :: _ => none
  | fuel + 1, h, .release (.ref o) :: tasks => do
    let x ← h.get o
    match x.uiRef with
    | 0 => none
    | 1 =>
      let (h, vals) ← beginRelease h o x
      work fuel h (vals.map .release ++ .delete o :: tasks)
    | n + 2 => work fuel (h.put o { x with uiRef := n + 1 }) tasks
  | fuel + 1, h, .release _ :: tasks => work fuel h tasks
  | fuel + 1, h, .delete o :: tasks => do work fuel (← delete h o) tasks

/-- What a release has to do for an object whose count may come to zero. -/
def SQRefCounted.weight (x : SQRefCounted) : Nat :=
  if x.uiRef = 0 then 0 else x.contents.vals.length + 1

/-- Enough for every release. -/
def Heap.size (h : Heap) : Nat := (h.map fun x => x.elim 0 SQRefCounted.weight).sum

/-- `__Release` with everything that follows from it. -/
def release (h : Heap) (v : SQObjectPtr) : Option Heap := work (h.size + 1) h [.release v]

/-! ## Assignments -/

/-- The heap and the references to it from outside. -/
structure State where
  heap : Heap
  /-- The references on the stack and in the host. -/
  slots : List SQObjectPtr

/-- Where a reference is: in a slot, or in the object that a slot refers to. -/
inductive Place where
  | slot (i : Nat)
  | field (i k : Nat)

namespace State

variable (s : State)

/-- The value in a place. -/
def read : Place → Option SQObjectPtr
  | .slot i => s.slots[i]?
  | .field i k => do
    match ← s.slots[i]? with
    | .ref o => do
      match (← s.heap.get o).contents with
      | .fields vals => vals[k]?
      | .weakRef _ => none
    | _ => none

/-- A value put into a place, without counting. -/
def write (v : SQObjectPtr) : Place → Option State
  | .slot i => some { s with slots := s.slots.set i v }
  | .field i k => do
    match ← s.slots[i]? with
    | .ref o => do
      let x ← s.heap.get o
      match x.contents with
      | .fields vals => some { s with heap := s.heap.put o { x with contents := .fields (vals.set k v) } }
      | .weakRef _ => none
    | _ => none

/-- `operator=(const SQObjectPtr &)`: the new reference is counted before the old one is released. -/
def assign (dst : Place) (v : SQObjectPtr) : Option State := do
  let old ← s.read dst
  let s ← s.write v dst
  let h ← addRef s.heap v
  return { s with heap := ← release h old }

/-- `operator=(_class x)` for a number, and `operator=(bool)`: the old reference is released while it is
still there. -/
def assignScalar (dst : Place) (n : Int) : Option State := do
  let old ← s.read dst
  State.write { s with heap := ← release s.heap old } (.scalar n) dst

/-- `operator=(SQObjectPtr &&)` between two slots. Of two other places the source could be gone when it is
read: the old reference is released before. -/
def move (dst src : Nat) : Option State := do
  if dst = src then return s
  let old ← s.slots[dst]?
  let v ← s.slots[src]?
  return { heap := ← release s.heap old, slots := (s.slots.set dst v).set src .null }

/-- `_Swap` -/
def swap (p q : Place) : Option State := do
  let a ← s.read p
  let b ← s.read q
  match p, q with
  -- the place in the object is written first, while the slots still lead to it
  | .slot _, .field _ _ => (← s.write a q).write b p
  | _, _ => (← s.write b p).write a q

/-- A new object, with nothing in it and without references to it. -/
def alloc (contents : Contents) : State × Nat :=
  ({ s with heap := s.heap ++ [some ⟨0, none, contents⟩] }, s.heap.length)

/-- `GetWeakRef` -/
def getWeakRef (o : Nat) : Option (State × Nat) := do
  let x ← s.heap.get o
  match x.weakref with
  | some w => return (s, w)
  | none =>
    let (s', w) := s.alloc (.weakRef (some o))
    return ({ s' with heap := s'.heap.put o { x with weakref := some w } }, w)

/-- `_realval` -/
def realval (v : SQObjectPtr) : Option SQObjectPtr :=
  match v with
  | .ref w => do
    match (← s.heap.get w).contents with
    | .weakRef none => some .null
    | .weakRef (some o) => some (.ref o)
    | .fields _ => some v
  | _ => some v

end State

/-! ## Runs -/

/-- What a program can do with references. -/
inductive Op where
  /-- A slot comes to be, holding nothing. -/
  | push
  /-- The last slot goes: `~SQObjectPtr`. -/
  | pop
  | copy (dst src : Place)
  | move (dst src : Nat)
  | swap (p q : Place)
  | setScalar (dst : Place) (n : Int)
  | setNull (dst : Place)
  | newObject (dst : Place) (n : Nat)
  | weakref (dst src : Place)
  | deref (dst src : Place)

/-- The places and the kinds of values that an operation asks for. -/
def State.allows (s : State) : Op → Bool
  | .push => true
  | .pop => !s.slots.isEmpty
  | .copy p q | .deref p q | .swap p q => (s.read p).isSome && (s.read q).isSome
  | .move i j => decide (i < s.slots.length) && decide (j < s.slots.length)
  | .setScalar dst _ | .setNull dst | .newObject dst _ => (s.read dst).isSome
  | .weakref dst src =>
    (s.read dst).isSome && (s.read src).any fun v => match v with | .ref _ => true | _ => false

/-- One operation. -/
def step (s : State) : Op → Option State
  | .push => some { s with slots := s.slots ++ [.null] }
  | .pop => do
    let old ← s.slots.getLast?
    return { heap := ← release s.heap old, slots := s.slots.dropLast }
  | .copy dst src => do s.assign dst (← s.read src)
  | .move dst src => s.move dst src
  | .swap p q => s.swap p q
  | .setScalar dst n => s.assignScalar dst n
  | .setNull dst => s.assign dst .null
  | .newObject dst n =>
    let (s', o) := s.alloc (.fields (List.replicate n .null))
    s'.assign dst (.ref o)
  | .weakref dst src => do
    match ← s.read src with
    | .ref o => do
      let (s', w) ← s.getWeakRef o
      s'.assign dst (.ref w)
    | _ => none
  | .deref dst src => do s.assign dst (← s.realval (← s.read src))

end Quirrel.RefCount
