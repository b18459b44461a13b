import Mathlib.Data.List.Basic

/-!
# Delegates

A table or a userdata may have a table as its delegate. `SetDelegate` refuses what would close a cycle,
and it finds out by following the delegates; so does every access to a slot that the object itself does
not have. `fuel` bounds how many delegates are followed, and no result means that it did not suffice.

A metamethod is a script, which may change every object; what its call does is a parameter, and so is
what a weak reference reads in a state. Whether an object may be written is a flag of the reference to it
that a program holds. The reference that an access makes for a delegate has no flags.
-/

set_option autoImplicit false

namespace Quirrel.Delegation

variable {K V : Type} [DecidableEq K]

/-- `SQDelegable`, by the index of the object that is its `_delegate`. -/
inductive SQDelegable (K V : Type) where
  | table (slots : K → Option V) (delegate : Option Nat)
  | userdata (delegate : Option Nat)

namespace SQDelegable

/-- `_delegate` -/
def delegate : SQDelegable K V → Option Nat
  | table _ d | userdata d => d

/-- The store to `_delegate`. -/
def withDelegate (d : Option Nat) : SQDelegable K V → SQDelegable K V
  | table slots _ => table slots d
  | userdata _ => userdata d

/-- `OT_TABLE`, not `OT_USERDATA` -/
def isTable : SQDelegable K V → Bool
  | table _ _ => true
  | userdata _ => false

/-- What is stored in a slot. A userdata has no slots. -/
def own : SQDelegable K V → K → Option V
  | table slots _, key => slots key
  | userdata _, _ => none

end SQDelegable

/-- The objects, by index. -/
abbrev Heap (K V : Type) : Type := List (SQDelegable K V)

namespace Heap

/-- The delegate of object `o`. -/
def delegate (h : Heap K V) (o : Nat) : Option Nat := h[o]?.bind SQDelegable.delegate

/-- What object `o` stores in a slot. -/
def own (h : Heap K V) (o : Nat) (key : K) : Option V := h[o]?.bind (·.own key)

/-- Whether object `o` is a table. -/
def isTable (h : Heap K V) (o : Nat) : Bool := h[o]?.any SQDelegable.isTable

end Heap

/-! ## `SetDelegate` -/

/-- The loop of `SQDelegable::SetDelegate` from `temp` on. -/
def cycleFree (h : Heap K V) (self : Nat) : Nat → Option Nat → Option Bool
  | 0, _ => none
  | _ + 1, none => some true
  | fuel + 1, some temp =>
    if h.delegate temp = some self then some false
    else cycleFree h self fuel (h.delegate temp)

/-- `SQDelegable::SetDelegate` -/
def setDelegate (fuel : Nat) (h : Heap K V) (self : Nat) (mt : Option Nat) :
    Option (Bool × Heap K V) :=
  if mt = some self then some (false, h)
  else do
    if ← cycleFree h self fuel mt then some (true, h.modify self (·.withDelegate mt))
    else some (false, h)

/-- How `sq_setdelegate` ends. -/
inductive Status where
  | ok
  | delegateCycle
  | invalidType
  deriving DecidableEq

/-- `sq_setdelegate`. Of a userdata the result of `SetDelegate` is not looked at. -/
def sqSetDelegate (fuel : Nat) (h : Heap K V) (self : Nat) (mt : Option Nat) :
    Option (Status × Heap K V) :=
  if mt.all h.isTable then do
    let (set, h') ← setDelegate fuel h self mt
    return (if set || mt.isNone || !h.isTable self then .ok else .delegateCycle, h')
  else some (.invalidType, h)

/-! ## Access to slots -/

/-- A reference to an object, with `SQOBJ_FLAG_IMMUTABLE` of its flags. -/
structure SQObjectPtr where
  object : Nat
  immutable : Bool

/-- `SQObjectPtr(_delegate)` -/
def SQObjectPtr.ofDelegate (d : Nat) : SQObjectPtr := ⟨d, false⟩

/-- How the call of a metamethod ends. A script fails cleanly with a null as its error. -/
inductive Called (V : Type) where
  | returned (val : V)
  | cleanFailure
  | error

/-- `SLOT_STATUS_OK`, `SLOT_STATUS_NO_MATCH` and `SLOT_STATUS_ERROR` -/
inductive Access (V : Type) where
  | found (val : V)
  | noMatch
  | error

/-- The result of `Set`. -/
def Access.isFound : Access V → Bool
  | found _ => true
  | noMatch | error => false

/-- The names of the metamethods, what the builtin classes of the two types have, `_realval` of a value
in a state, the value with `SQOBJ_FLAG_IMMUTABLE`, and what the calls of metamethods do. -/
structure Builtins (K V : Type) where
  metaGet : K
  metaSet : K
  tableMethods : K → Option V
  userdataMethods : K → Option V
  realval : Heap K V → V → V
  freeze : V → V
  call : (closure : V) → (self : SQObjectPtr) → K → Option V → Heap K V → Called V × Heap K V

section Access

variable (b : Builtins K V)

/-- `SQTable::Get`, which reads through a weak reference. -/
def get (h : Heap K V) (o : Nat) (key : K) : Option V := (h.own o key).map (b.realval h)

/-- `propagate_immutable`, where something was found. -/
def propagateImmutable (self : SQObjectPtr) : Access V → Access V
  | .found val => .found (if self.immutable then b.freeze val else val)
  | ended => ended

/-- `InvokeTypeMethod` -/
def invokeTypeMethod (isTable : Bool) (key : K) : Access V :=
  match if isTable then b.tableMethods key else b.userdataMethods key with
  | some method => .found method
  | none => .noMatch

/-- `GetMetaMethod` -/
def getMetaMethod (h : Heap K V) (self : Nat) (name : K) : Option V :=
  (h.delegate self).bind fun d => get b h d name

/-- The metamethod `name` of `self`, and the call of it; `val` is there for `_set` only. -/
def callMetaMethod (name key : K) (val : Option V) (self : SQObjectPtr) (h : Heap K V) :
    Access V × Heap K V :=
  match getMetaMethod b h self.object name with
  | none => (.noMatch, h)
  | some closure =>
    match b.call closure self key val h with
    | (.returned res, h') => (.found res, h')
    | (.cleanFailure, h') => (.noMatch, h')
    | (.error, h') => (.error, h')

/-- `FallBackGet` of a table or a userdata; `get` is what it calls for the delegate. -/
def fallBackGet (key : K) (get : SQObjectPtr → Heap K V → Option (Access V × Heap K V))
    (self : SQObjectPtr) (h : Heap K V) : Option (Access V × Heap K V) :=
  match h.delegate self.object with
  | none => some (.noMatch, h)
  | some d => do
    match ← get (.ofDelegate d) h with
    | (.found val, h') => return (.found val, h')
    -- an error of the metamethod of the delegate is not looked at
    | (_, h') => return callMetaMethod b b.metaGet key none self h'

/-- `GetImpl` of a table or a userdata, with no `getflags`. -/
def getImpl (key : K) : Nat → SQObjectPtr → Heap K V → Option (Access V × Heap K V)
  | 0, _, _ => none
  | fuel + 1, self, h =>
    match get b h self.object key with
    | some val => some (propagateImmutable b self (.found val), h)
    | none => do
      match ← fallBackGet b key (getImpl key fuel) self h with
      | (.noMatch, h') =>
        return (propagateImmutable b self (invokeTypeMethod b (h.isTable self.object) key), h')
      | (ended, h') => return (propagateImmutable b self ended, h')

/-- The store of `SQTable::Set` to a slot that is there, and of `SQTable::NewSlot` to any slot. -/
def setOwn (h : Heap K V) (o : Nat) (key : K) (val : V) : Heap K V :=
  h.modify o fun
    | .table slots d => .table (fun k => if k = key then some val else slots k) d
    | .userdata d => .userdata d

/-- `FallBackSet` of a table or a userdata; `set` is what it calls for the delegate. -/
def fallBackSet (key : K) (val : V) (set : SQObjectPtr → Heap K V → Option (Bool × Heap K V))
    (self : SQObjectPtr) (h : Heap K V) : Option (Access V × Heap K V) :=
  -- only a table goes on to the slots of its delegate
  let delegated :=
    match h.isTable self.object, h.delegate self.object with
    | true, some d => set (.ofDelegate d) h
    | _, _ => some (false, h)
  delegated.map fun (done, h') =>
    if done then (.found val, h') else callMetaMethod b b.metaSet key (some val) self h'

/-- `Set` of a table or a userdata. -/
def set (key : K) (val : V) : Nat → SQObjectPtr → Heap K V → Option (Bool × Heap K V)
  | 0, _, _ => none
  | fuel + 1, self, h =>
    -- "trying to modify immutable"
    if self.immutable then some (false, h)
    else if (h.own self.object key).isSome then some (true, setOwn h self.object key val)
    else (fallBackSet b key val (set key val fuel) self h).map fun (access, h') => (access.isFound, h')

end Access

/-! ## Runs -/

/-- What a program does to its tables and userdata. -/
inductive Op (K V : Type) where
  | newTable
  | newUserData
  | setDelegate (self : Nat) (mt : Option Nat)
  | clone (self : Nat)
  | newSlot (self : Nat) (key : K) (val : V)
  | remove (self : Nat) (key : K)

/-- `SQTable::Clone`; the result of `SetDelegate` is not looked at. -/
def clone (h : Heap K V) (slots : K → Option V) (d : Option Nat) : Option (Heap K V) :=
  (setDelegate (h.length + 2) (h ++ [.table slots none]) h.length d).map Prod.snd

/-- `SQTable::Remove` -/
def remove (h : Heap K V) (o : Nat) (key : K) : Heap K V :=
  h.modify o fun
    | .table slots d => .table (fun k => if k = key then none else slots k) d
    | .userdata d => .userdata d

/-- One operation. -/
def step (h : Heap K V) : Op K V → Option (Heap K V)
  | .newTable => some (h ++ [.table (fun _ => none) none])
  | .newUserData => some (h ++ [.userdata none])
  | .setDelegate self mt => (sqSetDelegate (h.length + 1) h self mt).map Prod.snd
  | .clone self =>
    match h[self]? with
    | some (.table slots d) => clone h slots d
    | _ => some h
  | .newSlot self key val => some (setOwn h self key val)
  | .remove self key => some (remove h self key)

end Quirrel.Delegation
