import Quirrel.Lib.Chain

/-!
# `RefTable`

The table of the objects that the host holds references to: `sqstate.cpp`. An object is what
`_rawval` and `sq_type` tell apart; a node without one has `none` (`OT_NULL`, which is not counted by
reference, so it is never passed in). A pointer to a node is its place in the node array. A pointer
loop takes at most as many steps as there are nodes; a run that would take more, or that follows a
null pointer, has no result.
-/

set_option autoImplicit false

namespace Quirrel.References

universe u

/-- `RefTable::RefNode` -/
structure RefNode (K : Type u) where
  obj : Option K
  refs : Nat
  next : Option Nat

/-- `RefTable`; the nodes are told apart by their place in the block. -/
structure RefTable (K : Type u) where
  numofslots : Nat
  slotused : Nat
  nodes : Nat → RefNode K
  freelist : Option Nat
  buckets : Nat → Option Nat

namespace RefTable

variable {K : Type u}

/-- `AllocNodes`: the nodes are linked in order into the free list. -/
def allocNodes (size : Nat) : RefTable K where
  numofslots := size
  slotused := 0
  nodes n := ⟨none, 0, if n + 1 < size then some (n + 1) else none⟩
  freelist := some 0
  buckets _ := none

/-- `RefTable::RefTable` -/
def new : RefTable K := allocNodes 4

/-- `ref->next` -/
def nextAt (t : RefTable K) (p : Nat) : Option Nat := (t.nodes p).next

/-- `ref->obj` -/
def objAt (t : RefTable K) (p : Nat) : Option K := (t.nodes p).obj

/-- A node is replaced. -/
def setNode (t : RefTable K) (p : Nat) (n : RefNode K) : RefTable K :=
  { t with nodes := Function.update t.nodes p n }

/-- `ref->refs = refs` -/
def setRefs (t : RefTable K) (p refs : Nat) : RefTable K :=
  t.setNode p { t.nodes p with refs := refs }

variable (hash : K → Nat)

/-- `::HashObj(obj)&(_numofslots-1)` -/
def mainpos (t : RefTable K) (obj : K) : Nat := hash obj &&& (t.numofslots - 1)

/-- `Add`: the first node of the free list goes in front of the chain. -/
def add (t : RefTable K) (mainpos : Nat) (obj : K) : Option (RefTable K × Nat) :=
  match t.freelist with
  | none => none
  | some newnode =>
    let t' := t.setNode newnode
      { t.nodes newnode with obj := some obj, next := t.buckets mainpos }
    some ({ t' with
      buckets := Function.update t.buckets mainpos (some newnode)
      freelist := t.nextAt newnode
      slotused := t.slotused + 1 }, newnode)

/-- The loop of `Resize` adds back what node `n` of the old table holds. -/
def addBack (old t : RefTable K) (n : Nat) : Option (RefTable K) :=
  match old.objAt n with
  | none => some t
  | some obj =>
    (t.add (t.mainpos hash obj) obj).map fun r => r.1.setRefs r.2 (old.nodes n).refs

/-- `Resize` -/
def resize (t : RefTable K) (size : Nat) : Option (RefTable K) :=
  (List.range t.numofslots).foldlM (addBack hash t) (allocNodes size)

variable [DecidableEq K]

/-- The loop of `Get`: the node and the one before it in the chain. -/
def findLoop (t : RefTable K) (obj : K) : Nat → Option Nat → Option Nat →
    Option (Option Nat × Option Nat)
  | _, none, prev => some (none, prev)
  | 0, some _, _ => none
  | fuel + 1, some ref, prev =>
    if t.objAt ref = some obj then some (some ref, prev)
    else findLoop t obj fuel (t.nextAt ref) (some ref)

/-- `Get` without `add`. -/
def find (t : RefTable K) (obj : K) : Option (Option Nat × Option Nat) :=
  t.findLoop obj t.numofslots (t.buckets (t.mainpos hash obj)) none

/-- `Get` with `add`. -/
def getOrAdd (t : RefTable K) (obj : K) : Option (RefTable K × Nat) :=
  match t.find hash obj with
  | none => none
  | some (some ref, _) => some (t, ref)
  | some (none, _) =>
    if t.numofslots = t.slotused then
      (t.resize hash (t.numofslots * 2)).bind fun t' => t'.add (t'.mainpos hash obj) obj
    else
      t.add (t.mainpos hash obj) obj

/-- `AddRef` -/
def addRef (t : RefTable K) (obj : K) : Option (RefTable K) :=
  (t.getOrAdd hash obj).map fun r => r.1.setRefs r.2 ((r.1.nodes r.2).refs + 1)

/-- `GetRefCount` -/
def getRefCount (t : RefTable K) (obj : K) : Option Nat :=
  (t.find hash obj).map fun r =>
    match r.1 with
    | some ref => (t.nodes ref).refs
    | none => 0

/-- The node `ref` of an object is unlinked, behind `prev` or at the head of its chain, and put in
front of the free list. -/
def unlink (t : RefTable K) (mainpos ref : Nat) (prev : Option Nat) : RefTable K :=
  let t' := match prev with
    | some prev => t.setNode prev { t.nodes prev with next := t.nextAt ref }
    | none => { t with buckets := Function.update t.buckets mainpos (t.nextAt ref) }
  let t' := t'.setNode ref ⟨none, 0, t.freelist⟩
  { t' with freelist := some ref, slotused := t.slotused - 1 }

/-- What `Release` found. -/
inductive Released where
  | absent
  | kept
  | removed
  deriving DecidableEq

/-- `Release`; it returns true for `removed` only. -/
def release (t : RefTable K) (obj : K) : Option (RefTable K × Released) :=
  (t.find hash obj).map fun r =>
    match r.1 with
    | some ref =>
      let refs := (t.nodes ref).refs - 1
      if refs = 0 then (t.unlink (t.mainpos hash obj) ref r.2, .removed)
      else (t.setRefs ref refs, .kept)
    | none => (t, .absent)

end RefTable

open RefTable

variable {K : Type u}

/-- A request of the host. -/
inductive RefOp (K : Type u) where
  | addRef (obj : K)
  | release (obj : K)

/-- What a request did. -/
inductive RefEvent (K : Type u) where
  | added (obj : K)
  | released (obj : K) (result : Released)
  deriving DecidableEq

variable (hash : K → Nat) [DecidableEq K]

/-- One operation and what it does to the object. -/
def applyOp (t : RefTable K) : RefOp K → Option (RefTable K × RefEvent K)
  | .addRef obj => (t.addRef hash obj).map fun t' => (t', .added obj)
  | .release obj => (t.release hash obj).map fun r => (r.1, .released obj r.2)

/-- The requests in order, with what they did. -/
def runOps (t : RefTable K) : List (RefOp K) → Option (RefTable K × List (RefEvent K))
  | [] => some (t, [])
  | op :: ops =>
    (applyOp hash t op).bind fun r => (runOps r.1 ops).map fun r' => (r'.1, r.2 :: r'.2)

end Quirrel.References
