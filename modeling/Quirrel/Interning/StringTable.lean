import Quirrel.Lib.Chain

/-!
# `SQStringTable`

The table that keeps one `SQString` object for the bytes of every live string: `sqstring.h` and the
end of `sqstate.cpp`. An object is addressed by a number, a null pointer is `none`, and `heap` holds
the live objects. `_len` is the length of the bytes. The allocator may give any address without a
live object, so an address that was freed may come back. A pointer loop takes at most as many steps
as there are strings; one that takes more does not end, and the model has no result for it, nor for
a pointer to a freed object, nor for the failed assertion of `Remove`.
-/

set_option autoImplicit false

namespace Quirrel.Interning

/-! ## The hash -/

/-- `char`, which is signed, converted to `uint64_t`. -/
def charToUInt64 (c : UInt8) : UInt64 := c.toInt8.toInt64.toUInt64

/-- The loop of `_hashstr_fnv1a_64`; the first argument bounds the number of rounds. -/
def hashLoop (s : List UInt8) (step : Nat) : Nat → Nat → UInt64 → UInt64
  | 0, _, result => result
  | rounds + 1, l, result =>
    if step ≤ l then
      hashLoop s step rounds (l - step)
        ((result ^^^ charToUInt64 (s.getD (l - 1) 0)) * 1099511628211)
    else result

/-- `_hashstr`: of a long string not every byte counts. -/
def hashstr (s : List UInt8) : UInt64 :=
  hashLoop s (s.length / 32 + 1) s.length s.length 14695981039346656037

/-! ## The table -/

/-- `SQString` -/
structure SQString where
  next : Option Nat
  val : List UInt8
  hash : UInt64

/-- `SQStringTable`, with the strings by address. -/
structure SQStringTable where
  strings : Nat → Option Nat
  numofslots : Nat
  slotused : Nat
  heap : Nat → Option SQString

namespace SQStringTable

/-- `hash & (_numofslots - 1)` -/
def slot (t : SQStringTable) (hash : UInt64) : Nat := hash.toNat &&& (t.numofslots - 1)

/-- `s->_next`, a null pointer for an address without an object. -/
def nextAt (t : SQStringTable) (p : Nat) : Option Nat := (t.heap p).bind SQString.next

/-- `p->_next = n` -/
def setNext (t : SQStringTable) (p : Nat) (n : Option Nat) : SQStringTable :=
  { t with heap := Function.update t.heap p ((t.heap p).map fun s => { s with next := n }) }

/-- `_strings[h] = n` -/
def setSlot (t : SQStringTable) (h : Nat) (n : Option Nat) : SQStringTable :=
  { t with strings := Function.update t.strings h n }

/-- `AllocNodes` -/
def allocNodes (t : SQStringTable) (size : Nat) : SQStringTable :=
  { t with strings := fun _ => none, numofslots := size }

/-- `SQStringTable::SQStringTable` -/
def new : SQStringTable :=
  { strings := fun _ => none, numofslots := 4, slotused := 0, heap := fun _ => none }

/-! ## `Add` -/

/-- The loop of `Add` that compares the length and the bytes. -/
def findLoop (t : SQStringTable) (val : List UInt8) : Nat → Option Nat → Option (Option Nat)
  | _, none => some none
  | 0, some _ => none
  | fuel + 1, some s =>
    match t.heap s with
    | none => none
    | some o => if o.val = val then some (some s) else findLoop t val fuel o.next

/-- The lookup of a string by its bytes. -/
def find (t : SQStringTable) (val : List UInt8) : Option (Option Nat) :=
  t.findLoop val t.slotused (t.strings (t.slot (hashstr val)))

/-- The inner loop of `Resize`: every string of a chain goes in front of the chain of its slot. -/
def moveLoop : Nat → Option Nat → SQStringTable → Option SQStringTable
  | _, none, t => some t
  | 0, some _, _ => none
  | fuel + 1, some p, t =>
    match t.heap p with
    | none => none
    | some o =>
      let h := t.slot o.hash
      moveLoop fuel o.next ((t.setNext p (t.strings h)).setSlot h (some p))

/-- `Resize` -/
def resize (t : SQStringTable) (size : Nat) : Option SQStringTable :=
  (List.range t.numofslots).foldlM (fun nt i => moveLoop t.slotused (t.strings i) nt)
    (t.allocNodes size)

/-- The bytes that `Add(news, len)` takes from the memory at `news`; without a length these are the
ones before the first NUL. -/
def bytesOf (news : List UInt8) (len : Int) : List UInt8 :=
  if len < 0 then news.takeWhile (· ≠ 0) else news.take len.toNat

/-- `Add` of a string that is not in the table, as a new object at `addr`. -/
def insertAt (t : SQStringTable) (val : List UInt8) (addr : Nat) : SQStringTable :=
  let h := t.slot (hashstr val)
  { t.setSlot h (some addr) with
    heap := Function.update t.heap addr (some ⟨t.strings h, val, hashstr val⟩)
    slotused := t.slotused + 1 }

/-- `Add(news, len)`, where `addr` is the address that the allocator gives to a new object. -/
def add (t : SQStringTable) (news : List UInt8) (len : Int) (addr : Nat) :
    Option (SQStringTable × Nat) :=
  let val := bytesOf news len
  match t.find val with
  | none => none
  | some (some s) => some (t, s)
  | some none =>
    if (t.heap addr).isSome then none
    else
      let t' := t.insertAt val addr
      -- too crowded?
      if t'.slotused > t'.numofslots then
        (t'.resize (t'.numofslots * 2)).map fun t' => (t', addr)
      else some (t', addr)

/-! ## `Remove` -/

/-- The string `bs` taken out of the chain of slot `h`, where it stands behind `prev` and before
`next`, and freed. -/
def unlink (t : SQStringTable) (bs h : Nat) (prev next : Option Nat) : SQStringTable :=
  let t' := match prev with
    | some prev => t.setNext prev next
    | none => t.setSlot h next
  { t' with slotused := t'.slotused - 1, heap := Function.update t'.heap bs none }

/-- The loop of `Remove`; `prev` is the string before `s` in the chain of slot `h`. -/
def removeLoop (t : SQStringTable) (bs h : Nat) : Nat → Option Nat → Option Nat →
    Option SQStringTable
  | _, _, none => none
  | 0, _, some _ => none
  | fuel + 1, prev, some s =>
    match t.heap s with
    | none => none
    | some o =>
      if s = bs then some (t.unlink bs h prev o.next)
      else removeLoop t bs h fuel (some s) o.next

/-- `Remove(bs)` -/
def remove (t : SQStringTable) (bs : Nat) : Option SQStringTable :=
  match t.heap bs with
  | none => none
  | some b => t.removeLoop bs (t.slot b.hash) t.slotused none (t.strings (t.slot b.hash))

/-! ## Runs -/

end SQStringTable

/-- A request to the table. A concatenation is added as the bytes of its parts. -/
inductive StringOp where
  | add (news : List UInt8) (len : Int) (addr : Nat)
  | remove (bs : Nat)

open SQStringTable

/-- One operation; a string that is in use stays. -/
def applyOp (t : SQStringTable) : StringOp → Option SQStringTable
  | .add news len addr => (t.add news len addr).map Prod.fst
  | .remove bs => t.remove bs

/-- The operations of a run, from the new table on. -/
def runOps (ops : List StringOp) : Option SQStringTable :=
  ops.foldlM applyOp SQStringTable.new

end Quirrel.Interning
