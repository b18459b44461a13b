import Quirrel.Table.Iterate
import Quirrel.Vm.Object

/-!
# `math.deep_hash`

`math_recursive_hash_impl` folds what it meets into a hash, a table in the order of its nodes. Main
theorem `mathDeepHash_eq`: values that are traversed in the same order down to the depth have the same
hash or raise the same error, and the stack is as high as before the call. Two tables with the same
entries need not be traversed in the same order (`mathDeepHash_order`).

The recursion pushes a table, its iterator, and the key and the value of an entry; a push behind the
end of the stack is a fault.
-/

set_option autoImplicit false

namespace Quirrel.Hash

open Quirrel.Vm Quirrel.Table

/-- The objects that references lead to, and the hash that every string carries. `members` is what
`sq_next` yields for a class and for an instance. -/
structure Heap where
  ops : ObjectOps SQObject SQObject
  tableAt : Nat → SQTable SQObject SQObject
  arrayAt : Nat → List SQObject
  members : RefType → Nat → List (SQObject × SQObject)
  strHash : List UInt8 → UInt64

/-- Why no hash comes out. -/
inductive HashError where
  /-- A push behind the end of the stack. -/
  | fault
  /-- `"unsupported type for hashing"` -/
  | unsupported
  /-- `"hashing depth must be >= 1"` -/
  | depth
  deriving DecidableEq

/-! ## What `sq_next` yields -/

/-- The entries that `SQTable::Next` finds from node `idx` on. -/
def tableEntries (o : ObjectOps SQObject SQObject) (t : SQTable SQObject SQObject) :
    Nat → Nat → List (SQObject × SQObject)
  | 0, _ => []
  | fuel + 1, idx =>
    match next o t idx with
    | none => []
    | some (idx', k, v) => (k, v) :: tableEntries o t fuel idx'

/-- The entries of a container, if the object is one. -/
def Heap.entries? (heap : Heap) : SQObject → Option (List (SQObject × SQObject))
  | .ref .table addr => some (tableEntries heap.ops (heap.tableAt addr) (heap.tableAt addr).size 0)
  | .ref .sqclass addr => some (heap.members .sqclass addr)
  | .ref .sqinstance addr => some (heap.members .sqinstance addr)
  | _ => none

/-! ## The hash -/

/-- `SQ_M_HASH_MULTIPLIER` -/
def hashMultiplier : UInt64 := 1099511628211

/-- `SQ_M_HASH_INIT` -/
def hashInit : UInt64 := 14695981039346656037

/-- One word goes into the hash. -/
def hashStep (x prev : UInt64) : UInt64 := (x ^^^ prev) * hashMultiplier

/-- The last step for every supported type. -/
def hashFinish (h : UInt64) : UInt64 := h ^^^ (h >>> 15)

/-- The value of the 32-bit float as it is hashed. -/
def floatWord (f : SQFloat) : UInt64 := (f.toBits ^^^ (f.toBits >>> 21)).toUInt64

/-- The hash of a value without parts. -/
def leafHash (heap : Heap) (prev : UInt64) : SQObject → Option UInt64
  | .null => some (hashStep 0 prev)
  | .bool b => some (hashStep (if b then 1 else 0) prev)
  | .integer i => some (hashStep (.ofBitVec i) prev)
  | .float f => some (hashStep (floatWord f) prev)
  | .string s => some (hashStep (heap.strHash s) (hashStep (.ofNat s.length) prev))
  | .ref _ _ => none

/-- A hash, or an error, with the top of the stack. -/
abbrev Hashed := Except HashError UInt64 × Nat

/-- The next part of a hash, when there is one so far. -/
def Hashed.bind (r : Hashed) (f : UInt64 → Nat → Hashed) : Hashed :=
  match r with
  | (.error e, top) => (.error e, top)
  | (.ok h, top) => f h top

/-- The loop over an array. -/
def hashArray (hash : SQObject → UInt64 → Nat → Hashed) :
    List SQObject → UInt64 → Nat → Hashed
  | [], h, top => (.ok h, top)
  | x :: xs, h, top => (hash x h top).bind fun h top => hashArray hash xs h top

/-- Two values are pushed, if there is room. -/
def push2 (limit top : Nat) (f : Nat → Hashed) : Hashed :=
  if top + 2 ≤ limit then f (top + 2) else (.error .fault, top)

/-- The loop of `sq_next` over a container. -/
def hashEntries (limit : Nat) (hash : SQObject → UInt64 → Nat → Hashed) :
    List (SQObject × SQObject) → UInt64 → Nat → Hashed
  | [], h, top => (.ok h, top)
  | (k, v) :: es, h, top =>
    push2 limit top fun top =>
      (hash k h top).bind fun h top =>
        (hash v h top).bind fun h top => hashEntries limit hash es h (top - 2)

/-- `math_recursive_hash_impl` on a stack of `limit` slots, with `top` of them in use. -/
def mathRecursiveHashImpl (heap : Heap) (limit : Nat) :
    Nat → SQObject → UInt64 → Nat → Hashed
  | 0, _, prev, top => (.ok prev, top)
  | depth + 1, obj, prev, top =>
    let prev := hashStep (.ofNat obj.sqType.toNat) prev
    match leafHash heap prev obj with
    | some h => (.ok (hashFinish h), top)
    | none =>
      match obj, heap.entries? obj with
      | .ref .array addr, _ =>
        (hashArray (mathRecursiveHashImpl heap limit depth) (heap.arrayAt addr) prev top).bind
          fun h top => (.ok (hashFinish h), top)
      | _, some es =>
        push2 limit top fun top =>
          (hashEntries limit (mathRecursiveHashImpl heap limit depth) es prev top).bind
            fun h top => (.ok (hashFinish h), top - 2)
      | _, none => (.error .unsupported, top)

/-- `sq_math_deep_hash`, called by `CallNative` with a frame that ends at `newtop`. Leaving the frame
gives the stack back the height `prevtop`. -/
def mathDeepHash (heap : Heap) (limit newtop prevtop : Nat) (obj : SQObject) (argDepth : SQInteger) :
    Hashed :=
  if argDepth.toInt < 1 then (.error .depth, prevtop)
  else
    match mathRecursiveHashImpl heap limit argDepth.toInt.toNat obj hashInit newtop with
    | (.error e, _) => (.error e, prevtop)
    | (.ok h, _) => (.ok (h &&& (~~~(0 : UInt64) >>> 1)), prevtop)

/-! ## Structural equality and traversal -/

/-- Both keys and both values are related. -/
def Both (r : SQObject → SQObject → Prop) (p q : SQObject × SQObject) : Prop :=
  r p.1 q.1 ∧ r p.2 q.2

/-- The entries of the table at an address, in the order of its nodes. -/
def Heap.tableEntriesAt (heap : Heap) (addr : Nat) : List (SQObject × SQObject) :=
  tableEntries heap.ops (heap.tableAt addr) (heap.tableAt addr).size 0

/-- Down to a depth, the same object, or arrays with the same elements in order, or tables with the
same entries. -/
def StructEq (heap : Heap) : Nat → SQObject → SQObject → Prop
  | 0, _, _ => True
  | depth + 1, a, b =>
    a = b ∨
    (∃ x y, a = .ref .array x ∧ b = .ref .array y ∧
      List.Forall₂ (StructEq heap depth) (heap.arrayAt x) (heap.arrayAt y)) ∨
    (∃ x y, a = .ref .table x ∧ b = .ref .table y ∧ ∃ es, es.Perm (heap.tableEntriesAt y) ∧
      List.Forall₂ (Both (StructEq heap depth)) (heap.tableEntriesAt x) es)

/-- The same, with the entries of the tables in the same order. -/
def SameTraversal (heap : Heap) : Nat → SQObject → SQObject → Prop
  | 0, _, _ => True
  | depth + 1, a, b =>
    a = b ∨
    (∃ x y, a = .ref .array x ∧ b = .ref .array y ∧
      List.Forall₂ (SameTraversal heap depth) (heap.arrayAt x) (heap.arrayAt y)) ∨
    (∃ x y, a = .ref .table x ∧ b = .ref .table y ∧
      List.Forall₂ (Both (SameTraversal heap depth)) (heap.tableEntriesAt x)
        (heap.tableEntriesAt y))

/-- Values traversed alike are equal in structure. -/
theorem structEq_of_sameTraversal {heap : Heap} {depth : Nat} {a b : SQObject}
    (h : SameTraversal heap depth a b) : StructEq heap depth a b := by
  induction depth generalizing a b with
  | zero => trivial
  | succ depth ih =>
    rcases h with rfl | ⟨x, y, rfl, rfl, h⟩ | ⟨x, y, rfl, rfl, h⟩
    · exact .inl rfl
    · exact .inr (.inl ⟨x, y, rfl, rfl, h.imp fun _ _ => ih⟩)
    · exact .inr (.inr ⟨x, y, rfl, rfl, _, .refl _, h.imp fun _ _ hpq => ⟨ih hpq.1, ih hpq.2⟩⟩)

/-! ## Equal traversals have equal hashes -/

/-- Arrays whose elements hash alike hash alike. -/
theorem hashArray_congr {hash : SQObject → UInt64 → Nat → Hashed} {r : SQObject → SQObject → Prop}
    (hr : ∀ a b, r a b → ∀ h top, hash a h top = hash b h top) {xs ys : List SQObject}
    (hxs : List.Forall₂ r xs ys) (h : UInt64) (top : Nat) :
    hashArray hash xs h top = hashArray hash ys h top := by
  induction hxs generalizing h top with
  | nil => rfl
  | cons hxy _ ih =>
    rw [hashArray, hashArray, hr _ _ hxy]
    congr 1
    funext h top
    exact ih h top

/-- Tables whose entries hash alike hash alike. -/
theorem hashEntries_congr {limit : Nat} {hash : SQObject → UInt64 → Nat → Hashed}
    {r : SQObject → SQObject → Prop} (hr : ∀ a b, r a b → ∀ h top, hash a h top = hash b h top)
    {es fs : List (SQObject × SQObject)} (hes : List.Forall₂ (Both r) es fs) (h : UInt64)
    (top : Nat) : hashEntries limit hash es h top = hashEntries limit hash fs h top := by
  induction hes generalizing h top with
  | nil => rfl
  | @cons p q es fs hpq _ ih =>
    obtain ⟨k, v⟩ := p
    obtain ⟨k', v'⟩ := q
    rw [hashEntries, hashEntries]
    congr 1
    funext top
    rw [hr k k' hpq.1]
    congr 1
    funext h top
    rw [hr v v' hpq.2]
    congr 1
    funext h top
    exact ih h (top - 2)

/-- Values traversed alike hash alike, by induction on the depth. -/
theorem mathRecursiveHashImpl_congr {heap : Heap} {limit depth : Nat} {a b : SQObject}
    (h : SameTraversal heap depth a b) (prev : UInt64) (top : Nat) :
    mathRecursiveHashImpl heap limit depth a prev top =
      mathRecursiveHashImpl heap limit depth b prev top := by
  induction depth generalizing a b prev top with
  | zero => rfl
  | succ depth ih =>
    have hparts : ∀ a b, SameTraversal heap depth a b → ∀ h top,
        mathRecursiveHashImpl heap limit depth a h top =
          mathRecursiveHashImpl heap limit depth b h top := fun _ _ hab h top => ih hab h top
    rcases h with rfl | ⟨x, y, rfl, rfl, h⟩ | ⟨x, y, rfl, rfl, h⟩
    · rfl
    · rw [mathRecursiveHashImpl, mathRecursiveHashImpl]
      exact congrArg (fun r : Hashed => r.bind fun h top => (.ok (hashFinish h), top))
        (hashArray_congr hparts h _ top)
    · have hstep (z : Nat) : mathRecursiveHashImpl heap limit (depth + 1) (.ref .table z) prev top =
          push2 limit top fun top =>
            (hashEntries limit (mathRecursiveHashImpl heap limit depth) (heap.tableEntriesAt z)
              (hashStep (.ofNat RefType.table.typeWord.toNat) prev) top).bind
              fun h top => (.ok (hashFinish h), top - 2) := rfl
      rw [hstep, hstep]
      refine congrArg (push2 limit top) (funext fun top => ?_)
      exact congrArg (fun r : Hashed => r.bind fun h top => (.ok (hashFinish h), top - 2))
        (hashEntries_congr hparts h _ top)

/-! ## The stack -/

/-- The slots that the hash of an object takes. -/
def slots (heap : Heap) : Nat → SQObject → Nat
  | 0, _ => 0
  | depth + 1, .ref .array addr => ((heap.arrayAt addr).map (slots heap depth)).foldr max 0
  | depth + 1, obj =>
    match heap.entries? obj with
    | none => 0
    | some es =>
      2 + (es.map fun e => 2 + max (slots heap depth e.1) (slots heap depth e.2)).foldr max 0

/-- No fault, and on success the stack is as high as before. -/
def Balanced (top : Nat) (r : Hashed) : Prop :=
  r.1 ≠ .error .fault ∧ ∀ h, r.1 = .ok h → r.2 = top

/-- Two balanced parts, one after the other. -/
theorem balanced_bind {top top' : Nat} {r : Hashed} {f : UInt64 → Nat → Hashed}
    (hr : Balanced top r) (hf : ∀ h, Balanced top' (f h top)) : Balanced top' (r.bind f) := by
  obtain ⟨x, t⟩ := r
  cases x with
  | error e => exact ⟨hr.1, nofun⟩
  | ok h =>
    obtain rfl : t = top := hr.2 h rfl
    exact hf h

/-- A key and its value on the stack, where there is room. -/
theorem balanced_push2 {limit top : Nat} {f : Nat → Hashed} (hroom : top + 2 ≤ limit)
    (hf : Balanced top (f (top + 2))) : Balanced top (push2 limit top f) := by
  rw [push2, if_pos hroom]
  exact hf

theorem le_foldr_max {xs : List Nat} {x : Nat} (h : x ∈ xs) : x ≤ xs.foldr max 0 := by
  induction xs with
  | nil => cases h
  | cons y ys ih =>
    rw [List.foldr_cons]
    rcases List.mem_cons.1 h with rfl | h
    · exact Nat.le_max_left _ _
    · exact Nat.le_trans (ih h) (Nat.le_max_right _ _)

/-- The loop over an array leaves the stack as it was. -/
theorem balanced_hashArray {hash : SQObject → UInt64 → Nat → Hashed} {xs : List SQObject} {top : Nat}
    (hx : ∀ x ∈ xs, ∀ h, Balanced top (hash x h top)) (h : UInt64) :
    Balanced top (hashArray hash xs h top) := by
  induction xs generalizing h with
  | nil => exact ⟨nofun, fun _ _ => rfl⟩
  | cons x xs ih =>
    exact balanced_bind (hx x List.mem_cons_self h) fun h =>
      ih (fun y hy => hx y (List.mem_cons_of_mem _ hy)) h

/-- The loop over a table leaves the stack as it was. -/
theorem balanced_hashEntries {limit : Nat} {hash : SQObject → UInt64 → Nat → Hashed}
    {es : List (SQObject × SQObject)} {top : Nat}
    (he : ∀ e ∈ es, top + 2 ≤ limit ∧ (∀ h, Balanced (top + 2) (hash e.1 h (top + 2))) ∧
      ∀ h, Balanced (top + 2) (hash e.2 h (top + 2))) (h : UInt64) :
    Balanced top (hashEntries limit hash es h top) := by
  induction es generalizing h with
  | nil => exact ⟨nofun, fun _ _ => rfl⟩
  | cons e es ih =>
    obtain ⟨hroom, hk, hv⟩ := he e List.mem_cons_self
    refine balanced_push2 hroom (balanced_bind (hk h) fun h => balanced_bind (hv h) fun h => ?_)
    exact ih (fun e' he' => he e' (List.mem_cons_of_mem _ he')) h

/-- With room for its slots, the hash of an object does not leave the stack. -/
theorem balanced_mathRecursiveHashImpl {heap : Heap} {limit depth : Nat} {obj : SQObject} {top : Nat}
    (hroom : top + slots heap depth obj ≤ limit) (prev : UInt64) :
    Balanced top (mathRecursiveHashImpl heap limit depth obj prev top) := by
  induction depth generalizing obj top prev with
  | zero => exact ⟨nofun, fun _ _ => rfl⟩
  | succ depth ih =>
    have harray (addr : Nat) (h : top + slots heap (depth + 1) (.ref .array addr) ≤ limit) :
        Balanced top (mathRecursiveHashImpl heap limit (depth + 1) (.ref .array addr) prev top) := by
      refine balanced_bind (balanced_hashArray (fun x hx h' => ih ?_ h') _) fun h =>
        ⟨nofun, fun _ _ => rfl⟩
      have hle := le_foldr_max (List.mem_map_of_mem (f := slots heap depth) hx)
      rw [slots] at h
      omega
    have hentries (es : List (SQObject × SQObject)) (prev : UInt64)
        (h : top + (2 + (es.map fun e =>
          2 + max (slots heap depth e.1) (slots heap depth e.2)).foldr max 0) ≤ limit) :
        Balanced top (push2 limit top fun top =>
          (hashEntries limit (mathRecursiveHashImpl heap limit depth) es prev top).bind
            fun h top => (.ok (hashFinish h), top - 2)) := by
      refine balanced_push2 (by omega) (balanced_bind (balanced_hashEntries (fun e he => ?_) prev)
        fun h => ⟨nofun, fun _ _ => rfl⟩)
      have hle := le_foldr_max (List.mem_map_of_mem
        (f := fun e => 2 + max (slots heap depth e.1) (slots heap depth e.2)) he)
      exact ⟨by omega, fun h' => ih (by omega) h', fun h' => ih (by omega) h'⟩
    cases obj with
    | ref t addr =>
      cases t with
      | array => exact harray addr hroom
      | table => exact hentries _ _ hroom
      | sqclass => exact hentries _ _ hroom
      | sqinstance => exact hentries _ _ hroom
      | _ => exact ⟨nofun, nofun⟩
    | _ => exact ⟨nofun, fun _ _ => rfl⟩

/-! ## `sq_math_deep_hash` -/

/-- Values traversed alike have one hash or one error. -/
theorem mathDeepHash_congr {heap : Heap} {limit newtop prevtop : Nat} {a b : SQObject}
    {argDepth : SQInteger} (h : SameTraversal heap argDepth.toInt.toNat a b) :
    mathDeepHash heap limit newtop prevtop a argDepth =
      mathDeepHash heap limit newtop prevtop b argDepth := by
  rw [mathDeepHash, mathDeepHash, mathRecursiveHashImpl_congr h]

/-- The call leaves the stack as high as it was. -/
theorem mathDeepHash_top (heap : Heap) (limit newtop prevtop : Nat) (obj : SQObject)
    (argDepth : SQInteger) : (mathDeepHash heap limit newtop prevtop obj argDepth).2 = prevtop := by
  rw [mathDeepHash]
  split
  · rfl
  · split <;> rfl

/-- With enough room the stack does not run over. -/
theorem mathDeepHash_no_fault {heap : Heap} {limit newtop prevtop : Nat} {obj : SQObject}
    {argDepth : SQInteger} (h : newtop + slots heap argDepth.toInt.toNat obj ≤ limit) :
    (mathDeepHash heap limit newtop prevtop obj argDepth).1 ≠ .error .fault := by
  have hb := balanced_mathRecursiveHashImpl h hashInit
  rw [mathDeepHash]
  split
  · exact nofun
  · split
    · rename_i e top he
      rw [he] at hb
      exact hb.1
    · exact nofun

/-- Values that are traversed in the same order down to the depth have the same hash, or both calls
raise the same error; the stack is not left, and is as high after each call as before it. -/
theorem mathDeepHash_eq (heap : Heap) {limit newtop : Nat} (prevtop : Nat) {a b : SQObject}
    (argDepth : SQInteger) (hab : SameTraversal heap argDepth.toInt.toNat a b)
    (hroom : newtop + slots heap argDepth.toInt.toNat a ≤ limit) :
    (mathDeepHash heap limit newtop prevtop a argDepth).1 =
        (mathDeepHash heap limit newtop prevtop b argDepth).1 ∧
      (mathDeepHash heap limit newtop prevtop a argDepth).1 ≠ .error .fault ∧
      (mathDeepHash heap limit newtop prevtop a argDepth).2 = prevtop ∧
      (mathDeepHash heap limit newtop prevtop b argDepth).2 = prevtop :=
  ⟨congrArg Prod.fst (mathDeepHash_congr hab), mathDeepHash_no_fault hroom,
    mathDeepHash_top heap limit newtop prevtop a argDepth,
    mathDeepHash_top heap limit newtop prevtop b argDepth⟩

/-! ## Two orders of insertion -/

/-- Integers are their own hashes. -/
def integerOps : ObjectOps SQObject SQObject where
  hashObj
    | .integer i => i.toNat
    | _ => 0
  stringAddr _ := none
  null := .null
  realval := id

/-- The table at 0 got the keys 0 and 4 in this order, any other the other way round. -/
def twoTables : Heap where
  ops := integerOps
  tableAt addr :=
    (runOps integerOps 2 0
      (if addr = 0 then [.newSlot (.integer 0) .null, .newSlot (.integer 4) .null]
      else [.newSlot (.integer 4) .null, .newSlot (.integer 0) .null])).getD
        (create integerOps 0)
  arrayAt _ := []
  members _ _ := []
  strHash _ := 0

/-- The second key goes to a free node, behind or in front of the first one. -/
theorem twoTables_entries :
    twoTables.tableEntriesAt 0 = [(.integer 0, .null), (.integer 4, .null)] ∧
      twoTables.tableEntriesAt 1 = [(.integer 4, .null), (.integer 0, .null)] := by
  constructor <;> decide

/-- Two tables with the same entries in another order hash differently. -/
theorem mathDeepHash_order :
    StructEq twoTables 200 (.ref .table 0) (.ref .table 1) ∧
      (mathDeepHash twoTables 512 4 4 (.ref .table 0) 200).1 ≠
        (mathDeepHash twoTables 512 4 4 (.ref .table 1) 200).1 := by
  constructor
  · refine .inr (.inr ⟨0, 1, rfl, rfl, twoTables.tableEntriesAt 0, ?_, ?_⟩)
    · rw [twoTables_entries.1, twoTables_entries.2]
      exact List.Perm.swap _ _ _
    · exact List.forall₂_same.2 fun e _ => ⟨.inl rfl, .inl rfl⟩
  · decide +kernel

/-- Two tables with the same entries in the same order. -/
theorem mathDeepHash_eq_same_order :
    (mathDeepHash twoTables 512 4 4 (.ref .table 1) 200).1 =
        (mathDeepHash twoTables 512 4 4 (.ref .table 2) 200).1 ∧
      (mathDeepHash twoTables 512 4 4 (.ref .table 1) 200).1 ≠ .error .fault ∧
      (mathDeepHash twoTables 512 4 4 (.ref .table 1) 200).2 = 4 ∧
      (mathDeepHash twoTables 512 4 4 (.ref .table 2) 200).2 = 4 := by
  refine mathDeepHash_eq twoTables 4 200 (.inr (.inr ⟨1, 2, rfl, rfl, ?_⟩)) ?_
  · exact List.forall₂_same.2 fun e _ => ⟨.inl rfl, .inl rfl⟩
  · decide +kernel

end Quirrel.Hash
