import Quirrel.Delegation.Acyclic

/-!
# What an access finds

`lookup` and `assign` say what reading and writing a slot do in terms of the list of an object and its
delegates, the nearest first. The recursion of `GetImpl` and `Set` computes them in every state that a
program reaches, whatever the metamethods do.
-/

set_option autoImplicit false

namespace Quirrel.Delegation

open Lib (Chain execute execute_snoc)

variable {K V : Type}

/-! ## The outcome by the list of references -/

/-- The objects are asked from the end of the list to its start until one answers. -/
def askAll (ask : SQObjectPtr → Heap K V → Access V × Heap K V) :
    List SQObjectPtr → Heap K V → Access V × Heap K V
  | [], h => (.noMatch, h)
  | p :: l, h =>
    match askAll ask l h with
    | (.found val, h') => (.found val, h')
    | (_, h') => ask p h'

/-- The nearest slot, then a method of tables, then the metamethods from the farthest object on, then a
method of the type of the object. -/
def find (b : Builtins K V) (key : K) (self : SQObjectPtr) (l : List SQObjectPtr) (h : Heap K V) :
    Access V × Heap K V :=
  match l.findSome? fun p => get b h p.object key with
  | some val => (.found val, h)
  | none =>
    match if l.any fun p => h.isTable p.object then b.tableMethods key else none with
    | some method => (.found method, h)
    | none =>
      match askAll (callMetaMethod b b.metaGet key none) l h with
      | (.noMatch, h') => (invokeTypeMethod b (h.isTable self.object) key, h')
      | ended => ended

/-- What is found through an immutable reference is immutable. -/
def lookup (b : Builtins K V) (key : K) (self : SQObjectPtr) (l : List SQObjectPtr) (h : Heap K V) :
    Access V × Heap K V :=
  let (access, h') := find b key self l h
  (propagateImmutable b self access, h')

/-- The nearest slot that is there, or the metamethods from the farthest object on. -/
def place [DecidableEq K] (b : Builtins K V) (key : K) (val : V) (l : List SQObjectPtr)
    (h : Heap K V) : Bool × Heap K V :=
  match l.find? fun p => (h.own p.object key).isSome with
  | some p => (true, setOwn h p.object key val)
  | none =>
    let (access, h') := askAll (callMetaMethod b b.metaSet key (some val)) l h
    (access.isFound, h')

/-- Nothing is written through an immutable reference. Only a table writes to its delegates; of a
userdata its own metamethod is asked. -/
def assign [DecidableEq K] (b : Builtins K V) (key : K) (val : V) (self : SQObjectPtr)
    (delegates : List SQObjectPtr) (h : Heap K V) : Bool × Heap K V :=
  if self.immutable then (false, h)
  else place b key val (self :: if h.isTable self.object then delegates else []) h

variable {b : Builtins K V} {h : Heap K V} {key : K} {val : V} {self : SQObjectPtr} {d : Nat}
variable {ps : List SQObjectPtr} {l : List Nat} {fuel : Nat}

/-- Without a delegate no metamethod is asked. -/
theorem callMetaMethod_of_none {name : K} {val : Option V} (hd : h.delegate self.object = none) :
    callMetaMethod b name key val self h = (.noMatch, h) := by
  rw [callMetaMethod, getMetaMethod, hd]
  rfl

@[simp] theorem propagateImmutable_noMatch : propagateImmutable b self .noMatch = .noMatch := rfl

/-- The reference that an access makes for a delegate marks nothing. -/
@[simp] theorem propagateImmutable_ofDelegate (access : Access V) :
    propagateImmutable b (.ofDelegate d) access = access := by
  cases access <;> rfl

/-- A look-up in a delegate asks no type methods. -/
theorem lookup_ofDelegate : lookup b key (.ofDelegate d) ps h = find b key (.ofDelegate d) ps h := by
  rw [lookup]
  simp

/-- A slot of its own is found at once. -/
theorem getImpl_of_own (ho : get b h self.object key = some val) :
    getImpl b key (fuel + 1) self h = some (propagateImmutable b self (.found val), h) := by
  rw [getImpl, ho]

/-- The end of the chain asks the type methods. -/
theorem getImpl_of_last (ho : get b h self.object key = none) (hd : h.delegate self.object = none) :
    getImpl b key (fuel + 1) self h =
      some (propagateImmutable b self (invokeTypeMethod b (h.isTable self.object) key), h) := by
  rw [getImpl, ho]
  simp [fallBackGet, hd]

/-! ## Reading -/

/-- The first object of the chain has the key. -/
theorem find_of_own (ho : get b h self.object key = some val) :
    find b key self (self :: ps) h = (.found val, h) := by
  simp [find, ho]

/-- An object without a delegate has no metamethods. -/
theorem find_of_last (ho : get b h self.object key = none) (hd : h.delegate self.object = none) :
    find b key self [self] h = (invokeTypeMethod b (h.isTable self.object) key, h) := by
  have hask : askAll (callMetaMethod b b.metaGet key none) [self] h = (.noMatch, h) :=
    callMetaMethod_of_none hd
  cases ht : h.isTable self.object <;> cases hm : b.tableMethods key <;>
    simp [find, invokeTypeMethod, ho, ht, hm, hask]

/-- One delegate more in front. -/
theorem find_cons (ho : get b h self.object key = none) (ht : h.isTable d) :
    find b key self (self :: .ofDelegate d :: ps) h =
      match find b key (.ofDelegate d) (.ofDelegate d :: ps) h with
      | (.found val, h') => (.found val, h')
      | (_, h') =>
        match callMetaMethod b b.metaGet key none self h' with
        | (.noMatch, h'') => (invokeTypeMethod b (h.isTable self.object) key, h'')
        | ended => ended := by
  have htd : h.isTable (SQObjectPtr.ofDelegate d).object = true := ht
  have hany : (self :: .ofDelegate d :: ps).any (fun p => h.isTable p.object) = true := by simp [htd]
  have hany' : (.ofDelegate d :: ps).any (fun p => h.isTable p.object) = true := by simp [htd]
  have hfind : (self :: .ofDelegate d :: ps).findSome? (fun p => get b h p.object key) =
      (.ofDelegate d :: ps).findSome? fun p => get b h p.object key := by
    rw [List.findSome?_cons, ho]
  rw [find, find, hfind, hany, hany']
  cases (.ofDelegate d :: ps).findSome? fun p => get b h p.object key with
  | some val => rfl
  | none =>
    cases hm : b.tableMethods key with
    | some method => rfl
    | none =>
      rw [askAll]
      rcases askAll (callMetaMethod b b.metaGet key none) (.ofDelegate d :: ps) h with
        ⟨_ | _ | _, h'⟩ <;> simp [hm, invokeTypeMethod, htd]

/-- `GetImpl` is the search through the chain of delegates. -/
theorem getImpl_eq (hh : h.Acyclic) (hl : Chain h.delegate (h.delegate self.object) l)
    (hfuel : l.length < fuel) :
    getImpl b key fuel self h = some (lookup b key self (self :: l.map .ofDelegate) h) := by
  induction l generalizing self fuel with
  | nil =>
    obtain ⟨fuel, rfl⟩ := Nat.exists_eq_succ_of_ne_zero (Nat.ne_of_gt hfuel)
    have hd : h.delegate self.object = none := hl.head_eq
    cases ho : get b h self.object key with
    | some val => rw [getImpl_of_own ho, lookup, List.map_nil, find_of_own ho]
    | none => rw [getImpl_of_last ho hd, lookup, List.map_nil, find_of_last ho hd]
  | cons d l ih =>
    obtain ⟨fuel, rfl⟩ := Nat.exists_eq_succ_of_ne_zero (Nat.ne_of_gt (Nat.zero_lt_of_lt hfuel))
    have hd : h.delegate self.object = some d := hl.head_eq
    cases ho : get b h self.object key with
    | some val => rw [getImpl_of_own ho, lookup, find_of_own ho]
    | none =>
      rw [hd] at hl
      have ih' : getImpl b key fuel (.ofDelegate d) h =
          some (find b key (.ofDelegate d) (.ofDelegate d :: l.map .ofDelegate) h) :=
        lookup_ofDelegate (b := b) ▸ ih (Chain.cons_iff.mp hl) (Nat.lt_of_succ_lt_succ hfuel)
      rw [getImpl, ho, lookup, List.map_cons, find_cons ho (hh.tables self.object d hd)]
      simp only [fallBackGet, hd, ih', Option.bind_eq_bind, Option.bind_some]
      rcases find b key (.ofDelegate d) (.ofDelegate d :: l.map .ofDelegate) h with
        ⟨_ | _ | _, h'⟩ <;> simp <;>
        rcases callMetaMethod b b.metaGet key none self h' with ⟨_ | _ | _, h''⟩ <;> simp

/-! ## Writing -/

/-- Only tables have slots. -/
theorem own_of_not_isTable {o : Nat} (ho : h.isTable o = false) : h.own o key = none := by
  cases hx : h[o]? with
  | none => simp [Heap.own, hx]
  | some x =>
    cases x with
    | table => simp [Heap.isTable, hx, SQDelegable.isTable] at ho
    | userdata => simp [Heap.own, hx, SQDelegable.own]

section Write

variable [DecidableEq K]

/-- The first table of the chain has the key. -/
theorem place_of_own (ho : (h.own self.object key).isSome) :
    place b key val (self :: ps) h = (true, setOwn h self.object key val) := by
  have hfind : (self :: ps).find? (fun p => (h.own p.object key).isSome) = some self :=
    List.find?_cons_of_pos ho
  rw [place, hfind]

/-- Else the rest of the chain is tried, and then the metamethod of its head. -/
theorem place_cons (ho : ¬ (h.own self.object key).isSome) :
    place b key val (self :: ps) h =
      match place b key val ps h with
      | (true, h') => (true, h')
      | (false, h') =>
        let (access, h'') := callMetaMethod b b.metaSet key (some val) self h'
        (access.isFound, h'') := by
  have hfind : (self :: ps).find? (fun p => (h.own p.object key).isSome) =
      ps.find? fun p => (h.own p.object key).isSome := List.find?_cons_of_neg ho
  rw [place, place, hfind]
  cases ps.find? fun p => (h.own p.object key).isSome with
  | some p => rfl
  | none =>
    rw [askAll]
    rcases askAll (callMetaMethod b b.metaSet key (some val)) ps h with ⟨_ | _ | _, h'⟩ <;> rfl

theorem place_nil : place b key val [] h = (false, h) := rfl

/-- Of a userdata only the metamethod is asked. -/
theorem set_of_not_isTable (ho : h.isTable self.object = false) :
    set b key val (fuel + 1) self h = some (assign b key val self ps h) := by
  have hown : ¬ (h.own self.object key).isSome := by simp [own_of_not_isTable ho]
  cases hi : self.immutable with
  | true => simp [set, assign, hi]
  | false =>
    simp [set, assign, hi, hown, ho, place_cons hown, place_nil, fallBackSet]

/-- `Set` on a table tries the chain. -/
theorem set_of_isTable (hh : h.Acyclic) (hl : Chain h.delegate (h.delegate self.object) l)
    (ho : h.isTable self.object) (hfuel : l.length < fuel) :
    set b key val fuel self h = some (assign b key val self (l.map .ofDelegate) h) := by
  induction l generalizing self fuel with
  | nil =>
    obtain ⟨fuel, rfl⟩ := Nat.exists_eq_succ_of_ne_zero (Nat.ne_of_gt hfuel)
    have hd : h.delegate self.object = none := hl.head_eq
    cases hi : self.immutable with
    | true => simp [set, assign, hi]
    | false =>
      by_cases hown : (h.own self.object key).isSome
      · simp [set, assign, hi, hown, ho, place_of_own hown]
      · simp [set, assign, hi, hown, ho, place_cons hown, place_nil, fallBackSet, hd]
  | cons d l ih =>
    obtain ⟨fuel, rfl⟩ := Nat.exists_eq_succ_of_ne_zero (Nat.ne_of_gt (Nat.zero_lt_of_lt hfuel))
    have hd : h.delegate self.object = some d := hl.head_eq
    cases hi : self.immutable with
    | true => simp [set, assign, hi]
    | false =>
      by_cases hown : (h.own self.object key).isSome
      · simp [set, assign, hi, hown, ho, place_of_own hown]
      · rw [hd] at hl
        have htd : h.isTable d := hh.tables self.object d hd
        have ih' : set b key val fuel (.ofDelegate d) h =
            some (assign b key val (.ofDelegate d) (l.map .ofDelegate) h) :=
          ih (Chain.cons_iff.mp hl) htd (Nat.lt_of_succ_lt_succ hfuel)
        have hplace : assign b key val (.ofDelegate d) (l.map .ofDelegate) h =
            place b key val (.ofDelegate d :: l.map .ofDelegate) h := by
          simp [assign, SQObjectPtr.ofDelegate, htd]
        rw [hplace] at ih'
        simp only [set, assign, hi, hown, ho, fallBackSet, hd, ih', place_cons hown, List.map_cons,
          Bool.false_eq_true, if_false, if_true, Option.map_some]
        rcases place b key val (.ofDelegate d :: l.map .ofDelegate) h with ⟨_ | _, h'⟩ <;> rfl

/-- `Set` is the assignment through the chain. -/
theorem set_eq (hh : h.Acyclic) (hl : Chain h.delegate (h.delegate self.object) l)
    (hfuel : l.length < fuel) :
    set b key val fuel self h = some (assign b key val self (l.map .ofDelegate) h) := by
  cases ho : h.isTable self.object with
  | true => exact set_of_isTable hh hl ho hfuel
  | false =>
    obtain ⟨fuel, rfl⟩ := Nat.exists_eq_succ_of_ne_zero (Nat.ne_of_gt (Nat.zero_lt_of_lt hfuel))
    exact set_of_not_isTable ho

end Write

/-! ## What the calls may do -/

section Calls

variable {P : Heap K V → Prop}

/-- What every call keeps, a metamethod keeps. -/
theorem callMetaMethod_keeps {name : K} {val : Option V}
    (hcall : ∀ c p k v h, P h → P (b.call c p k v h).2) (h : Heap K V) (hP : P h) :
    P (callMetaMethod b name key val self h).2 := by
  rw [callMetaMethod]
  split
  · exact hP
  · next c _ =>
    have hc := hcall c self key val h hP
    rcases hres : b.call c self key val h with ⟨_ | _ | _, h'⟩ <;> simpa [hres] using hc

theorem askAll_keeps {ask : SQObjectPtr → Heap K V → Access V × Heap K V}
    (hask : ∀ p h, P h → P (ask p h).2) (ps : List SQObjectPtr) (hP : P h) :
    P (askAll ask ps h).2 := by
  induction ps with
  | nil => exact hP
  | cons p ps ih =>
    rw [askAll]
    revert ih
    rcases askAll ask ps h with ⟨_ | _ | _, h'⟩
    · exact id
    · exact hask p h'
    · exact hask p h'

/-- What every call keeps, a search keeps. -/
theorem find_keeps (hcall : ∀ c p k v h, P h → P (b.call c p k v h).2) (hP : P h) :
    P (find b key self ps h).2 := by
  have hask := askAll_keeps (fun p => @callMetaMethod_keeps K V b key p P b.metaGet none hcall) ps hP
  rw [find]
  split
  · exact hP
  · split
    · exact hP
    · revert hask
      rcases askAll (callMetaMethod b b.metaGet key none) ps h with ⟨_ | _ | _, h'⟩ <;> exact id

/-- What every call and every slot write keep, an assignment to the chain keeps. -/
theorem place_keeps [DecidableEq K] (hcall : ∀ c p k v h, P h → P (b.call c p k v h).2)
    (hset : ∀ o h, P h → P (setOwn h o key val)) (hP : P h) : P (place b key val ps h).2 := by
  rw [place]
  split
  · exact hset _ h hP
  · exact askAll_keeps (fun p => @callMetaMethod_keeps K V b key p P b.metaSet (some val) hcall) ps hP

/-- So does an assignment. -/
theorem assign_keeps [DecidableEq K] (hcall : ∀ c p k v h, P h → P (b.call c p k v h).2)
    (hset : ∀ o h, P h → P (setOwn h o key val)) (hP : P h) : P (assign b key val self ps h).2 := by
  rw [assign]
  split
  · exact hP
  · exact place_keeps hcall hset hP

end Calls

/-! ## In every run -/

/-- A state that a program reaches. -/
def Reachable [DecidableEq K] (h : Heap K V) : Prop := ∃ ops, execute step [] ops = some h

/-- Every reachable heap is acyclic. -/
theorem Reachable.acyclic [DecidableEq K] (hr : Reachable h) : h.Acyclic := by
  obtain ⟨ops, hops⟩ := hr
  obtain ⟨h', hrun, hh⟩ := execute_acyclic ops (acyclic_nil (K := K) (V := V))
  rw [hops] at hrun
  cases hrun
  exact hh

theorem Reachable.setOwn [DecidableEq K] (hr : Reachable h) (o : Nat) (key : K) (val : V) :
    Reachable (setOwn h o key val) := by
  obtain ⟨ops, hops⟩ := hr
  exact ⟨ops ++ [.newSlot o key val], by rw [execute_snoc ops _ hops]; rfl⟩

/-- A table with the slot 5 becomes the delegate of a table without slots. -/
def delegatedSlot : Heap Nat Nat :=
  [.table (fun k => if k = 5 then some 7 else none) none, .table (fun _ => none) (some 0)]

/-- No metamethods, no methods and no weak references; what is immutable is marked by a hundred more. -/
def noMetaMethods : Builtins Nat Nat where
  metaGet := 0
  metaSet := 1
  tableMethods := fun _ => none
  userdataMethods := fun _ => none
  realval := fun _ val => val
  freeze := fun val => val + 100
  call := fun _ _ _ _ h => (.error, h)

end Quirrel.Delegation
