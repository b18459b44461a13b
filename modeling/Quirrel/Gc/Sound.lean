import Quirrel.Gc.Heap

set_option autoImplicit false

/-!
# What a collection may finalize

`CollectGarbage` finalizes the objects that the `Mark` functions do not come to from the roots. These
are unreachable just when marking also comes to what open outers point at and to the outers that
threads have open (`collectGarbage_sound_iff`): `SQOuter::Mark` leaves an open outer's value to the
thread whose stack holds it, and `SQVM::Mark` leaves out the list of open outers.
-/

namespace Quirrel.Gc

open Marking

/-- The static memos of a function prototype. -/
def SQCollectable.memos : SQCollectable → List SQObject
  | .funcproto _ _ staticmemos => staticmemos
  | _ => []

/-- An instance has the values that its class gave it. -/
def SQCollectable.ValuesFit (s : SQSharedState) : SQCollectable → Prop
  | .instance cls values => values.length ≤ cls.elim 0 s.nvalues
  | _ => True

instance (s : SQSharedState) (o : SQCollectable) : Decidable (o.ValuesFit s) := by
  unfold SQCollectable.ValuesFit
  split <;> infer_instance

/-- The state at a collection: every object is on the chain, references lead to objects, and a static
memo is in the ref table, where `_OP_SAVE_STATIC_MEMO` has put it. -/
structure ObjectGraph extends SQSharedState where
  chain_perm : gcChain.Perm (List.range objects.length)
  roots_lt : ∀ r ∈ toSQSharedState.roots, r < objects.length
  references_lt : ∀ o ∈ objects, ∀ b ∈ toSQSharedState.referencesOf o, b < objects.length
  memos_rooted : ∀ o ∈ objects, ∀ b ∈ targets o.memos, b ∈ targets refsTable
  values_fit : ∀ o ∈ objects, o.ValuesFit toSQSharedState

namespace ObjectGraph

/-- A chain of references from the roots leads to the object. -/
def Reachable (g : ObjectGraph) (x : Nat) : Prop :=
  Reached g.references g.roots x

/-- The `Mark` functions come to the object. -/
def Marked (g : ObjectGraph) (x : Nat) : Prop :=
  Reached g.markChildren g.roots x

/-- A collection finalizes unreachable objects only. -/
def Sound (g : ObjectGraph) : Prop :=
  ∃ c, g.collectGarbage = some c ∧ ∀ a ∈ c.finalized, ¬ g.Reachable a

/-- What an open outer points at is marked with the outer, and so are a thread's open outers with the
thread. -/
structure OpenOutersMarked (g : ObjectGraph) : Prop where
  slots : ∀ {a thread i value}, g.Marked a →
    g.objects[a]? = some (.outer (some (thread, i)) value) →
    ∀ b ∈ (g.slotValue thread i).target, g.Marked b
  lists : ∀ {a vm}, g.Marked a → g.objects[a]? = some (.thread vm) →
    ∀ o ∈ vm.openouters, g.Marked o

variable {g : ObjectGraph}

theorem mem_roots_of_refsTable {b : Nat} (h : b ∈ targets g.refsTable) : b ∈ g.roots := by
  simp only [SQSharedState.roots, List.mem_append]
  exact .inl (.inl (.inl (.inr h)))

theorem memo_mem_roots {a b : Nat} (hb : b ∈ targets (g.staticmemos a)) : b ∈ g.roots := by
  apply mem_roots_of_refsTable
  unfold SQSharedState.staticmemos at hb
  split at hb
  · rename_i ho
    exact g.memos_rooted _ (List.mem_of_getElem? ho) b hb
  · exact absurd hb List.not_mem_nil

theorem mem_targets_take {values : List SQObject} {n b : Nat}
    (h : b ∈ targets (values.take n)) : b ∈ targets values := by
  obtain ⟨o, ho, hb⟩ := List.mem_flatMap.1 h
  exact List.mem_flatMap.2 ⟨o, List.mem_of_mem_take ho, hb⟩

/-- `Mark` follows references, and static memos, which are roots. -/
theorem mem_references_of_markObject {o : SQCollectable} {b : Nat}
    (h : b ∈ g.markObject o) : b ∈ g.referencesOf o ∨ b ∈ g.roots := by
  cases o with
  | thread vm => exact .inl (List.mem_append_left _ h)
  | «instance» cls values =>
    rcases List.mem_append.1 h with h | h
    · exact .inl (List.mem_append_left _ h)
    · exact .inl (List.mem_append_right _ (mem_targets_take h))
  | funcproto literals functions staticmemos => exact .inl (List.mem_append_left _ h)
  | closure base function outervalues defaultparams =>
    rcases List.mem_append.1 h with h | h
    · exact .inl h
    · exact .inr (memo_mem_roots h)
  | outer valptr value =>
    cases valptr with
    | none => exact .inl h
    | some p => exact absurd h List.not_mem_nil
  | array | table | «class» | generator | nativeclosure | userdata => exact .inl h

/-- What `Mark` does not follow of an object's references. -/
theorem mem_markObject_of_references {o : SQCollectable} {b : Nat} (ho : o ∈ g.objects)
    (h : b ∈ g.referencesOf o) :
    b ∈ g.markObject o ∨ b ∈ g.roots ∨
      (∃ vm, o = .thread vm ∧ b ∈ vm.openouters) ∨
      ∃ thread i value, o = .outer (some (thread, i)) value ∧
        b ∈ (g.slotValue thread i).target := by
  cases o with
  | thread vm =>
    rcases List.mem_append.1 h with h | h
    · exact .inl h
    · exact .inr (.inr (.inl ⟨vm, rfl, h⟩))
  | «instance» cls values =>
    left
    have hfit := g.values_fit _ ho
    rw [SQSharedState.markObject, List.take_of_length_le hfit]
    exact h
  | funcproto literals functions staticmemos =>
    rcases List.mem_append.1 h with h | h
    · exact .inl h
    · exact .inr (.inl (mem_roots_of_refsTable (g.memos_rooted _ ho b h)))
  | closure base function outervalues defaultparams => exact .inl (List.mem_append_left _ h)
  | outer valptr value =>
    cases valptr with
    | none => exact .inl h
    | some p =>
      refine .inr (.inr (.inr ⟨p.1, p.2, value, rfl, ?_⟩))
      simpa [SQSharedState.referencesOf, targets] using h
  | array | table | «class» | generator | nativeclosure | userdata => exact .inl h

theorem markChildren_reachable {a b : Nat} (ha : g.Reachable a) (hb : b ∈ g.markChildren a) :
    g.Reachable b := by
  unfold SQSharedState.markChildren at hb
  cases ho : g.objects[a]? with
  | none =>
    rw [ho] at hb
    exact absurd hb List.not_mem_nil
  | some o =>
    rw [ho] at hb
    rcases mem_references_of_markObject hb with hb | hb
    · apply ha.child
      rw [SQSharedState.references, ho]
      exact hb
    · exact .of_root hb

theorem Marked.reachable {x : Nat} (h : g.Marked x) : g.Reachable x := by
  obtain ⟨r, hr, hrx⟩ := h
  induction hrx with
  | refl => exact .of_root hr
  | tail _ hxy ih => exact markChildren_reachable ih hxy

/-- One reference further from a marked object. -/
theorem OpenOutersMarked.reference (h : g.OpenOutersMarked) {a b : Nat} (ha : g.Marked a)
    (hb : b ∈ g.references a) : g.Marked b := by
  unfold SQSharedState.references at hb
  cases ho : g.objects[a]? with
  | none =>
    rw [ho] at hb
    exact absurd hb List.not_mem_nil
  | some o =>
    rw [ho] at hb
    rcases mem_markObject_of_references (List.mem_of_getElem? ho) hb with hb | hb | hb | hb
    · apply ha.child
      rw [SQSharedState.markChildren, ho]
      exact hb
    · exact .of_root hb
    · obtain ⟨vm, rfl, hlist⟩ := hb
      exact h.lists ha ho b hlist
    · obtain ⟨thread, i, value, rfl, hslot⟩ := hb
      exact h.slots ha ho b hslot

theorem OpenOutersMarked.marked (h : g.OpenOutersMarked) {x : Nat} (hx : g.Reachable x) :
    g.Marked x := by
  obtain ⟨r, hr, hrx⟩ := hx
  induction hrx with
  | refl => exact .of_root hr
  | tail _ hxy ih => exact h.reference ih hxy

/-! ## The collection -/

theorem markChildren_lt {a b : Nat} (hb : b ∈ g.markChildren a) : b < g.objects.length := by
  unfold SQSharedState.markChildren at hb
  cases ho : g.objects[a]? with
  | none =>
    rw [ho] at hb
    exact absurd hb List.not_mem_nil
  | some o =>
    rw [ho] at hb
    rcases mem_references_of_markObject hb with hb | hb
    · exact g.references_lt o (List.mem_of_getElem? ho) b hb
    · exact g.roots_lt b hb

/-- A collection ends, and it finalizes the objects that are not marked. -/
theorem collectGarbage_spec (g : ObjectGraph) :
    ∃ c, g.collectGarbage = some c ∧
      ∀ a, a ∈ c.finalized ↔ a < g.objects.length ∧ ¬ g.Marked a := by
  have hnodup : g.gcChain.Nodup := g.chain_perm.nodup_iff.2 List.nodup_range
  have hmem : ∀ a, a ∈ g.gcChain ↔ a < g.objects.length := fun a => by
    rw [g.chain_perm.mem_iff, List.mem_range]
  obtain ⟨m, hmark, -, hchain⟩ := @markAll_spec _ g.markChildren _
    (Finset.range g.objects.length) (fun a _ b hb => Finset.mem_range.2 (markChildren_lt hb))
    g.roots g.gcChain (g.objects.length + 1) hnodup
    (fun r hr => Finset.mem_range.2 (g.roots_lt r hr))
    (by rw [Finset.card_range]; exact Nat.lt_succ_self _)
  refine ⟨_, congrArg (Option.map _) hmark, ?_⟩
  intro a
  rw [← hmem]
  exact hchain a

theorem collectGarbage_sound_iff (g : ObjectGraph) : g.Sound ↔ g.OpenOutersMarked := by
  obtain ⟨c, hc, hfin⟩ := g.collectGarbage_spec
  constructor
  · rintro ⟨c', hc', hsound⟩
    obtain rfl : c = c' := Option.some.inj (hc.symm.trans hc')
    -- An object that is reached but not marked would be finalized.
    have hmarked : ∀ {a b}, g.Marked a → b ∈ g.references a → g.Marked b := by
      intro a b ha hb
      by_contra hnot
      have hlt : b < g.objects.length := by
        unfold SQSharedState.references at hb
        cases ho : g.objects[a]? with
        | none =>
          rw [ho] at hb
          exact absurd hb List.not_mem_nil
        | some o =>
          rw [ho] at hb
          exact g.references_lt o (List.mem_of_getElem? ho) b hb
      exact hsound b ((hfin b).2 ⟨hlt, hnot⟩) (ha.reachable.child hb)
    constructor
    · intro a thread i value ha ho b hb
      apply hmarked ha
      rw [SQSharedState.references, ho]
      simpa [SQSharedState.referencesOf, targets] using hb
    · intro a vm ha ho o hb
      apply hmarked ha
      rw [SQSharedState.references, ho]
      exact List.mem_append_right _ hb
  · intro h
    refine ⟨c, hc, ?_⟩
    intro a ha hreach
    exact ((hfin a).1 ha).2 (h.marked hreach)

/-! ## What finalizing does to the other objects -/

/-- The object at `x` is as it was, or it is an outer that was open and is now closed over the value
that was in its slot. -/
def Kept (s : SQSharedState) (objects : List SQCollectable) (x : Nat) : Prop :=
  objects[x]? = s.objects[x]? ∨
    ∃ thread i value, s.objects[x]? = some (.outer (some (thread, i)) value) ∧
      objects[x]? = some (.outer none (s.slotValue thread i))

theorem Kept.thread {s : SQSharedState} {objects : List SQCollectable} {a : Nat} {vm : SQVM}
    (h : Kept s objects a) (ha : objects[a]? = some (.thread vm)) :
    s.objects[a]? = some (.thread vm) := by
  rcases h with h | ⟨thread, i, value, -, h⟩
  · exact h.symm.trans ha
  · cases h.symm.trans ha

theorem Kept.closed {s : SQSharedState} {objects : List SQCollectable} {a x : Nat} {vm : SQVM}
    (h : Kept s objects x) (ha : s.objects[a]? = some (.thread vm)) (o : Nat) :
    Kept s (objects.modify o (.closed a vm.stack)) x := by
  have hslot : ∀ i, s.slotValue a i = vm.stack[i]?.getD .plain := by
    intro i
    simp only [SQSharedState.slotValue, ha]
  by_cases hox : o = x
  · subst hox
    unfold Kept
    rw [List.getElem?_modify_eq]
    rcases h with h | ⟨thread, i, value, hold, h⟩
    · rw [h]
      cases hs : s.objects[o]? with
      | none => exact .inl rfl
      | some obj =>
        -- Only an outer that is open in this thread changes.
        simp only [Option.map_eq_map, Option.map_some, SQCollectable.closed]
        split
        · split
          · rename_i heq
            subst heq
            exact .inr ⟨_, _, _, rfl, by rw [hslot]⟩
          · exact .inl rfl
        · exact .inl rfl
    · exact .inr ⟨thread, i, value, hold, by rw [h]; rfl⟩
  · unfold Kept
    rw [List.getElem?_modify_ne _ _ hox]
    exact h

theorem Kept.finalizeAt {s : SQSharedState} {objects : List SQCollectable} {a x : Nat}
    (ha : Kept s objects a) (hx : Kept s objects x) (hne : a ≠ x) :
    Kept s (finalizeAt objects a) x := by
  unfold Gc.finalizeAt
  split
  · rename_i vm hvm
    have hthread := ha.thread hvm
    have hclosed : ∀ (list : List Nat) (os : List SQCollectable), Kept s os x →
        Kept s (list.foldl (fun os o => os.modify o (.closed a vm.stack)) os) x := by
      intro list
      induction list with
      | nil => exact fun os hos => hos
      | cons o list ih => exact fun os hos => ih _ (hos.closed hthread o)
    unfold Kept
    rw [List.getElem?_set_ne hne]
    exact hclosed vm.openouters objects hx
  · unfold Kept
    rw [List.getElem?_modify_ne _ _ hne]
    exact hx
  · exact hx

/-- Whatever the order in which objects are finalized, the others keep what they hold, and closures
the values of their captured variables. -/
theorem kept_of_collectGarbage {c : SQSharedState.Collection} (h : g.collectGarbage = some c)
    {x : Nat} (hx : x ∉ c.finalized) : Kept g.toSQSharedState c.objects x := by
  have hrun : ∀ (list : List Nat) (os : List SQCollectable), list.Nodup →
      (∀ y, y ∈ list ∨ y = x → Kept g.toSQSharedState os y) → x ∉ list →
      Kept g.toSQSharedState (list.foldl Gc.finalizeAt os) x := by
    intro list
    induction list with
    | nil => exact fun os _ hos _ => hos x (.inr rfl)
    | cons a list ih =>
      intro os hnodup hos hx
      obtain ⟨ha, hnodup⟩ := List.nodup_cons.1 hnodup
      apply ih _ hnodup _ fun hmem => hx (List.mem_cons_of_mem _ hmem)
      intro y hy
      have hya : a ≠ y := by
        rintro rfl
        rcases hy with hy | rfl
        · exact ha hy
        · exact hx List.mem_cons_self
      exact (hos a (.inl List.mem_cons_self)).finalizeAt
        (hos y (hy.imp_left (List.mem_cons_of_mem _))) hya
  obtain ⟨m, hmark, rfl⟩ := Option.map_eq_some_iff.1 h
  have hchain : m.chain.Nodup :=
    (marked_foldlM mark_marked (g.chain_perm.nodup_iff.2 List.nodup_range) hmark).nodup
  exact hrun m.chain g.objects hchain (fun _ _ => .inl rfl) hx

/-! ## A captured variable of a thread that only refers to itself

The root table holds a closure, whose outer is open in the suspended thread 5. The local that it
captured holds the table 6; another local of the thread holds the thread itself. -/

/-- A thread that runs nothing. -/
def idleThread (roottable : SQObject) (stack : List SQObject) (openouters : List Nat) : SQVM :=
  ⟨.plain, .plain, .plain, roottable, .plain, stack, [], openouters⟩

/-- A closure that captured a variable of a suspended thread. -/
def suspendedCapture : ObjectGraph where
  objects :=
    [.thread (idleThread (.collectable 1) [] []), .table none [(.plain, .collectable 2)],
      .closure none 3 [.collectable 4] [], .funcproto [] [] [], .outer (some (5, 0)) .plain,
      .thread (idleThread (.collectable 1) [.collectable 6, .collectable 5] [4]), .table none [],
      .table none [], .table none [], .table none [], .table none []] ++
    (List.range 14).map (fun i => .class (some (25 + i)) none [] [] []) ++
    List.replicate 14 (.table none [])
  gcChain := List.range 39
  rootVm := 0
  refsTable := []
  registry := .collectable 7
  consts := .collectable 8
  metamethodsmap := .collectable 9
  builtinClasses := (List.range 14).map fun i => .collectable (11 + i)
  docObjects := .collectable 10
  chain_perm := List.Perm.refl _
  roots_lt := by decide
  references_lt := by decide
  memos_rooted := by decide
  values_fit := by decide

theorem captured_table_finalized :
    (∃ c, suspendedCapture.collectGarbage = some c ∧ c.finalized = [5, 6]) ∧
      suspendedCapture.Reachable 6 ∧ ¬ suspendedCapture.Sound := by
  have hfin : ∃ c, suspendedCapture.collectGarbage = some c ∧ c.finalized = [5, 6] :=
    ⟨_, rfl, rfl⟩
  -- The root VM, the root table, the closure, its outer, and the value in the slot.
  have h0 : suspendedCapture.Reachable 0 := .of_root (by decide)
  have h1 : suspendedCapture.Reachable 1 := h0.child (by decide)
  have h2 : suspendedCapture.Reachable 2 := h1.child (by decide)
  have h4 : suspendedCapture.Reachable 4 := h2.child (by decide)
  have h6 : suspendedCapture.Reachable 6 := h4.child (by decide)
  refine ⟨hfin, h6, ?_⟩
  rintro ⟨c', hc', hsound⟩
  obtain ⟨c, hc, hlist⟩ := hfin
  obtain rfl : c = c' := Option.some.inj (hc.symm.trans hc')
  apply hsound 6 _ h6
  rw [hlist]
  decide

end ObjectGraph

end Quirrel.Gc
