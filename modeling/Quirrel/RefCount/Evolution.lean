import Quirrel.RefCount.Counting

/-!
# What assignments do to the counts

Every operation first writes the new reference, counts it, and releases the old one. In between the counts
are off by the references written and not counted, and by the object that nothing refers to yet. A weak
reference keeps its object as long as the object is there.
-/

set_option autoImplicit false

namespace Quirrel.RefCount

open Lib (Mates)
open Heap (held)

variable {h h' : Heap} {o a w t : Nat} {x y : SQRefCounted} {v old : SQObjectPtr}
variable {refs owed : List SQObjectPtr} {zero : List Nat} {s s' : State}

/-! ## How the objects change over time -/

/-- An object that is gone does not come back, and a weak reference is made null only when its object has
gone. -/
structure Evolves (h h' : Heap) : Prop where
  weak : ∀ w y y' obj, h.get w = some y → y.contents = .weakRef obj → h'.get w = some y' →
    y'.contents = .weakRef obj ∨
      ∃ t, obj = some t ∧ y'.contents = .weakRef none ∧ t < h'.length ∧ h'.get t = none
  gone : ∀ a, a < h.length → h.get a = none → h'.get a = none
  length : h.length ≤ h'.length

namespace Evolves

theorem refl (h : Heap) : Evolves h h :=
  ⟨fun w y y' obj hy hobj hy' => .inl (by rw [hy] at hy'; cases hy'; exact hobj), fun _ _ ha => ha,
    Nat.le_refl _⟩

theorem trans {h'' : Heap} (he : Evolves h h') (he' : Evolves h' h'') : Evolves h h'' where
  weak := fun w y y'' obj hy hobj hy'' => by
    have hlt : w < h'.length := Nat.lt_of_lt_of_le (Heap.lt_of_get hy) he.length
    cases hy' : h'.get w with
    | none =>
      rw [he'.gone w hlt hy'] at hy''
      cases hy''
    | some y' =>
      rcases he.weak w y y' obj hy hobj hy' with hobj' | ⟨t, ht, hnull, htlt, htgone⟩
      · exact he'.weak w y' y'' obj hy' hobj' hy''
      · -- null already
        rcases he'.weak w y' y'' none hy' hnull hy'' with hnull' | ⟨t', ht', -⟩
        · exact .inr ⟨t, ht, hnull', Nat.lt_of_lt_of_le htlt he'.length, he'.gone t htlt htgone⟩
        · cases ht'
  gone := fun a ha hget => he'.gone a (Nat.lt_of_lt_of_le ha he.length) (he.gone a ha hget)
  length := Nat.le_trans he.length he'.length

/-- A weak reference stays one of the same object. -/
theorem put (hx : h.get o = some x) (hc : ∀ obj, x.contents = .weakRef obj → y.contents = .weakRef obj) :
    Evolves h (h.put o y) where
  weak := fun w z z' obj hz hobj hz' => by
    rw [Heap.get_put hx] at hz'
    by_cases hw : w = o
    · subst hw
      rw [if_pos rfl] at hz'
      cases hz'
      rw [hx] at hz
      cases hz
      exact .inl (hc obj hobj)
    · rw [if_neg hw, hz] at hz'
      cases hz'
      exact .inl hobj
  gone := fun a _ ha => by
    have hne : a ≠ o := fun heq => by rw [heq, hx] at ha; cases ha
    rw [Heap.get_put hx, if_neg hne, ha]
  length := Nat.le_of_eq (length_put h o y).symm

theorem snoc (h : Heap) (x : SQRefCounted) : Evolves h (h ++ [some x]) where
  weak := fun w y y' obj hy hobj hy' => by
    rw [Heap.get_snoc, if_neg (Nat.ne_of_lt (Heap.lt_of_get hy)), hy] at hy'
    cases hy'
    exact .inl hobj
  gone := fun a ha hget => by rw [Heap.get_snoc, if_neg (Nat.ne_of_lt ha), hget]
  length := by simp

end Evolves

theorem Released.evolves (hrel : Released h h' []) (hweak : Mates h.weakOf h.objOf) : Evolves h h' where
  weak := fun w y y' obj hy hobj hy' => by
    obtain ⟨z, hz, hcontents⟩ := hrel.kept w y' hy' List.not_mem_nil
    obtain rfl : y = z := Option.some.inj (hy.symm.trans hz)
    rcases hcontents with hsame | ⟨t, ht, hnull, hgone⟩
    · exact .inl (hsame.trans hobj)
    · rw [hobj] at ht
      cases ht
      -- the object was there
      have hlink : h.weakOf t = some w := (hweak t w).mpr (by rw [Heap.objOf_eq hy, hobj]; rfl)
      obtain ⟨z, hz, -⟩ := Option.bind_eq_some_iff.mp hlink
      exact .inr ⟨t, rfl, hnull, hrel.length ▸ Heap.lt_of_get hz, hgone⟩
  gone := fun a _ ha => hrel.gone a ha
  length := Nat.le_of_eq hrel.length.symm

/-- No object loses anything. -/
def Extends (h h' : Heap) : Prop :=
  ∀ a x, h.get a = some x → ∃ x', h'.get a = some x' ∧ x'.contents = x.contents

/-! ## New objects -/

theorem Heap.get_length (h : Heap) : h.get h.length = none := by
  rw [get, List.getElem?_eq_none (Nat.le_refl _)]
  rfl

theorem Heap.held_snoc (h : Heap) (x : SQRefCounted) : held (h ++ [some x]) = h.held ++ x.contents.vals := by
  simp [held]

theorem Heap.weakOf_snoc (h : Heap) (x : SQRefCounted) :
    Heap.weakOf (h ++ [some x]) = Function.update h.weakOf h.length x.weakref := by
  funext a
  rw [weakOf, get_snoc]
  by_cases ha : a = h.length
  · simp [ha]
  · simp [ha, weakOf]

theorem Heap.objOf_snoc (h : Heap) (x : SQRefCounted) :
    Heap.objOf (h ++ [some x]) = Function.update h.objOf h.length x.contents.obj := by
  funext a
  rw [objOf, get_snoc]
  by_cases ha : a = h.length
  · simp [ha]
  · simp [ha, objOf]

theorem Heap.weakOf_length (h : Heap) : h.weakOf h.length = none := by rw [weakOf, get_length]; rfl

theorem Heap.objOf_length (h : Heap) : h.objOf h.length = none := by rw [objOf, get_length]; rfl

theorem extends_snoc (h : Heap) (x : SQRefCounted) : Extends h (h ++ [some x]) := fun a z hz =>
  ⟨z, by rw [Heap.get_snoc, if_neg (Nat.ne_of_lt (Heap.lt_of_get hz)), hz], rfl⟩

/-- A new object is the only one with the count zero. -/
theorem Counts.snoc (hcounts : Counts h refs [] []) (contents : Contents)
    (hvals : ∀ o, contents.vals.count (.ref o) = 0) :
    Counts (h ++ [some ⟨0, none, contents⟩]) refs [] [h.length] where
  counted := fun o => by
    have hcount := hcounts.counted o
    rw [List.count_append] at hcount
    rw [Heap.held_snoc, List.count_append, List.count_append, hvals o, Heap.get_snoc]
    by_cases ho : o = h.length
    · subst ho
      rw [Heap.get_length] at hcount
      simpa using hcount
    · rw [if_neg ho]
      exact hcount
  zero := fun o z hz => by
    rw [Heap.get_snoc] at hz
    by_cases ho : o = h.length
    · rw [if_pos ho] at hz
      cases hz
      simp [ho]
    · rw [if_neg ho] at hz
      have hpos := hcounts.zero o z hz
      simpa [ho] using hpos

/-! ## Writing and counting -/

theorem count_set {vals : List SQObjectPtr} {k : Nat} (hk : vals[k]? = some old) (v : SQObjectPtr)
    (u : SQObjectPtr) : (vals.set k v).count u + [old].count u = vals.count u + [v].count u := by
  induction vals generalizing k with
  | nil => cases hk
  | cons z vals ih =>
    cases k with
    | zero =>
      cases hk
      rw [List.set_cons_zero, List.count_cons, List.count_cons (l := vals), List.count_singleton,
        List.count_singleton]
      omega
    | succ k =>
      have ih' := ih hk
      simp only [List.set_cons_succ, List.count_cons] at ih' ⊢
      omega

/-- The new reference is written, the old one is in the hands of the operation, as those in `refs` are. -/
theorem write_spec {dst : Place} (hinv : Inv s.heap (refs ++ s.slots) owed zero)
    (hread : s.read dst = some old) :
    ∃ s', s.write v dst = some s' ∧ Inv s'.heap (old :: refs ++ s'.slots) (v :: owed) zero ∧
      Evolves s.heap s'.heap ∧ ∀ a x, s.heap.get a = some x → ∃ x', s'.heap.get a = some x' := by
  cases dst with
  | slot i =>
    refine ⟨_, rfl, ⟨⟨fun o => ?_, hinv.zero⟩, hinv.weak⟩, Evolves.refl s.heap, fun a x hx => ⟨x, hx⟩⟩
    have hcount := hinv.counted o
    have hset := count_set hread v (.ref o)
    simp only [List.count_append, List.count_cons, List.count_nil] at hcount hset ⊢
    omega
  | field i k =>
    obtain ⟨u, hu, hread⟩ := Option.bind_eq_some_iff.mp hread
    cases u with
    | null => cases hread
    | scalar n => cases hread
    | ref o =>
      obtain ⟨x, hx, hread⟩ := Option.bind_eq_some_iff.mp hread
      cases hc : x.contents with
      | weakRef obj => rw [hc] at hread; cases hread
      | fields vals =>
        rw [hc] at hread
        have hset := count_set hread v
        have hvals : x.contents.vals = vals := by rw [hc]; rfl
        have hcounts : Counts (s.heap.put o ⟨x.uiRef, x.weakref, .fields (vals.set k v)⟩)
            (old :: refs ++ s.slots) (v :: owed) zero := by
          refine hinv.put hx ?_ (fun a _ => ?_) (hinv.zero o x hx) fun _ _ => Iff.rfl
          · have := hset (.ref o)
            rw [hvals]
            simp only [Contents.vals, List.cons_append, List.count_cons, List.count_nil] at this ⊢
            omega
          · have := hset (.ref a)
            rw [hvals]
            simp only [Contents.vals, List.cons_append, List.count_cons, List.count_nil] at this ⊢
            omega
        have hweak := weak_put (y := ⟨x.uiRef, x.weakref, .fields (vals.set k v)⟩) hinv.weak hx rfl
          (by rw [hc]; rfl)
        have hevolves : Evolves s.heap (s.heap.put o ⟨x.uiRef, x.weakref, .fields (vals.set k v)⟩) :=
          Evolves.put hx fun obj hobj => by rw [hc] at hobj; cases hobj
        refine ⟨_, by simp [State.write, hu, hx, hc]; rfl, ⟨hcounts, hweak⟩, hevolves, fun a z hz => ?_⟩
        rw [Heap.get_put hx]
        split
        · exact ⟨_, rfl⟩
        · exact ⟨z, hz⟩

/-- `__AddRef`: the reference that has been written is counted. -/
theorem addRef_spec (hinv : Inv h refs [v] zero) (hv : ∀ o, v = .ref o → ∃ x, h.get o = some x)
    (hzero : ∀ a ∈ zero, v = .ref a) :
    ∃ h', addRef h v = some h' ∧ Inv h' refs [] [] ∧ Evolves h h' := by
  by_cases href : ∃ o, v = .ref o
  · obtain ⟨o, rfl⟩ := href
    obtain ⟨x, hx⟩ := hv o rfl
    refine ⟨h.put o { x with uiRef := x.uiRef + 1 }, by rw [addRef, hx]; rfl, ⟨?_, weak_put hinv.weak hx rfl rfl⟩,
      Evolves.put hx fun _ hobj => hobj⟩
    refine hinv.put hx ?_ (fun a ha => ?_) (by simp) fun a ha => ?_
    · simp only [List.count_cons_self, List.count_nil]
      omega
    · have hne : SQObjectPtr.ref o ≠ .ref a := fun heq => ha (SQObjectPtr.ref.inj heq).symm
      rw [List.count_cons_of_ne hne]
    · refine ⟨fun hmem => absurd hmem List.not_mem_nil, fun hmem => ?_⟩
      exact absurd (SQObjectPtr.ref.inj (hzero a hmem)).symm ha
  · have hnil : zero = [] := List.eq_nil_iff_forall_not_mem.mpr fun a ha => href ⟨a, hzero a ha⟩
    subst hnil
    have hcount : ∀ o, [v].count (.ref o) = 0 := fun o => by
      rw [List.count_cons_of_ne fun heq => href ⟨o, heq⟩, List.count_nil]
    refine ⟨h, ?_, ⟨⟨fun o => ?_, hinv.zero⟩, hinv.weak⟩, Evolves.refl h⟩
    · cases v with
      | ref o => exact absurd ⟨o, rfl⟩ href
      | null => rfl
      | scalar n => rfl
    · rw [hinv.counted o, hcount o, List.count_nil]

/-- `operator=` of a reference to an object, possibly a new one. -/
theorem assign_spec {dst : Place} (hinv : Inv s.heap s.slots [] zero) (hread : s.read dst = some old)
    (hv : ∀ o, v = .ref o → ∃ x, s.heap.get o = some x) (hzero : ∀ a ∈ zero, v = .ref a) :
    ∃ s', s.assign dst v = some s' ∧ Inv s'.heap s'.slots [] [] ∧ Evolves s.heap s'.heap := by
  obtain ⟨s₁, hwrite, hinv₁, hevolves₁, hthere⟩ := @write_spec v old [] [] zero s dst hinv hread
  obtain ⟨h₂, hadd, hinv₂, hevolves₂⟩ := addRef_spec hinv₁
    (fun o ho => (hv o ho).elim fun x hx => hthere o x hx) hzero
  obtain ⟨h₃, hrelease, hinv₃, -, hrel⟩ := release_spec hinv₂ (Stays.nil h₂ s₁.slots dst)
  refine ⟨⟨h₃, s₁.slots⟩, by simp [State.assign, hread, hwrite, hadd, hrelease], hinv₃, ?_⟩
  exact (hevolves₁.trans hevolves₂).trans (hrel.evolves hinv₂.weak)

end Quirrel.RefCount
