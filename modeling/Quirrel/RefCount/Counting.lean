import Mathlib.Data.List.Count
import Mathlib.Tactic.Basic
import Quirrel.Lib.Mates
import Quirrel.RefCount.Basic

/-!
# What a release leaves behind

`Inv` says that every count is the number of references, where the references still to be released count
too, and that an object and its weak reference know each other. Every step of a release keeps this; at its
end the counts are exact again, and nothing that is still referred to has gone.
-/

set_option autoImplicit false

namespace Quirrel.RefCount

variable {h h' : Heap} {o a b w t : Nat} {x y : SQRefCounted} {v : SQObjectPtr}
variable {refs owed : List SQObjectPtr} {zero : List Nat}

/-! ## Heaps -/

namespace Heap

theorem lt_of_get (hx : h.get o = some x) : o < h.length := by
  by_contra hlt
  rw [get, List.getElem?_eq_none (Nat.le_of_not_lt hlt)] at hx
  cases hx

/-- After a change of one object the others are as before. -/
theorem get_put (hx : h.get o = some x) (y : SQRefCounted) (a : Nat) :
    (h.put o y).get a = if a = o then some y else h.get a := by
  have hlt := lt_of_get hx
  rw [get, put]
  by_cases ha : a = o
  · subst ha
    simp [hlt]
  · rw [if_neg ha, List.getElem?_set_ne (Ne.symm ha)]
    rfl

/-- After an object is freed the others are as before. -/
theorem get_free (hx : h.get o = some x) (a : Nat) :
    (h.free o).get a = if a = o then none else h.get a := by
  have hlt := lt_of_get hx
  rw [get, free]
  by_cases ha : a = o
  · subst ha
    simp [hlt]
  · rw [if_neg ha, List.getElem?_set_ne (Ne.symm ha)]
    rfl

/-- The weak reference of an object. -/
def weakOf (h : Heap) (o : Nat) : Option Nat := (h.get o).bind SQRefCounted.weakref

/-- The object of a weak reference. -/
def objOf (h : Heap) (w : Nat) : Option Nat := (h.get w).bind fun y => y.contents.obj

/-- The weak reference object of an object that is there. -/
theorem weakOf_eq (hx : h.get o = some x) : h.weakOf o = x.weakref := by rw [weakOf, hx]; rfl

/-- The object that a weak reference object names. -/
theorem objOf_eq (hx : h.get o = some x) : h.objOf o = x.contents.obj := by rw [objOf, hx]; rfl

/-- A change of one object changes its weak reference only. -/
theorem weakOf_put (hx : h.get o = some x) (y : SQRefCounted) :
    (h.put o y).weakOf = Function.update h.weakOf o y.weakref := by
  funext a
  rw [weakOf, get_put hx]
  by_cases ha : a = o
  · simp [ha]
  · simp [ha, weakOf]

/-- A change of one weak reference object changes what it names only. -/
theorem objOf_put (hx : h.get o = some x) (y : SQRefCounted) :
    (h.put o y).objOf = Function.update h.objOf o y.contents.obj := by
  funext a
  rw [objOf, get_put hx]
  by_cases ha : a = o
  · simp [ha]
  · simp [ha, objOf]

theorem weakOf_free (hx : h.get o = some x) :
    (h.free o).weakOf = Function.update h.weakOf o none := by
  funext a
  rw [weakOf, get_free hx]
  by_cases ha : a = o
  · simp [ha]
  · simp [ha, weakOf]

theorem objOf_free (hx : h.get o = some x) : (h.free o).objOf = Function.update h.objOf o none := by
  funext a
  rw [objOf, get_free hx]
  by_cases ha : a = o
  · simp [ha]
  · simp [ha, objOf]

/-- A new object at the end. -/
theorem get_snoc (x : SQRefCounted) (a : Nat) :
    Heap.get (h ++ [some x]) a = if a = h.length then some x else h.get a := by
  rw [get, get]
  rcases Nat.lt_trichotomy a h.length with ha | rfl | ha
  · rw [List.getElem?_append_left ha, if_neg (Nat.ne_of_lt ha)]
  · simp
  · rw [List.getElem?_eq_none (by simp; omega), List.getElem?_eq_none (Nat.le_of_lt ha),
      if_neg (Nat.ne_of_gt ha)]

/-- The references in the objects. -/
def held (h : Heap) : List SQObjectPtr := h.flatMap fun x => x.elim [] fun x => x.contents.vals

/-- Exchanging the object at an address exchanges its references. -/
theorem count_held_set (hx : h.get o = some x) (y : Option SQRefCounted) (v : SQObjectPtr) :
    (held (h.set o y)).count v + x.contents.vals.count v =
      h.held.count v + (y.elim [] fun y => y.contents.vals).count v := by
  induction h generalizing o with
  | nil => simp [get] at hx
  | cons z h ih =>
    cases o with
    | zero =>
      obtain rfl : z = some x := by simpa [get] using hx
      simp only [List.set_cons_zero, held, List.flatMap_cons, List.count_append, Option.elim_some]
      omega
    | succ o =>
      have hx' : Heap.get h o = some x := by simpa [get] using hx
      have ih' := ih hx'
      simp only [held] at ih'
      simp only [List.set_cons_succ, held, List.flatMap_cons, List.count_append]
      omega

/-- The measure changes by the weight of the object. -/
theorem size_set (hx : h.get o = some x) (y : Option SQRefCounted) :
    Heap.size (h.set o y) + x.weight = h.size + y.elim 0 SQRefCounted.weight := by
  induction h generalizing o with
  | nil => simp [get] at hx
  | cons z h ih =>
    cases o with
    | zero =>
      obtain rfl : z = some x := by simpa [get] using hx
      simp only [List.set_cons_zero, size, List.map_cons, List.sum_cons, Option.elim_some]
      omega
    | succ o =>
      have hx' : Heap.get h o = some x := by simpa [get] using hx
      have ih' := ih hx'
      simp only [size] at ih'
      simp only [List.set_cons_succ, size, List.map_cons, List.sum_cons]
      omega

end Heap

open Lib (Mates)
open Heap (held)

/-! ## The invariant -/

/-- Every count is the number of references in `refs` and in the objects, but for those in `owed`, which are
not counted yet. The objects in `zero` are those with the count zero. -/
structure Counts (h : Heap) (refs owed : List SQObjectPtr) (zero : List Nat) : Prop where
  counted : ∀ o, (refs ++ h.held).count (.ref o) =
    ((h.get o).elim 0 fun x => x.uiRef) + owed.count (.ref o)
  zero : ∀ o x, h.get o = some x → (x.uiRef = 0 ↔ o ∈ zero)

/-- The counts are right, and an object and its weak reference know each other. -/
structure Inv (h : Heap) (refs owed : List SQObjectPtr) (zero : List Nat) : Prop
    extends Counts h refs owed zero where
  weak : Mates h.weakOf h.objOf

/-- The object is being released: it holds nothing any more. -/
def SQRefCounted.Emptied (x : SQRefCounted) : Prop := x.contents.vals = [] ∧ x.contents.obj = none

/-- The objects in `zero` are being released. -/
structure Dying (h : Heap) (zero : List Nat) : Prop where
  nodup : zero.Nodup
  emptied : ∀ o ∈ zero, ∃ x, h.get o = some x ∧ x.Emptied

/-- What becomes of an object that is not released: nothing, but that a weak reference is null once its object
has gone. -/
def Kept (h h' : Heap) (dying : List Nat) : Prop :=
  ∀ o x', h'.get o = some x' → o ∉ dying → ∃ x, h.get o = some x ∧
    (x'.contents = x.contents ∨
      ∃ t, x.contents = .weakRef (some t) ∧ x'.contents = .weakRef none ∧ h'.get t = none)

namespace Counts

/-- An object that is referred to is there, and its count is not zero. -/
theorem exists_of_mem (hcounts : Counts h refs [] zero) (ho : .ref o ∈ refs ++ h.held) :
    ∃ x, h.get o = some x ∧ 0 < x.uiRef := by
  have hpos := List.count_pos_iff.mpr ho
  have hcount := hcounts.counted o
  cases hx : h.get o with
  | none =>
    rw [hx, Option.elim_none, List.count_nil] at hcount
    omega
  | some x =>
    rw [hx, Option.elim_some, List.count_nil] at hcount
    exact ⟨x, rfl, by omega⟩

/-- The counts do not depend on the order of the references. -/
theorem perm {refs' : List SQObjectPtr} (hcounts : Counts h refs owed zero)
    (hcount : ∀ o, refs'.count (.ref o) = refs.count (.ref o)) : Counts h refs' owed zero where
  counted := fun o => by
    have := hcounts.counted o
    rw [List.count_append] at this ⊢
    rw [hcount o, this]
  zero := hcounts.zero

/-- An object is exchanged: the references to it and those in it change together with its count. -/
theorem put {refs' owed' : List SQObjectPtr} {zero' : List Nat} (hcounts : Counts h refs owed zero)
    (hx : h.get o = some x)
    (hself : refs'.count (.ref o) + y.contents.vals.count (.ref o) + x.uiRef + owed.count (.ref o) =
      refs.count (.ref o) + x.contents.vals.count (.ref o) + y.uiRef + owed'.count (.ref o))
    (hother : ∀ a, a ≠ o →
      refs'.count (.ref a) + y.contents.vals.count (.ref a) + owed.count (.ref a) =
        refs.count (.ref a) + x.contents.vals.count (.ref a) + owed'.count (.ref a))
    (hzero : y.uiRef = 0 ↔ o ∈ zero') (hzero' : ∀ a, a ≠ o → (a ∈ zero' ↔ a ∈ zero)) :
    Counts (h.put o y) refs' owed' zero' where
  counted := fun a => by
    have hcount := hcounts.counted a
    have hheld := Heap.count_held_set hx (some y) (.ref a)
    rw [Option.elim_some] at hheld
    rw [List.count_append] at hcount ⊢
    rw [Heap.get_put hx, Heap.put]
    by_cases ha : a = o
    · subst ha
      rw [hx] at hcount
      simp only [if_true, Option.elim_some] at hcount ⊢
      omega
    · have := hother a ha
      rw [if_neg ha]
      omega
  zero := fun a z hz => by
    rw [Heap.get_put hx] at hz
    by_cases ha : a = o
    · subst ha
      rw [if_pos rfl] at hz
      cases hz
      exact hzero
    · rw [if_neg ha] at hz
      rw [hcounts.zero a z hz, hzero' a ha]

/-- The count and the references of an object stay. -/
theorem put_same (hcounts : Counts h refs owed zero) (hx : h.get o = some x)
    (huiRef : y.uiRef = x.uiRef) (hvals : y.contents.vals = x.contents.vals) :
    Counts (h.put o y) refs owed zero :=
  hcounts.put hx (by rw [huiRef, hvals]) (fun _ _ => by rw [hvals])
    (by rw [huiRef]; exact hcounts.zero o x hx) fun _ _ => Iff.rfl

end Counts

/-- The two pointers of an object and its weak reference stay. -/
theorem weak_put (hweak : Mates h.weakOf h.objOf) (hx : h.get o = some x)
    (hw : y.weakref = x.weakref) (hobj : y.contents.obj = x.contents.obj) :
    Mates (h.put o y).weakOf (h.put o y).objOf := by
  rw [Heap.weakOf_put hx, Heap.objOf_put hx, hw, hobj, ← Heap.weakOf_eq hx, ← Heap.objOf_eq hx,
    Function.update_eq_self, Function.update_eq_self]
  exact hweak

/-! ## The steps of a release -/

/-- What a step of a release does to the rest of the objects. -/
structure Released (h h' : Heap) (dying : List Nat) : Prop where
  kept : Kept h h' dying
  gone : ∀ a, h.get a = none → h'.get a = none
  length : h'.length = h.length

theorem Released.refl (h : Heap) (dying : List Nat) : Released h h dying :=
  ⟨fun _ x hx _ => ⟨x, hx, .inl rfl⟩, fun _ ha => ha, rfl⟩

/-- A later step may make null what an earlier one has kept. -/
theorem Released.trans {h'' : Heap} {dying dying' : List Nat} (hr : Released h h' dying)
    (hr' : Released h' h'' dying')
    (hsub : ∀ o x, h''.get o = some x → o ∉ dying' → o ∉ dying) : Released h h'' dying' where
  kept := fun o x'' hx'' ho => by
    obtain ⟨x', hx', hc'⟩ := hr'.kept o x'' hx'' ho
    obtain ⟨x, hx, hc⟩ := hr.kept o x' hx' (hsub o x'' hx'' ho)
    refine ⟨x, hx, ?_⟩
    rcases hc' with hc' | ⟨t, ht, hnull, hget⟩
    · rcases hc with hc | ⟨t, ht, hnull, hget⟩
      · exact .inl (hc'.trans hc)
      · exact .inr ⟨t, ht, hc'.trans hnull, hr'.gone t hget⟩
    · rcases hc with hc | ⟨t', ht', hnull', hget'⟩
      · exact .inr ⟨t, hc ▸ ht, hnull, hget⟩
      · rw [hnull'] at ht
        cases ht
  gone := fun a ha => hr'.gone a (hr.gone a ha)
  length := hr'.length.trans hr.length

theorem length_put (h : Heap) (o : Nat) (x : SQRefCounted) : (h.put o x).length = h.length :=
  List.length_set

/-- Objects keep their contents where only counts and pointers change. -/
theorem Dying.mono (hd : Dying h zero)
    (hsame : ∀ a ∈ zero, ∀ x, h.get a = some x → ∃ x', h'.get a = some x' ∧ x'.contents = x.contents) :
    Dying h' zero where
  nodup := hd.nodup
  emptied := fun a ha => by
    obtain ⟨x, hx, hempty⟩ := hd.emptied a ha
    obtain ⟨x', hx', hc⟩ := hsame a ha x hx
    exact ⟨x', hx', by rw [SQRefCounted.Emptied, hc]; exact hempty⟩

theorem Dying.put (hd : Dying h zero) (hx : h.get o = some x) (hc : y.contents = x.contents) :
    Dying (h.put o y) zero := by
  refine hd.mono fun a _ z hz => ?_
  rw [Heap.get_put hx]
  by_cases ha : a = o
  · subst ha
    obtain rfl : x = z := Option.some.inj (hx.symm.trans hz)
    exact ⟨y, if_pos rfl, hc⟩
  · exact ⟨z, by rw [if_neg ha]; exact hz, rfl⟩

theorem Dying.cons (hd : Dying h zero) (hx : h.get o = some x) (hnot : o ∉ zero) (hy : y.Emptied) :
    Dying (h.put o y) (o :: zero) where
  nodup := List.nodup_cons.mpr ⟨hnot, hd.nodup⟩
  emptied := fun a ha => by
    rw [Heap.get_put hx]
    by_cases hao : a = o
    · exact ⟨y, if_pos hao, hy⟩
    · rw [if_neg hao]
      exact hd.emptied a ((List.mem_cons.mp ha).resolve_left hao)

theorem released_put {dying : List Nat} (hx : h.get o = some x)
    (hc : o ∉ dying → y.contents = x.contents) : Released h (h.put o y) dying := by
  refine ⟨fun a z hz ha => ?_, fun a ha => ?_, length_put h o y⟩
  swap
  · have hne : a ≠ o := fun heq => by rw [heq, hx] at ha; cases ha
    rw [Heap.get_put hx, if_neg hne, ha]
  rw [Heap.get_put hx] at hz
  by_cases hao : a = o
  · subst hao
    rw [if_pos rfl] at hz
    cases hz
    exact ⟨x, hx, .inl (hc ha)⟩
  · rw [if_neg hao] at hz
    exact ⟨z, hz, .inl rfl⟩

/-- A change that keeps the weight keeps the measure. -/
theorem size_put (hx : h.get o = some x) (hw : y.weight = x.weight) : (h.put o y).size = h.size := by
  have hsize := Heap.size_set hx (some y)
  rw [Option.elim_some, hw] at hsize
  exact Nat.add_right_cancel hsize

/-- The other objects keep their references. -/
def Spares (h h' : Heap) (o : Nat) : Prop :=
  ∀ a, a ≠ o → ∀ x, h.get a = some x → ∃ x', h'.get a = some x' ∧ x'.contents.vals = x.contents.vals

theorem Spares.trans {h'' : Heap} (hs : Spares h h' o) (hs' : Spares h' h'' o) : Spares h h'' o :=
  fun a ha x hx => by
    obtain ⟨x', hx', hvals⟩ := hs a ha x hx
    obtain ⟨x'', hx'', hvals'⟩ := hs' a ha x' hx'
    exact ⟨x'', hx'', hvals'.trans hvals⟩

/-- A change of another object spares the values of this one. -/
theorem spares_put (hx : h.get t = some x) (hvals : t ≠ o → y.contents.vals = x.contents.vals) :
    Spares h (h.put t y) o := fun a ha z hz => by
  rw [Heap.get_put hx]
  by_cases hat : a = t
  · subst hat
    obtain rfl : x = z := Option.some.inj (hx.symm.trans hz)
    exact ⟨y, if_pos rfl, hvals ha⟩
  · exact ⟨z, by rw [if_neg hat, hz], rfl⟩

/-- The others keep their references when an object is freed. -/
theorem spares_free (hx : h.get o = some x) : Spares h (h.free o) o := fun a ha z hz =>
  ⟨z, by rw [Heap.get_free hx, if_neg ha, hz], rfl⟩

/-- The object is emptied and its count is zero; its references are left to be released. -/
theorem Counts.emptied (hcounts : Counts h (.ref o :: refs) owed zero) (hdying : Dying h zero)
    (hx : h.get o = some x) (hone : x.uiRef = 1) (hzero : y.uiRef = 0) (hy : y.Emptied) :
    Counts (h.put o y) (x.contents.vals ++ refs) owed (o :: zero) ∧ Dying (h.put o y) (o :: zero) ∧
      Released h (h.put o y) (o :: zero) ∧
      (h.put o y).size + x.contents.vals.length + 1 = h.size := by
  have hnot : o ∉ zero := fun hmem => by
    have := (hcounts.zero o x hx).mpr hmem
    omega
  refine ⟨hcounts.put hx ?_ (fun a ha => ?_) (by simp [hzero]) (fun a ha => by simp [ha]),
    hdying.cons hx hnot hy, released_put hx fun h => absurd List.mem_cons_self h, ?_⟩
  · rw [hy.1, hone, hzero, List.count_append, List.count_cons_self]
    simp only [List.count_nil]
    omega
  · have hne : SQObjectPtr.ref o ≠ .ref a := fun heq => ha (SQObjectPtr.ref.inj heq).symm
    rw [hy.1, List.count_append, List.count_cons_of_ne hne]
    simp only [List.count_nil]
    omega
  · have hsize := Heap.size_set hx (some y)
    have hwx : x.weight = x.contents.vals.length + 1 := by rw [SQRefCounted.weight, if_neg (by omega)]
    have hwy : y.weight = 0 := if_pos hzero
    rw [Option.elim_some, hwx, hwy] at hsize
    rw [Heap.put]
    omega

/-- The count of an object comes to zero. -/
theorem beginRelease_spec (hinv : Inv h (.ref o :: refs) owed zero) (hdying : Dying h zero)
    (hx : h.get o = some x) (hone : x.uiRef = 1) :
    ∃ h' vals, beginRelease h o x = some (h', vals) ∧ Inv h' (vals ++ refs) owed (o :: zero) ∧
      Dying h' (o :: zero) ∧ Released h h' (o :: zero) ∧ Spares h h' o ∧
      h'.size + vals.length + 1 = h.size := by
  rw [beginRelease]
  cases hc : x.contents with
  | fields vals =>
    have hvals : x.contents.vals = vals := by rw [hc]; rfl
    have hweak := weak_put (y := ⟨0, x.weakref, .fields []⟩) hinv.weak hx rfl (by rw [hc]; rfl)
    obtain ⟨hcounts, hdying', hrel, hsize⟩ := hinv.emptied (y := ⟨0, x.weakref, .fields []⟩) hdying hx
      hone rfl ⟨rfl, rfl⟩
    rw [hvals] at hcounts hsize
    exact ⟨_, vals, rfl, ⟨hcounts, hweak⟩, hdying', hrel, spares_put hx fun hne => absurd rfl hne, hsize⟩
  | weakRef obj =>
    have hvals : x.contents.vals = [] := by rw [hc]; rfl
    have hobj : h.objOf o = obj := by rw [Heap.objOf_eq hx, hc]; rfl
    obtain ⟨hcounts, hdying', hrel, hsize⟩ := hinv.emptied (y := ⟨0, x.weakref, .weakRef none⟩) hdying hx
      hone rfl ⟨rfl, rfl⟩
    rw [hvals] at hcounts hsize
    cases obj with
    | none =>
      have hweak := weak_put (y := ⟨0, x.weakref, .weakRef none⟩) hinv.weak hx rfl (by rw [hc])
      exact ⟨_, [], rfl, ⟨hcounts, hweak⟩, hdying', hrel, spares_put hx fun hne => absurd rfl hne, hsize⟩
    | some t =>
      -- the object of the weak reference loses it
      have hlink : h.weakOf t = some o := (hinv.weak t o).mpr hobj
      have hlt : ∃ z, (h.put o ⟨0, x.weakref, .weakRef none⟩).get t = some z := by
        obtain ⟨z, hz, -⟩ := Option.bind_eq_some_iff.mp hlink
        rw [Heap.get_put hx]
        split
        · exact ⟨_, rfl⟩
        · exact ⟨z, hz⟩
      obtain ⟨z, hz⟩ := hlt
      have hmates : Mates ((h.put o ⟨0, x.weakref, .weakRef none⟩).put t ⟨z.uiRef, none, z.contents⟩).weakOf
          ((h.put o ⟨0, x.weakref, .weakRef none⟩).put t ⟨z.uiRef, none, z.contents⟩).objOf := by
        rw [Heap.weakOf_put hz, Heap.objOf_put hz, ← Heap.objOf_eq hz, Function.update_eq_self,
          Heap.weakOf_put hx, Heap.objOf_put hx, ← Heap.weakOf_eq hx, Function.update_eq_self]
        exact hinv.weak.unlink hlink
      have hcounts' := hcounts.put_same (y := ⟨z.uiRef, none, z.contents⟩) hz rfl rfl
      refine ⟨_, [], ?_, ⟨hcounts', hmates⟩, hdying'.put hz rfl, ?_, ?_, ?_⟩
      · dsimp only
        rw [hz]
        rfl
      · exact hrel.trans (released_put hz fun _ => rfl) fun _ _ _ ha => ha
      · exact (spares_put hx fun hne => absurd rfl hne).trans (spares_put hz fun _ => rfl)
      · rw [size_put (y := ⟨z.uiRef, none, z.contents⟩) hz rfl]
        exact hsize

/-- An object without references that holds nothing goes without a change of counts. -/
theorem Counts.free (hcounts : Counts h refs owed (o :: zero)) (hx : h.get o = some x)
    (hvals : x.contents.vals = []) (hnot : o ∉ zero) : Counts (h.free o) refs owed zero where
  counted := fun a => by
    have hcount := hcounts.counted a
    have hheld := Heap.count_held_set hx none (.ref a)
    rw [hvals, Option.elim_none] at hheld
    rw [List.count_append] at hcount ⊢
    rw [Heap.get_free hx, Heap.free]
    simp only [List.count_nil] at hheld hcount ⊢
    by_cases ha : a = o
    · subst ha
      have hzero : x.uiRef = 0 := (hcounts.zero a x hx).mpr List.mem_cons_self
      rw [hx, Option.elim_some] at hcount
      rw [if_pos rfl, Option.elim_none]
      omega
    · rw [if_neg ha]
      omega
  zero := fun a z hz => by
    rw [Heap.get_free hx] at hz
    by_cases ha : a = o
    · rw [if_pos ha] at hz
      cases hz
    · rw [if_neg ha] at hz
      rw [hcounts.zero a z hz, List.mem_cons, or_iff_right ha]

/-- An object without references weighs nothing. -/
theorem size_free (hx : h.get o = some x) (hzero : x.uiRef = 0) : (h.free o).size = h.size := by
  have hsize := Heap.size_set hx none
  have hw : x.weight = 0 := if_pos hzero
  rw [Option.elim_none, hw] at hsize
  exact hsize

/-- A freed object is one that was dying. -/
theorem released_free {dying : List Nat} (hx : h.get o = some x) : Released h (h.free o) dying where
  kept := fun a z hz _ => by
    rw [Heap.get_free hx] at hz
    split at hz
    · cases hz
    · exact ⟨z, hz, .inl rfl⟩
  gone := fun a ha => by
    rw [Heap.get_free hx, ha, ite_self]
  length := List.length_set

theorem Dying.free (hd : Dying h (o :: zero)) (hx : h.get o = some x) : Dying (h.free o) zero where
  nodup := (List.nodup_cons.mp hd.nodup).2
  emptied := fun a ha => by
    have hne : a ≠ o := fun heq => (List.nodup_cons.mp hd.nodup).1 (heq ▸ ha)
    rw [Heap.get_free hx, if_neg hne]
    exact hd.emptied a (List.mem_cons_of_mem o ha)

theorem update_none {f : Nat → Option Nat} (ha : f a = none) : Function.update f a none = f := by
  conv_rhs => rw [← Function.update_eq_self a f, ha]

/-- The memory of an object that is being released is given back. -/
theorem delete_spec (hinv : Inv h refs owed (o :: zero)) (hdying : Dying h (o :: zero)) :
    ∃ h', delete h o = some h' ∧ Inv h' refs owed zero ∧ Dying h' zero ∧ Released h h' zero ∧
      Spares h h' o ∧ h'.size = h.size ∧ h'.get o = none := by
  obtain ⟨x, hx, hvals, hobj⟩ := hdying.emptied o List.mem_cons_self
  have hzero : x.uiRef = 0 := (hinv.zero o x hx).mpr List.mem_cons_self
  have hnot := (List.nodup_cons.mp hdying.nodup).1
  have hobj' : h.objOf o = none := by rw [Heap.objOf_eq hx, hobj]
  rw [delete, hx]
  cases hw : x.weakref with
  | none =>
    have hweak' : h.weakOf o = none := by rw [Heap.weakOf_eq hx, hw]
    refine ⟨h.free o, by simp [hw], ⟨hinv.free hx hvals hnot, ?_⟩, hdying.free hx, released_free hx,
      spares_free hx, size_free hx hzero, by rw [Heap.get_free hx, if_pos rfl]⟩
    rw [Heap.weakOf_free hx, Heap.objOf_free hx, update_none hweak', update_none hobj']
    exact hinv.weak
  | some w =>
    have hlink : h.weakOf o = some w := by rw [Heap.weakOf_eq hx, hw]
    obtain ⟨y, hy, hyo⟩ := Option.bind_eq_some_iff.mp ((hinv.weak o w).mp hlink)
    have hcy : y.contents = .weakRef (some o) := by
      cases hc : y.contents with
      | fields vals => rw [hc] at hyo; cases hyo
      | weakRef obj => rw [hc] at hyo; exact congrArg Contents.weakRef hyo
    have hne : o ≠ w := fun heq => by
      subst heq
      rw [hx] at hy
      cases hy
      rw [hobj] at hyo
      cases hyo
    -- the weak reference is null before the memory is given back
    have hyv : (⟨y.uiRef, y.weakref, .weakRef none⟩ : SQRefCounted).contents.vals = y.contents.vals := by
      rw [hcy]; rfl
    have hx' : (h.put w ⟨y.uiRef, y.weakref, .weakRef none⟩).get o = some x := by
      rw [Heap.get_put hy, if_neg hne, hx]
    have hcounts := (hinv.put_same (y := ⟨y.uiRef, y.weakref, .weakRef none⟩) hy rfl hyv).free hx' hvals hnot
    have hdying' : Dying (h.put w ⟨y.uiRef, y.weakref, .weakRef none⟩) (o :: zero) := by
      refine ⟨hdying.nodup, fun a ha => ?_⟩
      rw [Heap.get_put hy]
      by_cases haw : a = w
      · exact ⟨_, if_pos haw, rfl, rfl⟩
      · rw [if_neg haw]
        exact hdying.emptied a ha
    refine ⟨(h.put w ⟨y.uiRef, y.weakref, .weakRef none⟩).free o, by simp [hw, hy], ⟨hcounts, ?_⟩,
      hdying'.free hx', ⟨fun a z hz ha => ?_, fun a ha => ?_, ?_⟩, (spares_put hy fun _ => hyv).trans
      (spares_free hx'), ?_, by rw [Heap.get_free hx', if_pos rfl]⟩
    · rw [Heap.weakOf_free hx', Heap.objOf_free hx', Heap.weakOf_put hy, Heap.objOf_put hy,
        ← Heap.weakOf_eq hy, Function.update_eq_self]
      have hnone : Function.update h.objOf w none o = none := by
        rw [Function.update_of_ne hne, hobj']
      show Mates _ (Function.update (Function.update h.objOf w none) o none)
      rw [update_none hnone]
      exact hinv.weak.unlink hlink
    · -- only the weak reference has changed, and its object has gone
      have hao : a ≠ o := fun heq => by rw [heq, Heap.get_free hx', if_pos rfl] at hz; cases hz
      rw [Heap.get_free hx', if_neg hao, Heap.get_put hy] at hz
      by_cases haw : a = w
      · subst haw
        rw [if_pos rfl] at hz
        cases hz
        exact ⟨y, hy, .inr ⟨o, hcy, rfl, by rw [Heap.get_free hx', if_pos rfl]⟩⟩
      · rw [if_neg haw] at hz
        exact ⟨z, hz, .inl rfl⟩
    · have haw : a ≠ w := fun heq => by rw [heq, hy] at ha; cases ha
      rw [Heap.get_free hx', Heap.get_put hy, if_neg haw, ha, ite_self]
    · rw [Heap.free, List.length_set, length_put]
    · have hwy : (⟨y.uiRef, y.weakref, .weakRef none⟩ : SQRefCounted).weight = y.weight := by
        rw [SQRefCounted.weight, SQRefCounted.weight, hyv]
      rw [size_free hx' hzero, size_put hy hwy]

/-! ## A whole release -/

/-- The references that are left to release. -/
def releases (tasks : List Task) : List SQObjectPtr :=
  tasks.filterMap fun task => match task with
    | .release v => some v
    | .delete _ => none

/-- The objects whose destructors have begun. -/
def deletes (tasks : List Task) : List Nat :=
  tasks.filterMap fun task => match task with
    | .release _ => none
    | .delete o => some o

/-- The values of an object are released before it is deleted. -/
theorem releases_begin (vals : List SQObjectPtr) (o : Nat) (tasks : List Task) :
    releases (vals.map .release ++ .delete o :: tasks) = vals ++ releases tasks := by
  simp [releases, List.filterMap_map]

/-- The deletion of an object stays due while its values are released. -/
theorem deletes_begin (vals : List SQObjectPtr) (o : Nat) (tasks : List Task) :
    deletes (vals.map .release ++ .delete o :: tasks) = o :: deletes tasks := by
  simp [deletes, List.filterMap_map]

/-- One reference less to an object that others refer to as well. -/
theorem Counts.decrement {n : Nat} (hcounts : Counts h (.ref o :: refs) owed zero) (hx : h.get o = some x)
    (hn : x.uiRef = n + 2) : Counts (h.put o { x with uiRef := n + 1 }) refs owed zero := by
  have hnot : o ∉ zero := fun hmem => by
    have := (hcounts.zero o x hx).mpr hmem
    omega
  refine hcounts.put hx ?_ (fun a ha => ?_) (by simp [hnot]) fun _ _ => Iff.rfl
  · rw [List.count_cons_self]
    dsimp only
    omega
  · have hne : SQObjectPtr.ref o ≠ .ref a := fun heq => ha (SQObjectPtr.ref.inj heq).symm
    rw [List.count_cons_of_ne hne]

/-- A value that is not a reference is not counted. -/
theorem Counts.skip (hcounts : Counts h (v :: refs) owed zero) (hv : ∀ o, v ≠ .ref o) :
    Counts h refs owed zero :=
  hcounts.perm fun o => (List.count_cons_of_ne (hv o)).symm

/-- What is no reference needs no release. -/
theorem work_skip (fuel : Nat) (h : Heap) (tasks : List Task) (hv : ∀ o, v ≠ .ref o) :
    work (fuel + 1) h (.release v :: tasks) = work fuel h tasks := by
  cases v with
  | ref o => exact absurd rfl (hv o)
  | null => rw [work]; nofun
  | scalar n => rw [work]; nofun

/-! ### A reference that is released in its place -/

/-- The values of an object are held by the heap. -/
theorem Heap.mem_held (hx : h.get o = some x) (hv : v ∈ x.contents.vals) : v ∈ h.held := by
  rw [get, Option.join_eq_some_iff] at hx
  exact List.mem_flatMap.mpr ⟨some x, List.mem_of_getElem? hx, hv⟩

/-- A field is read through a reference in a slot. -/
theorem read_field_iff {i k : Nat} :
    State.read ⟨h, refs⟩ (.field i k) = some v ↔
      ∃ a x, refs[i]? = some (.ref a) ∧ h.get a = some x ∧ x.contents.vals[k]? = some v := by
  constructor
  · intro hread
    obtain ⟨u, hu, hread⟩ := Option.bind_eq_some_iff.mp hread
    cases u with
    | null => cases hread
    | scalar n => cases hread
    | ref a =>
      obtain ⟨x, hx, hread⟩ := Option.bind_eq_some_iff.mp hread
      cases hc : x.contents with
      | weakRef obj => rw [hc] at hread; cases hread
      | fields vals =>
        rw [hc] at hread
        exact ⟨a, x, hu, hx, by rw [hc]; exact hread⟩
  · rintro ⟨a, x, hu, hx, hk⟩
    cases hc : x.contents with
    | weakRef obj => rw [hc] at hk; cases hk
    | fields vals =>
      rw [hc] at hk
      simp only [State.read, hu, hx, hc, Option.bind_eq_bind, Option.bind_some]
      exact hk

/-- The reference that is not counted any more, if any, is still where it was. -/
structure Stays (h : Heap) (refs owed : List SQObjectPtr) (dst : Place) : Prop where
  length : owed.length ≤ 1
  read : ∀ v ∈ owed, State.read ⟨h, refs⟩ dst = some v

namespace Stays

variable {rest : List SQObjectPtr} {dst : Place}

theorem nil (h : Heap) (refs : List SQObjectPtr) (dst : Place) : Stays h refs [] dst :=
  ⟨Nat.zero_le 1, nofun⟩

theorem mem_held {i k : Nat} (hstays : Stays h refs owed (.field i k)) (hv : v ∈ owed) : v ∈ h.held := by
  obtain ⟨a, x, -, hx, hk⟩ := read_field_iff.mp (hstays.read v hv)
  exact Heap.mem_held hx (List.mem_of_getElem? hk)

theorem count_le_of_mem {l : List SQObjectPtr} (hstays : Stays h refs owed dst) (hmem : ∀ u ∈ owed, u ∈ l)
    (u : SQObjectPtr) : owed.count u ≤ l.count u := by
  by_cases hu : u ∈ owed
  · have hle : owed.count u ≤ 1 := Nat.le_trans List.count_le_length hstays.length
    exact Nat.le_trans hle (List.count_pos_iff.mpr (hmem u hu))
  · rw [List.count_eq_zero.mpr hu]
    exact Nat.zero_le _

/-- What is left to be released is there. -/
theorem exists_of_mem (hstays : Stays h refs owed dst) (hcounts : Counts h (rest ++ refs) owed zero)
    (hmem : .ref a ∈ rest) : ∃ x, h.get a = some x ∧ 0 < x.uiRef := by
  have hle : owed.count (.ref a) ≤ (refs ++ h.held).count (.ref a) := by
    refine hstays.count_le_of_mem (fun u hu => ?_) _
    cases dst with
    | slot i => exact List.mem_append_left _ (List.mem_of_getElem? (hstays.read u hu))
    | field i k => exact List.mem_append_right _ (hstays.mem_held hu)
  have hcount := hcounts.counted a
  have hpos := List.count_pos_iff.mpr hmem
  rw [List.append_assoc, List.count_append] at hcount
  cases hx : h.get a with
  | none =>
    rw [hx, Option.elim_none] at hcount
    omega
  | some x =>
    rw [hx, Option.elim_some] at hcount
    exact ⟨x, rfl, by omega⟩

/-- The object that the reference is in is counted for its slot, beside what is left to be released. -/
theorem count_lt {i k : Nat} (hstays : Stays h refs owed (.field i k))
    (hcounts : Counts h (rest ++ refs) owed zero) (ha : refs[i]? = some (.ref a)) (hx : h.get a = some x) :
    rest.count (.ref a) < x.uiRef := by
  have hle := hstays.count_le_of_mem (fun u hu => hstays.mem_held hu) (.ref a)
  have hpos := List.count_pos_iff.mpr (List.mem_of_getElem? ha)
  have hcount := hcounts.counted a
  rw [hx, Option.elim_some, List.count_append, List.count_append] at hcount
  omega

/-- A step of a release leaves the reference in its place. -/
theorem step (hstays : Stays h refs owed dst) (hcounts : Counts h (rest ++ refs) owed zero)
    (hx : h.get o = some x) (hle : x.uiRef ≤ rest.count (.ref o)) (hspares : Spares h h' o) :
    Stays h' refs owed dst where
  length := hstays.length
  read := fun v hv => by
    have hread := hstays.read v hv
    cases dst with
    | slot i => exact hread
    | field i k =>
      obtain ⟨a, z, ha, hz, hk⟩ := read_field_iff.mp hread
      have hne : a ≠ o := fun heq => by
        subst heq
        exact absurd (hstays.count_lt hcounts ha hx) (Nat.not_lt.mpr hle)
      obtain ⟨z', hz', hvals⟩ := hspares a hne z hz
      exact read_field_iff.mpr ⟨a, z', ha, hz', by rw [hvals, hk]⟩

theorem put (hstays : Stays h refs owed dst) (hx : h.get o = some x)
    (hvals : y.contents.vals = x.contents.vals) : Stays (h.put o y) refs owed dst where
  length := hstays.length
  read := fun v hv => by
    have hread := hstays.read v hv
    cases dst with
    | slot i => exact hread
    | field i k =>
      obtain ⟨a, z, ha, hz, hk⟩ := read_field_iff.mp hread
      -- no object of the address at the end of the heap
      obtain ⟨z', hz', hvals'⟩ := spares_put (o := h.length) hx (fun _ => hvals) a
        (Nat.ne_of_lt (Heap.lt_of_get hz)) z hz
      exact read_field_iff.mpr ⟨a, z', ha, hz', by rw [hvals', hk]⟩

end Stays

/-- A release ends, with exact counts, and the objects whose destructors had begun are gone. -/
theorem work_spec (fuel : Nat) {h : Heap} {tasks : List Task} {dst : Place}
    (hinv : Inv h (releases tasks ++ refs) owed (deletes tasks)) (hstays : Stays h refs owed dst)
    (hdying : Dying h (deletes tasks)) (hfuel : h.size + tasks.length ≤ fuel) :
    ∃ h', work fuel h tasks = some h' ∧ Inv h' refs owed [] ∧ Stays h' refs owed dst ∧ Released h h' [] ∧
      ∀ a ∈ deletes tasks, h'.get a = none := by
  induction fuel generalizing h tasks with
  | zero =>
    obtain rfl : tasks = [] := List.eq_nil_of_length_eq_zero (by omega)
    exact ⟨h, by rw [work], hinv, hstays, Released.refl h [], fun a ha => by cases ha⟩
  | succ fuel ih =>
    cases tasks with
    | nil => exact ⟨h, by rw [work], hinv, hstays, Released.refl h [], fun a ha => by cases ha⟩
    | cons task tasks =>
      rw [List.length_cons] at hfuel
      -- the tasks in the order of the cascade: finish an emptied object, or release a value
      cases task with
      | delete o =>
        obtain ⟨x, hx, -⟩ := hdying.emptied o List.mem_cons_self
        have hzero : x.uiRef = 0 := (hinv.zero o x hx).mpr List.mem_cons_self
        obtain ⟨h₁, hdelete, hinv₁, hdying₁, hrel₁, hspares, hsize₁, hgone₁⟩ := delete_spec hinv hdying
        have hstays₁ := hstays.step hinv.toCounts hx (by rw [hzero]; exact Nat.zero_le _) hspares
        obtain ⟨h', hwork, hinv', hstays', hrel, hgone⟩ := ih hinv₁ hstays₁ hdying₁ (by omega)
        refine ⟨h', by rw [work, hdelete]; exact hwork, hinv', hstays', ?_, fun a ha => ?_⟩
        · refine hrel₁.trans hrel fun a x hx _ ha => ?_
          rw [hgone a ha] at hx
          cases hx
        · rcases List.mem_cons.mp ha with rfl | ha
          · exact hrel.gone a hgone₁
          · exact hgone a ha
      | release v =>
        -- a scalar has no count
        by_cases hv : ∃ o, v = .ref o
        case neg =>
          have hv' : ∀ o, v ≠ .ref o := fun o ho => hv ⟨o, ho⟩
          rw [work_skip fuel h tasks hv']
          exact ih ⟨hinv.skip hv', hinv.weak⟩ hstays hdying (by omega)
        obtain ⟨o, rfl⟩ := hv
        obtain ⟨x, hx, hpos⟩ := hstays.exists_of_mem hinv.toCounts (a := o) List.mem_cons_self
        rw [work, hx]
        -- the last reference starts the release of the contents, any other only lowers the count
        match hn : x.uiRef with
        | 0 => omega
        | 1 =>
          obtain ⟨h₁, vals, hbegin, hinv₁, hdying₁, hrel₁, hspares, hsize₁⟩ :=
            beginRelease_spec hinv hdying hx hn
          have hstays₁ := hstays.step hinv.toCounts hx
            (by rw [hn]; exact List.count_pos_iff.mpr List.mem_cons_self) hspares
          obtain ⟨h', hwork, hinv', hstays', hrel, hgone⟩ := @ih h₁ (vals.map .release ++ .delete o :: tasks)
            (by rw [releases_begin, deletes_begin, List.append_assoc]; exact hinv₁) hstays₁
            (by rw [deletes_begin]; exact hdying₁) (by simp; omega)
          rw [deletes_begin] at hgone
          refine ⟨h', by simp [hn, hbegin, hwork], hinv', hstays', ?_,
            fun a ha => hgone a (List.mem_cons_of_mem o ha)⟩
          refine hrel₁.trans hrel fun a z hz _ ha => ?_
          rw [hgone a ha] at hz
          cases hz
        | n + 2 =>
          have hinv₁ : Inv (h.put o { x with uiRef := n + 1 }) (releases tasks ++ refs) owed (deletes tasks) :=
            ⟨hinv.decrement hx hn, weak_put hinv.weak hx rfl rfl⟩
          have hw : SQRefCounted.weight { x with uiRef := n + 1 } = x.weight := by
            rw [SQRefCounted.weight, SQRefCounted.weight, if_neg (by simp), if_neg (by omega)]
          obtain ⟨h', hwork, hinv', hstays', hrel, hgone⟩ := ih hinv₁ (hstays.put hx rfl)
            (hdying.put hx rfl) (by rw [size_put hx hw]; omega)
          refine ⟨h', by simp [hn, hwork], hinv', hstays', ?_, hgone⟩
          exact (released_put (y := ⟨n + 1, x.weakref, x.contents⟩) hx fun _ => rfl).trans hrel fun _ _ _ ha => ha

/-- `__Release` of a reference, possibly while it is still in its place. -/
theorem release_spec {dst : Place} (hinv : Inv h (v :: refs) owed []) (hstays : Stays h refs owed dst) :
    ∃ h', release h v = some h' ∧ Inv h' refs owed [] ∧ Stays h' refs owed dst ∧ Released h h' [] := by
  have hdying : Dying h [] := ⟨List.nodup_nil, fun a ha => by cases ha⟩
  obtain ⟨h', hwork, hinv', hstays', hrel, -⟩ :=
    @work_spec refs owed (h.size + 1) h [.release v] dst hinv hstays hdying (by simp)
  exact ⟨h', hwork, hinv', hstays', hrel⟩

end Quirrel.RefCount
