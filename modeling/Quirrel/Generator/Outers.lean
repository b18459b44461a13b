import Mathlib.Logic.Function.Basic
import Mathlib.Data.List.Pairwise

set_option autoImplicit false

/-!
# Outers

A captured local is reached through an `SQOuter`. While the frame of the local is on the stack the
outer is open and points at the local's slot; `CloseOuters` moves the value into the outer. The VM
lists its open outers by falling slot, and `FindOuter` gives every capture of one slot the same
outer.
-/

namespace Quirrel.Generator

variable {V : Type}

/-- `valptr` is the stack slot that `_valptr` points at, or `none` where it points at `_value`. -/
structure SQOuter (V : Type) where
  valptr : Option Nat
  value : V

/-- What `CloseOuters` does to an outer that it reaches, by the slot it points at. -/
def SQOuter.closed (stack : Nat → V) (stackindex : Nat) (o : SQOuter V) : SQOuter V :=
  match o.valptr with
  | some i => if stackindex ≤ i then ⟨none, stack i⟩ else o
  | none => o

theorem SQOuter.closed_of_le {stack : Nat → V} {stackindex i : Nat} {o : SQOuter V}
    (ho : o.valptr = some i) (hi : stackindex ≤ i) :
    o.closed stack stackindex = ⟨none, stack i⟩ := by
  simp only [closed, ho, if_pos hi]

theorem SQOuter.closed_of_lt {stack : Nat → V} {stackindex i : Nat} {o : SQOuter V}
    (ho : o.valptr = some i) (hi : i < stackindex) : o.closed stack stackindex = o := by
  simp only [closed, ho, if_neg (Nat.not_le.2 hi)]

theorem SQOuter.closed_of_none {stack : Nat → V} {stackindex : Nat} {o : SQOuter V}
    (ho : o.valptr = none) : o.closed stack stackindex = o := by
  simp only [closed, ho]

/-- The outer is still open after the closing just where it was open below `stackindex`. -/
theorem SQOuter.valptr_closed {stack : Nat → V} {stackindex i : Nat} {o : SQOuter V} :
    (o.closed stack stackindex).valptr = some i ↔ o.valptr = some i ∧ i < stackindex := by
  cases ho : o.valptr with
  | none => simp [closed_of_none ho, ho]
  | some j =>
    by_cases hj : stackindex ≤ j
    · rw [closed_of_le ho hj]
      simp only [reduceCtorEq, Option.some.injEq, false_iff]
      omega
    · rw [closed_of_lt ho (Nat.lt_of_not_le hj), ho]
      simp only [Option.some.injEq]
      omega

/-- The walk of `FindOuter` over the open outers: the outer it gives and the list it leaves, where
`fresh` is the outer it creates if it finds none. -/
def findOuterIn (outers : Nat → SQOuter V) (fresh stackindex : Nat) : List Nat → Nat × List Nat
  | [] => (fresh, [fresh])
  | p :: next =>
    match (outers p).valptr with
    | none => (fresh, fresh :: p :: next)
    | some i =>
      if i = stackindex then (p, p :: next)
      else if stackindex < i then
        let (o, list) := findOuterIn outers fresh stackindex next
        (o, p :: list)
      else (fresh, fresh :: p :: next)

/-- The walk of `CloseOuters`: it stops at the first outer below `stackindex`. -/
def closeOutersIn (stack : Nat → V) (stackindex : Nat) :
    (Nat → SQOuter V) → List Nat → (Nat → SQOuter V) × List Nat
  | outers, [] => (outers, [])
  | outers, p :: next =>
    match (outers p).valptr with
    | none => (outers, p :: next)
    | some i =>
      if stackindex ≤ i then
        closeOutersIn stack stackindex (Function.update outers p ⟨none, stack i⟩) next
      else (outers, p :: next)

/-- `p` comes before `q` in the list of open outers: its slot is above that of `q`. -/
def Above (outers : Nat → SQOuter V) (p q : Nat) : Prop :=
  ∃ i j, (outers p).valptr = some i ∧ (outers q).valptr = some j ∧ j < i

/-- The list holds the open outers, each once, by falling slot. -/
structure OpenList (outers : Nat → SQOuter V) (nouters : Nat) (list : List Nat) : Prop where
  sorted : list.Pairwise (Above outers)
  isOpen : ∀ p ∈ list, ∃ i, (outers p).valptr = some i
  listed : ∀ p i, (outers p).valptr = some i → p ∈ list
  bound : ∀ p ∈ list, p < nouters

section Order

variable {outers : Nat → SQOuter V} {p q i j : Nat}

theorem Above.slots (h : Above outers p q) (hp : (outers p).valptr = some i)
    (hq : (outers q).valptr = some j) : j < i := by
  obtain ⟨i', j', hi, hj, hlt⟩ := h
  obtain rfl : i' = i := Option.some.inj (hi.symm.trans hp)
  obtain rfl : j' = j := Option.some.inj (hj.symm.trans hq)
  exact hlt

theorem Above.ne (h : Above outers p q) : p ≠ q := by
  rintro rfl
  obtain ⟨i, j, hi, hj, hlt⟩ := h
  obtain rfl : i = j := Option.some.inj (hi.symm.trans hj)
  exact Nat.lt_irrefl i hlt

theorem Above.congr {outers' : Nat → SQOuter V} (h : Above outers p q)
    (hp : (outers' p).valptr = (outers p).valptr) (hq : (outers' q).valptr = (outers q).valptr) :
    Above outers' p q := by
  obtain ⟨i, j, hi, hj, hlt⟩ := h
  exact ⟨i, j, hp.trans hi, hq.trans hj, hlt⟩

theorem OpenList.eq_of_slot {nouters : Nat} {list : List Nat}
    (h : OpenList outers nouters list) (hp : (outers p).valptr = some i)
    (hq : (outers q).valptr = some i) : p = q := by
  by_contra hne
  have hmem := h.listed p i hp
  have hmem' := h.listed q i hq
  have hor := List.Pairwise.forall_of_forall_of_flip (R := fun p q => p ≠ q → Above outers p q ∨
    Above outers q p) (fun _ _ hxx => absurd rfl hxx) (h.sorted.imp fun hpq _ => .inl hpq)
    (h.sorted.imp fun hpq _ => .inr hpq)
  rcases hor hmem hmem' hne with hpq | hqp
  · exact Nat.lt_irrefl i (hpq.slots hp hq)
  · exact Nat.lt_irrefl i (hqp.slots hq hp)

end Order

/-- Writing to outers leaves their order as it is. -/
theorem OpenList.congr {outers outers' : Nat → SQOuter V} {nouters : Nat} {list : List Nat}
    (h : OpenList outers nouters list) (heq : ∀ p, (outers' p).valptr = (outers p).valptr) :
    OpenList outers' nouters list where
  sorted := h.sorted.imp fun hpq => hpq.congr (heq _) (heq _)
  isOpen p hp := by rw [heq p]; exact h.isOpen p hp
  listed p i hp := h.listed p i ((heq p).symm.trans hp)
  bound := h.bound

/-! ## CloseOuters -/

theorem closeOutersIn_outers {stack : Nat → V} {stackindex : Nat} {outers : Nat → SQOuter V}
    {list : List Nat} (hsorted : list.Pairwise (Above outers))
    (hopen : ∀ p ∈ list, ∃ i, (outers p).valptr = some i) (o : Nat) :
    (closeOutersIn stack stackindex outers list).1 o =
      if o ∈ list then (outers o).closed stack stackindex else outers o := by
  induction list generalizing outers with
  | nil => rfl
  | cons p next ih =>
    obtain ⟨i, hi⟩ := hopen p List.mem_cons_self
    obtain ⟨habove, hnext⟩ := List.pairwise_cons.1 hsorted
    simp only [closeOutersIn, hi]
    split
    · rename_i hle
      have hother : ∀ q ∈ next, Function.update outers p ⟨none, stack i⟩ q = outers q := fun q hq =>
        Function.update_of_ne (habove q hq).ne.symm _ _
      rw [ih (hnext.imp_of_mem fun ha hb hab =>
          hab.congr (by rw [hother _ ha]) (by rw [hother _ hb]))
        (fun q hq => by rw [hother q hq]; exact hopen q (List.mem_cons_of_mem _ hq))]
      by_cases ho : o = p
      · subst ho
        have hnot : o ∉ next := fun hmem => (habove o hmem).ne rfl
        rw [if_neg hnot, if_pos List.mem_cons_self, Function.update_self,
          SQOuter.closed_of_le hi hle]
      · rw [Function.update_of_ne ho]
        simp only [List.mem_cons, ho, false_or]
    · rename_i hlt
      -- Every later outer points below this one.
      split
      · rename_i ho
        rcases List.mem_cons.1 ho with rfl | ho
        · exact (SQOuter.closed_of_lt hi (Nat.lt_of_not_le hlt)).symm
        · obtain ⟨j, hj⟩ := hopen o (List.mem_cons_of_mem _ ho)
          have hji := (habove o ho).slots hi hj
          exact (SQOuter.closed_of_lt hj (Nat.lt_trans hji (Nat.lt_of_not_le hlt))).symm
      · rfl

theorem closeOutersIn_sublist {stack : Nat → V} {stackindex : Nat} {outers : Nat → SQOuter V}
    {list : List Nat} : (closeOutersIn stack stackindex outers list).2.Sublist list := by
  induction list generalizing outers with
  | nil => exact List.Sublist.refl _
  | cons p next ih =>
    simp only [closeOutersIn]
    split
    · exact List.Sublist.refl _
    · split
      · exact ih.cons p
      · exact List.Sublist.refl _

theorem mem_closeOutersIn {stack : Nat → V} {stackindex : Nat} {outers : Nat → SQOuter V}
    {list : List Nat} (hsorted : list.Pairwise (Above outers))
    (hopen : ∀ p ∈ list, ∃ i, (outers p).valptr = some i) (o : Nat) :
    o ∈ (closeOutersIn stack stackindex outers list).2 ↔
      o ∈ list ∧ ∃ i, (outers o).valptr = some i ∧ i < stackindex := by
  induction list generalizing outers with
  | nil => simp [closeOutersIn]
  | cons p next ih =>
    obtain ⟨i, hi⟩ := hopen p List.mem_cons_self
    obtain ⟨habove, hnext⟩ := List.pairwise_cons.1 hsorted
    simp only [closeOutersIn, hi]
    split
    · rename_i hle
      have hother : ∀ q ∈ next, Function.update outers p ⟨none, stack i⟩ q = outers q := fun q hq =>
        Function.update_of_ne (habove q hq).ne.symm _ _
      rw [ih (hnext.imp_of_mem fun ha hb hab =>
          hab.congr (by rw [hother _ ha]) (by rw [hother _ hb]))
        (fun q hq => by rw [hother q hq]; exact hopen q (List.mem_cons_of_mem _ hq))]
      constructor
      · rintro ⟨ho, hj⟩
        exact ⟨List.mem_cons_of_mem _ ho, by rwa [hother o ho] at hj⟩
      · rintro ⟨ho, j, hj, hlt⟩
        rcases List.mem_cons.1 ho with rfl | ho
        · obtain rfl : i = j := Option.some.inj (hi.symm.trans hj)
          omega
        · exact ⟨ho, j, by rwa [hother o ho], hlt⟩
    · rename_i hlt
      constructor
      · intro ho
        refine ⟨ho, ?_⟩
        rcases List.mem_cons.1 ho with rfl | ho
        · exact ⟨i, hi, Nat.lt_of_not_le hlt⟩
        · obtain ⟨j, hj⟩ := hopen o (List.mem_cons_of_mem _ ho)
          exact ⟨j, hj, Nat.lt_trans ((habove o ho).slots hi hj) (Nat.lt_of_not_le hlt)⟩
      · exact fun ho => ho.1

/-- `CloseOuters` closes every open outer at or above the slot, and no other. -/
theorem OpenList.closeOutersIn {stack : Nat → V} {stackindex nouters : Nat}
    {outers : Nat → SQOuter V} {list : List Nat} (h : OpenList outers nouters list) (o : Nat) :
    (closeOutersIn stack stackindex outers list).1 o = (outers o).closed stack stackindex := by
  rw [closeOutersIn_outers h.sorted h.isOpen o]
  split
  · rfl
  · rename_i ho
    cases hv : (outers o).valptr with
    | none => exact (SQOuter.closed_of_none hv).symm
    | some i => exact absurd (h.listed o i hv) ho

theorem OpenList.close {stack : Nat → V} {stackindex nouters : Nat} {outers : Nat → SQOuter V}
    {list : List Nat} (h : OpenList outers nouters list) :
    OpenList (Generator.closeOutersIn stack stackindex outers list).1 nouters
      (Generator.closeOutersIn stack stackindex outers list).2 := by
  have hsub : (Generator.closeOutersIn stack stackindex outers list).2.Sublist list :=
    closeOutersIn_sublist
  have hkept : ∀ p ∈ (Generator.closeOutersIn stack stackindex outers list).2,
      ((Generator.closeOutersIn stack stackindex outers list).1 p).valptr =
        (outers p).valptr := by
    intro p hp
    obtain ⟨-, i, hi, hlt⟩ := (mem_closeOutersIn h.sorted h.isOpen p).1 hp
    rw [h.closeOutersIn, SQOuter.closed_of_lt hi hlt]
  constructor
  · apply (h.sorted.sublist hsub).imp_of_mem
    intro p q hp hq hpq
    exact hpq.congr (hkept p hp) (hkept q hq)
  · intro p hp
    rw [hkept p hp]
    exact h.isOpen p (hsub.subset hp)
  · intro p i hp
    rw [h.closeOutersIn, SQOuter.valptr_closed] at hp
    exact (mem_closeOutersIn h.sorted h.isOpen p).2 ⟨h.listed p i hp.1, i, hp.1, hp.2⟩
  · exact fun p hp => h.bound p (hsub.subset hp)

/-! ## FindOuter -/

/-- `FindOuter` finds the open outer of the slot, or puts a new one between the open outers above
the slot and those below it. -/
theorem findOuterIn_cases {outers : Nat → SQOuter V} {fresh stackindex : Nat} {list : List Nat}
    (hsorted : list.Pairwise (Above outers))
    (hopen : ∀ p ∈ list, ∃ i, (outers p).valptr = some i) :
    (∃ p ∈ list, (outers p).valptr = some stackindex ∧
      findOuterIn outers fresh stackindex list = (p, list)) ∨
    ∃ above below, list = above ++ below ∧
      (∀ p ∈ above, ∃ i, (outers p).valptr = some i ∧ stackindex < i) ∧
      (∀ p ∈ below, ∃ i, (outers p).valptr = some i ∧ i < stackindex) ∧
      findOuterIn outers fresh stackindex list = (fresh, above ++ fresh :: below) := by
  induction list with
  | nil => exact .inr ⟨[], [], rfl, by simp, by simp, rfl⟩
  | cons p next ih =>
    obtain ⟨i, hi⟩ := hopen p List.mem_cons_self
    obtain ⟨habove, hnext⟩ := List.pairwise_cons.1 hsorted
    simp only [findOuterIn, hi]
    by_cases heq : i = stackindex
    · left
      exact ⟨p, List.mem_cons_self, by rw [hi, heq], if_pos heq⟩
    · rw [if_neg heq]
      by_cases hlt : stackindex < i
      · rw [if_pos hlt]
        rcases ih hnext fun q hq => hopen q (List.mem_cons_of_mem _ hq) with
          ⟨q, hq, hslot, hfind⟩ | ⟨above, below, rfl, ha, hb, hfind⟩
        · left
          exact ⟨q, List.mem_cons_of_mem _ hq, hslot, by rw [hfind]⟩
        · right
          refine ⟨p :: above, below, rfl, ?_, hb, by rw [hfind]; rfl⟩
          intro q hq
          rcases List.mem_cons.1 hq with rfl | hq
          · exact ⟨i, hi, hlt⟩
          · exact ha q hq
      · right
        refine ⟨[], p :: next, rfl, by simp, ?_, by rw [if_neg hlt]; rfl⟩
        intro q hq
        rcases List.mem_cons.1 hq with rfl | hq
        · exact ⟨i, hi, by omega⟩
        · obtain ⟨j, hj⟩ := hopen q (List.mem_cons_of_mem _ hq)
          have hji := (habove q hq).slots hi hj
          exact ⟨j, hj, by omega⟩

/-- A new outer put where `FindOuter` puts it. -/
theorem OpenList.insert {outers : Nat → SQOuter V} {nouters stackindex : Nat}
    {above below : List Nat} {v : V} (h : OpenList outers nouters (above ++ below))
    (ha : ∀ p ∈ above, ∃ i, (outers p).valptr = some i ∧ stackindex < i)
    (hb : ∀ p ∈ below, ∃ i, (outers p).valptr = some i ∧ i < stackindex) :
    OpenList (Function.update outers nouters ⟨some stackindex, v⟩) (nouters + 1)
      (above ++ nouters :: below) := by
  have hself : (Function.update outers nouters ⟨some stackindex, v⟩ nouters).valptr =
      some stackindex := by rw [Function.update_self]
  have hother : ∀ p ∈ above ++ below,
      Function.update outers nouters ⟨some stackindex, v⟩ p = outers p := fun p hp =>
    Function.update_of_ne (Nat.ne_of_lt (h.bound p hp)) _ _
  have hl : ∀ p ∈ above,
      Function.update outers nouters ⟨some stackindex, v⟩ p = outers p := fun p hp =>
    hother p (List.mem_append_left _ hp)
  have hr : ∀ p ∈ below,
      Function.update outers nouters ⟨some stackindex, v⟩ p = outers p := fun p hp =>
    hother p (List.mem_append_right _ hp)
  have hmem : ∀ {p}, p ∈ above ++ nouters :: below ↔ p = nouters ∨ p ∈ above ++ below := by
    intro p
    simp only [List.mem_append, List.mem_cons]
    exact or_left_comm
  obtain ⟨hsl, hsr, hsc⟩ := List.pairwise_append.1 h.sorted
  constructor
  -- the new variable lies between the two parts of the list
  · apply List.pairwise_append.2
    refine ⟨?_, List.pairwise_cons.2 ⟨?_, ?_⟩, ?_⟩
    · exact hsl.imp_of_mem fun hp hq hpq =>
        hpq.congr (by rw [hl _ hp]) (by rw [hl _ hq])
    · intro q hq
      obtain ⟨j, hj, hlt⟩ := hb q hq
      exact ⟨stackindex, j, hself, by rw [hr q hq, hj], hlt⟩
    · exact hsr.imp_of_mem fun hp hq hpq =>
        hpq.congr (by rw [hr _ hp]) (by rw [hr _ hq])
    · intro p hp q hq
      rcases List.mem_cons.1 hq with rfl | hq
      · obtain ⟨i, hi, hlt⟩ := ha p hp
        exact ⟨i, stackindex, by rw [hl p hp, hi], hself, hlt⟩
      · exact (hsc p hp q hq).congr (by rw [hl p hp]) (by rw [hr q hq])
  · intro p hp
    rcases hmem.1 hp with rfl | hp
    · exact ⟨stackindex, hself⟩
    · rw [hother p hp]
      exact h.isOpen p hp
  · intro p i hp
    apply hmem.2
    by_cases hpn : p = nouters
    · exact .inl hpn
    · rw [Function.update_of_ne hpn] at hp
      exact .inr (h.listed p i hp)
  · intro p hp
    rcases hmem.1 hp with rfl | hp
    · exact Nat.lt_succ_self _
    · exact Nat.lt_succ_of_lt (h.bound p hp)

end Quirrel.Generator
