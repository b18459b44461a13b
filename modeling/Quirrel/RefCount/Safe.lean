import Quirrel.Lib.Ancestors
import Quirrel.Lib.Runs
import Quirrel.RefCount.Evolution

/-!
# Reference counting is safe

Between two operations every count is exact and no object has the count zero, so every reference leads to an
object that is there. Each operation keeps this, and does what it is asked for: it never touches an object
that is gone, and its releases end.
-/

set_option autoImplicit false

namespace Quirrel.RefCount

open Lib (Run Mates)
open Heap (held)

variable {h h' : Heap} {o w : Nat} {x y : SQRefCounted} {v old : SQObjectPtr} {zero : List Nat}
variable {s s' t : State} {ops ops' : List Op}

/-- The counts between two operations. -/
def State.Good (s : State) : Prop := Inv s.heap s.slots [] []

/-- The value is not a reference to an object that is gone. -/
def State.Has (s : State) (v : SQObjectPtr) : Prop := ∀ o, v = .ref o → ∃ x, s.heap.get o = some x

/-! ## Reading -/

theorem read_has {src : Place} (hgood : s.Good) (hread : s.read src = some v) : s.Has v := by
  intro o ho
  subst ho
  have hmem : .ref o ∈ s.slots ++ s.heap.held := by
    cases src with
    | slot i => exact List.mem_append_left _ (List.mem_of_getElem? hread)
    | field i k =>
      obtain ⟨a, x, -, hx, hk⟩ := read_field_iff.mp hread
      exact List.mem_append_right _ (Heap.mem_held hx (List.mem_of_getElem? hk))
  obtain ⟨x, hx, -⟩ := hgood.exists_of_mem hmem
  exact ⟨x, hx⟩

/-- A place keeps its value when objects are added. -/
theorem read_extends {src : Place} (hslots : s'.slots = s.slots) (hext : Extends s.heap s'.heap)
    (hread : s.read src = some v) : s'.read src = some v := by
  cases src with
  | slot i => rw [State.read, hslots]; exact hread
  | field i k =>
    obtain ⟨a, x, ha, hx, hk⟩ := read_field_iff.mp hread
    obtain ⟨x', hx', hc⟩ := hext a x hx
    exact read_field_iff.mpr ⟨a, x', by rw [hslots, ha], hx', by rw [hc, hk]⟩

theorem realval_has (hgood : s.Good) (hv : s.Has v) : ∃ v', s.realval v = some v' ∧ s.Has v' := by
  cases v with
  | null => exact ⟨_, rfl, hv⟩
  | scalar n => exact ⟨_, rfl, hv⟩
  | ref w =>
    obtain ⟨y, hy⟩ := hv w rfl
    rw [State.realval, hy]
    match hc : y.contents with
    | .fields vals => exact ⟨.ref w, by simp [hc], hv⟩
    | .weakRef none => exact ⟨.null, by simp [hc], fun _ => SQObjectPtr.noConfusion⟩
    | .weakRef (some t) =>
      -- an object that has a weak reference is there
      have hlink : s.heap.weakOf t = some w := (hgood.weak t w).mpr (by rw [Heap.objOf_eq hy, hc]; rfl)
      obtain ⟨z, hz, -⟩ := Option.bind_eq_some_iff.mp hlink
      refine ⟨.ref t, by simp [hc], fun o ho => ?_⟩
      cases ho
      exact ⟨z, hz⟩

/-- `GetWeakRef`: the weak reference is there, or it is new and not referred to yet. -/
theorem getWeakRef_spec (hgood : s.Good) (hx : s.heap.get o = some x) :
    ∃ s' w zero y, s.getWeakRef o = some (s', w) ∧ s'.slots = s.slots ∧ Inv s'.heap s'.slots [] zero ∧
      (∀ a ∈ zero, a = w) ∧ s'.heap.get w = some y ∧ Extends s.heap s'.heap ∧ Evolves s.heap s'.heap := by
  rw [State.getWeakRef, hx]
  cases hw : x.weakref with
  | some w =>
    have hlink : s.heap.weakOf o = some w := by rw [Heap.weakOf_eq hx, hw]
    obtain ⟨y, hy, -⟩ := Option.bind_eq_some_iff.mp ((hgood.weak o w).mp hlink)
    exact ⟨s, w, [], y, by simp [hw], rfl, hgood, fun a ha => absurd ha List.not_mem_nil, hy,
      fun a z hz => ⟨z, hz, rfl⟩, Evolves.refl s.heap⟩
  | none =>
    have hne : o ≠ s.heap.length := Nat.ne_of_lt (Heap.lt_of_get hx)
    have hx₁ : Heap.get (s.heap ++ [some ⟨0, none, .weakRef (some o)⟩]) o = some x := by
      rw [Heap.get_snoc, if_neg hne, hx]
    have hcounts := (hgood.toCounts.snoc (.weakRef (some o)) fun _ => rfl).put_same
      (y := ⟨x.uiRef, some s.heap.length, x.contents⟩) hx₁ rfl rfl
    have hweak : Mates
        (Heap.put (s.heap ++ [some ⟨0, none, .weakRef (some o)⟩]) o
          ⟨x.uiRef, some s.heap.length, x.contents⟩).weakOf
        (Heap.put (s.heap ++ [some ⟨0, none, .weakRef (some o)⟩]) o
          ⟨x.uiRef, some s.heap.length, x.contents⟩).objOf := by
      rw [Heap.weakOf_put hx₁, Heap.objOf_put hx₁, ← Heap.objOf_eq hx₁, Function.update_eq_self,
        Heap.weakOf_snoc, Heap.objOf_snoc, update_none s.heap.weakOf_length]
      exact hgood.weak.link (by rw [Heap.weakOf_eq hx, hw]) s.heap.objOf_length
    refine ⟨⟨Heap.put (s.heap ++ [some ⟨0, none, .weakRef (some o)⟩]) o ⟨x.uiRef, some s.heap.length, x.contents⟩,
      s.slots⟩, s.heap.length, [s.heap.length], ⟨0, none, .weakRef (some o)⟩, by simp [hw, State.alloc], rfl,
      ⟨hcounts, hweak⟩, fun a ha => List.mem_singleton.mp ha, ?_, fun a z hz => ?_, ?_⟩
    · rw [Heap.get_put hx₁, if_neg hne.symm, Heap.get_snoc, if_pos rfl]
    · rw [Heap.get_put hx₁, Heap.get_snoc, if_neg (Nat.ne_of_lt (Heap.lt_of_get hz)), hz]
      by_cases ha : a = o
      · subst ha
        rw [hx] at hz
        cases hz
        exact ⟨_, if_pos rfl, rfl⟩
      · exact ⟨z, if_neg ha, rfl⟩
    · exact (Evolves.snoc s.heap _).trans
        (Evolves.put (y := ⟨x.uiRef, some s.heap.length, x.contents⟩) hx₁ fun _ hobj => hobj)

/-! ## One operation -/

theorem pop_spec (hgood : s.Good) (hslots : s.slots ≠ []) :
    ∃ s', step s .pop = some s' ∧ s'.Good ∧ Evolves s.heap s'.heap := by
  have hlast : s.slots.getLast? = some (s.slots.getLast hslots) := List.getLast?_eq_some_getLast hslots
  have hcounts : Counts s.heap (s.slots.getLast hslots :: s.slots.dropLast) [] [] :=
    hgood.perm fun o => by
      conv_rhs => rw [← List.dropLast_append_getLast hslots, List.count_append]
      simp only [List.count_cons, List.count_nil]
      omega
  obtain ⟨h', hrelease, hinv, -, hrel⟩ :=
    release_spec ⟨hcounts, hgood.weak⟩ (Stays.nil s.heap s.slots.dropLast (.slot 0))
  exact ⟨⟨h', s.slots.dropLast⟩, by simp [step, hlast, hrelease], hinv, hrel.evolves hgood.weak⟩

/-- The old reference is released in its place, where the number comes after. -/
theorem assignScalar_spec {dst : Place} (n : Int) (hgood : s.Good) (hold : s.read dst = some old) :
    ∃ s', s.assignScalar dst n = some s' ∧ s'.Good ∧ Evolves s.heap s'.heap := by
  have hcounts : Counts s.heap (old :: s.slots) [old] [] := ⟨fun o => by
    have hcount := hgood.counted o
    simp only [List.count_append, List.count_cons, List.count_nil] at hcount ⊢
    omega, hgood.zero⟩
  have hstays : Stays s.heap s.slots [old] dst :=
    ⟨Nat.le_refl 1, fun v hv => by rw [List.mem_singleton.mp hv]; exact hold⟩
  obtain ⟨h', hrelease, hinv, hstays', hrel⟩ := release_spec ⟨hcounts, hgood.weak⟩ hstays
  obtain ⟨s', hwrite, hinv', hevolves, -⟩ := @write_spec (.scalar n) old [] [old] [] ⟨h', s.slots⟩ dst hinv
    (hstays'.read old List.mem_cons_self)
  refine ⟨s', by simp [State.assignScalar, hold, hrelease, hwrite], ⟨⟨fun o => ?_, hinv'.zero⟩, hinv'.weak⟩,
    (hrel.evolves hgood.weak).trans hevolves⟩
  have hcount := hinv'.counted o
  have hscalar : [SQObjectPtr.scalar n].count (.ref o) = 0 := rfl
  simp only [List.count_append, List.count_cons, List.count_nil] at hcount hscalar ⊢
  omega

theorem move_spec {dst src : Nat} (hgood : s.Good) (hold : s.slots[dst]? = some old)
    (hv : s.slots[src]? = some v) :
    ∃ s', s.move dst src = some s' ∧ s'.Good ∧ Evolves s.heap s'.heap := by
  by_cases hsame : dst = src
  · exact ⟨s, by simp [State.move, hsame], hgood, Evolves.refl s.heap⟩
  · have hv' : (s.slots.set dst v)[src]? = some v := by rw [List.getElem?_set_ne hsame, hv]
    have hcounts : Counts s.heap (old :: (s.slots.set dst v).set src .null) [] [] := hgood.perm fun o => by
      have hset := count_set hold v (.ref o)
      have hset' := count_set hv' .null (.ref o)
      have hnull : [SQObjectPtr.null].count (.ref o) = 0 := rfl
      simp only [List.count_cons, List.count_nil] at hset hset' hnull ⊢
      omega
    obtain ⟨h', hrelease, hinv, -, hrel⟩ := release_spec ⟨hcounts, hgood.weak⟩
      (Stays.nil s.heap ((s.slots.set dst v).set src .null) (.slot dst))
    exact ⟨⟨h', (s.slots.set dst v).set src .null⟩, by simp [State.move, hsame, hold, hv, hrelease], hinv,
      hrel.evolves hgood.weak⟩

/-- A place keeps the reference that is written to it or to another place, except that a slot leads to other
objects after it has been written. -/
theorem read_write {p q : Place} (hslot : ∀ i j k, p = .slot i → q ≠ .field j k) (hread : s.read q = some v)
    (hwrite : s.write v p = some s') : s'.read q = some v := by
  cases p with
  | slot i =>
    cases hwrite
    cases q with
    | field j k => exact absurd rfl (hslot i j k rfl)
    | slot j =>
      show (s.slots.set i v)[j]? = some v
      obtain ⟨hlt, -⟩ := List.getElem?_eq_some_iff.mp hread
      rw [List.getElem?_set]
      by_cases hij : i = j
      · subst hij
        rw [if_pos rfl, if_pos hlt]
      · rw [if_neg hij]
        exact hread
  | field i k =>
    obtain ⟨u, hu, hwrite⟩ := Option.bind_eq_some_iff.mp hwrite
    cases u with
    | null => cases hwrite
    | scalar n => cases hwrite
    | ref a =>
      obtain ⟨x, hx, hwrite⟩ := Option.bind_eq_some_iff.mp hwrite
      cases hc : x.contents with
      | weakRef obj => rw [hc] at hwrite; cases hwrite
      | fields vals =>
        rw [hc] at hwrite
        cases hwrite
        cases q with
        | slot j => exact hread
        | field j l =>
          obtain ⟨b, z, hb, hz, hl⟩ := read_field_iff.mp hread
          refine read_field_iff.mpr ?_
          by_cases hba : b = a
          · subst hba
            obtain rfl : x = z := Option.some.inj (hx.symm.trans hz)
            rw [hc] at hl
            have hlt : l < vals.length := (List.getElem?_eq_some_iff.mp hl).1
            refine ⟨b, _, hb, (Heap.get_put hx _ b).trans (if_pos rfl), ?_⟩
            show (vals.set k v)[l]? = some v
            rw [List.getElem?_set]
            by_cases hkl : k = l
            · subst hkl
              rw [if_pos rfl, if_pos hlt]
            · rw [if_neg hkl]
              exact hl
          · exact ⟨b, z, hb, by rw [Heap.get_put hx, if_neg hba, hz], hl⟩

/-- The references of two places are exchanged; nothing is counted. -/
theorem exchange_spec {p q : Place} {a b : SQObjectPtr} (hslot : ∀ i j k, p = .slot i → q ≠ .field j k)
    (hgood : s.Good) (ha : s.read p = some a) (hb : s.read q = some b) :
    ∃ s₁ s', s.write b p = some s₁ ∧ s₁.write a q = some s' ∧ s'.Good ∧ Evolves s.heap s'.heap := by
  obtain ⟨s₁, hwrite₁, hinv₁, hevolves₁, -⟩ := @write_spec b a [] [] [] s p hgood ha
  obtain ⟨s', hwrite, hinv, hevolves, -⟩ := @write_spec a b [a] [b] [] s₁ q hinv₁ (read_write hslot hb hwrite₁)
  refine ⟨s₁, s', hwrite₁, hwrite, ⟨⟨fun o => ?_, hinv.zero⟩, hinv.weak⟩, hevolves₁.trans hevolves⟩
  have hcount := hinv.counted o
  simp only [List.count_append, List.count_cons, List.count_nil] at hcount ⊢
  omega

theorem swap_spec {p q : Place} {a b : SQObjectPtr} (hgood : s.Good) (ha : s.read p = some a)
    (hb : s.read q = some b) : ∃ s', s.swap p q = some s' ∧ s'.Good ∧ Evolves s.heap s'.heap := by
  by_cases hslot : ∀ i j k, p = .slot i → q ≠ .field j k
  · obtain ⟨s₁, s', hwrite₁, hwrite, hspec⟩ := exchange_spec hslot hgood ha hb
    refine ⟨s', ?_, hspec⟩
    cases p with
    | slot i =>
      cases q with
      | slot j => simp [State.swap, ha, hb, hwrite₁, hwrite]
      | field j k => exact absurd rfl (hslot i j k rfl)
    | field i k => simp [State.swap, ha, hb, hwrite₁, hwrite]
  · push Not at hslot
    obtain ⟨i, j, k, rfl, rfl⟩ := hslot
    obtain ⟨s₁, s', hwrite₁, hwrite, hspec⟩ :=
      @exchange_spec s (.field j k) (.slot i) b a (fun _ _ _ h => nomatch h) hgood hb ha
    exact ⟨s', by simp [State.swap, ha, hb, hwrite₁, hwrite], hspec⟩

theorem newObject_spec {dst : Place} (n : Nat) (hgood : s.Good) (hread : s.read dst = some old) :
    ∃ s', step s (.newObject dst n) = some s' ∧ s'.Good ∧ Evolves s.heap s'.heap := by
  have hvals : ∀ o, (Contents.fields (List.replicate n .null)).vals.count (.ref o) = 0 := fun o =>
    List.count_eq_zero.mpr fun hmem => SQObjectPtr.noConfusion (List.eq_of_mem_replicate hmem)
  have hweak : Mates (Heap.weakOf (s.heap ++ [some ⟨0, none, .fields (List.replicate n .null)⟩]))
      (Heap.objOf (s.heap ++ [some ⟨0, none, .fields (List.replicate n .null)⟩])) := by
    rw [Heap.weakOf_snoc, Heap.objOf_snoc, update_none s.heap.weakOf_length]
    show Mates _ (Function.update s.heap.objOf s.heap.length none)
    rw [update_none s.heap.objOf_length]
    exact hgood.weak
  obtain ⟨s', hassign, hgood', hevolves⟩ := @assign_spec (.ref s.heap.length) old [s.heap.length]
    (s.alloc (.fields (List.replicate n .null))).1 dst ⟨hgood.toCounts.snoc _ hvals, hweak⟩
    (read_extends (s := s) rfl (extends_snoc s.heap _) hread)
    (fun o ho => by cases ho; exact ⟨_, (Heap.get_snoc _ _).trans (if_pos rfl)⟩)
    fun a ha => by rw [List.mem_singleton.mp ha]
  exact ⟨s', hassign, hgood', (Evolves.snoc s.heap _).trans hevolves⟩

theorem weakref_spec {dst src : Place} (hgood : s.Good) (hdst : s.read dst = some old)
    (hsrc : s.read src = some (.ref o)) :
    ∃ s', step s (.weakref dst src) = some s' ∧ s'.Good ∧ Evolves s.heap s'.heap := by
  obtain ⟨x, hx⟩ := read_has hgood hsrc o rfl
  obtain ⟨s₁, w, zero, y, hget, hslots, hinv, hzero, hy, hext, hevolves₁⟩ := getWeakRef_spec hgood hx
  obtain ⟨s', hassign, hgood', hevolves⟩ := assign_spec (v := .ref w) hinv
    (read_extends hslots hext hdst) (fun a ha => by cases ha; exact ⟨y, hy⟩)
    fun a ha => by rw [hzero a ha]
  exact ⟨s', by simp [step, hsrc, hget, hassign], hgood', hevolves₁.trans hevolves⟩

/-- Every operation that the state allows is done, and keeps the counts. -/
theorem step_spec {op : Op} (hgood : s.Good) (hallows : s.allows op = true) :
    ∃ s', step s op = some s' ∧ s'.Good ∧ Evolves s.heap s'.heap := by
  cases op with
  | push =>
    refine ⟨_, rfl, ⟨hgood.perm fun o => ?_, hgood.weak⟩, Evolves.refl s.heap⟩
    rw [List.count_append]
    rfl
  | pop => exact pop_spec hgood (by simpa [State.allows] using hallows)
  | copy dst src =>
    simp only [State.allows, Bool.and_eq_true, Option.isSome_iff_exists] at hallows
    obtain ⟨⟨old, hold⟩, v, hv⟩ := hallows
    obtain ⟨s', hassign, hspec⟩ := assign_spec hgood hold (read_has hgood hv) nofun
    exact ⟨s', by simp [step, hv, hassign], hspec⟩
  | move dst src =>
    simp only [State.allows, Bool.and_eq_true, decide_eq_true_eq] at hallows
    exact move_spec hgood (List.getElem?_eq_getElem hallows.1) (List.getElem?_eq_getElem hallows.2)
  | swap p q =>
    simp only [State.allows, Bool.and_eq_true, Option.isSome_iff_exists] at hallows
    obtain ⟨⟨a, ha⟩, b, hb⟩ := hallows
    exact swap_spec hgood ha hb
  | setScalar dst n =>
    obtain ⟨old, hold⟩ := Option.isSome_iff_exists.mp hallows
    exact assignScalar_spec n hgood hold
  | setNull dst =>
    obtain ⟨old, hold⟩ := Option.isSome_iff_exists.mp hallows
    exact assign_spec hgood hold (fun _ => SQObjectPtr.noConfusion) nofun
  | newObject dst n =>
    obtain ⟨old, hold⟩ := Option.isSome_iff_exists.mp hallows
    exact newObject_spec n hgood hold
  | weakref dst src =>
    simp only [State.allows, Bool.and_eq_true, Option.isSome_iff_exists] at hallows
    obtain ⟨⟨old, hold⟩, hsrc⟩ := hallows
    cases hv : s.read src with
    | none => rw [hv] at hsrc; cases hsrc
    | some v =>
      rw [hv] at hsrc
      cases v with
      | null => cases hsrc
      | scalar n => cases hsrc
      | ref o => exact weakref_spec hgood hold hv
  | deref dst src =>
    simp only [State.allows, Bool.and_eq_true, Option.isSome_iff_exists] at hallows
    obtain ⟨⟨old, hold⟩, v, hv⟩ := hallows
    obtain ⟨v', hreal, hhas⟩ := realval_has hgood (read_has hgood hv)
    obtain ⟨s', hassign, hspec⟩ := assign_spec hgood hold hhas nofun
    exact ⟨s', by simp [step, hv, hreal, hassign], hspec⟩

/-! ## Runs -/

/-- Operations that the states allow, one after the other. -/
abbrev Reaches (s : State) (ops : List Op) (t : State) : Prop :=
  Run step (fun s op => s.allows op = true) s ops t

theorem good_init : State.Good ⟨[], []⟩ :=
  ⟨⟨fun _ => rfl, fun _ _ hx => by cases hx⟩, fun _ _ => ⟨nofun, nofun⟩⟩

theorem Reaches.good (hrun : Reaches s ops t) (hs : s.Good) : t.Good :=
  hrun.invariant (fun s op s' hs hallows hstep => by
    obtain ⟨s₁, hstep₁, hgood, -⟩ := step_spec hs hallows
    obtain rfl : s₁ = s' := Option.some.inj (hstep₁.symm.trans hstep)
    exact hgood) hs

theorem Reaches.evolves (hrun : Reaches s ops t) (hs : s.Good) : Evolves s.heap t.heap := by
  induction hrun with
  | nil s => exact Evolves.refl s.heap
  | cons hallows hstep _ ih =>
    obtain ⟨s₁, hstep₁, hgood, hevolves⟩ := step_spec hs hallows
    cases Option.some.inj (hstep₁.symm.trans hstep)
    exact hevolves.trans (ih hgood)

/-- After any operations every object that is there is counted by exactly the references to it, at least one,
no reference leads to an object that is gone, and whatever operation comes next is done. -/
theorem counts_exact (hrun : Reaches ⟨[], []⟩ ops s) :
    (∀ o x, s.heap.get o = some x → 0 < x.uiRef ∧ (s.slots ++ s.heap.held).count (.ref o) = x.uiRef) ∧
      (∀ o, .ref o ∈ s.slots ++ s.heap.held → ∃ x, s.heap.get o = some x) ∧
      ∀ op, s.allows op = true → ∃ s', step s op = some s' := by
  have hgood := hrun.good good_init
  refine ⟨fun o x hx => ⟨?_, ?_⟩, fun o ho => ?_, fun op hallows => ?_⟩
  · exact Nat.pos_of_ne_zero fun hzero => absurd ((hgood.zero o x hx).mp hzero) List.not_mem_nil
  · rw [hgood.counted o, hx]
    rfl
  · exact (hgood.exists_of_mem ho).imp fun x hx => hx.1
  · exact (step_spec hgood hallows).imp fun s' hs' => hs'.1

/-- A chain of two objects, and a weak reference to the second one, when the first one is not referred to any
more. -/
def afterChain : State := ⟨[none, none, some ⟨1, none, .weakRef none⟩], [.null, .ref 2]⟩

theorem counts_exact_chain :
    (∀ o x, afterChain.heap.get o = some x →
      0 < x.uiRef ∧ (afterChain.slots ++ afterChain.heap.held).count (.ref o) = x.uiRef) ∧
      (∀ o, .ref o ∈ afterChain.slots ++ afterChain.heap.held → ∃ x, afterChain.heap.get o = some x) ∧
      ∀ op, afterChain.allows op = true → ∃ s', step afterChain op = some s' :=
  @counts_exact afterChain [.push, .push, .newObject (.slot 0) 1, .newObject (.field 0 0) 0,
      .weakref (.slot 1) (.field 0 0), .setNull (.slot 0)]
    (.cons rfl rfl (.cons rfl rfl (.cons rfl rfl (.cons rfl rfl (.cons rfl rfl (.cons rfl rfl (.nil _)))))))

/-- As long as a weak reference is there, it stands for its object while that is there, and for null once it
has gone. -/
theorem weakref_realval (hrun : Reaches ⟨[], []⟩ ops s) (hy : s.heap.get w = some y)
    (hobj : y.contents = .weakRef (some o)) (hrun' : Reaches s ops' t)
    (hthere : (t.heap.get w).isSome = true) :
    t.realval (.ref w) = some (if (t.heap.get o).isSome then .ref o else .null) := by
  have hgood := hrun.good good_init
  obtain ⟨y', hy'⟩ := Option.isSome_iff_exists.mp hthere
  have hgood' := hrun'.good hgood
  rw [State.realval, hy']
  rcases (hrun'.evolves hgood).weak w y y' (some o) hy hobj hy' with hsame | ⟨a, ha, hnull, -, hgone⟩
  · have hlink : t.heap.weakOf o = some w := (hgood'.weak o w).mpr (by rw [Heap.objOf_eq hy', hsame]; rfl)
    obtain ⟨x, hx, -⟩ := Option.bind_eq_some_iff.mp hlink
    simp [hsame, hx]
  · cases ha
    simp [hnull, hgone]

/-- The weak reference of an object that is released with the only slot that refers to it. -/
theorem weakref_realval_gone :
    State.realval ⟨[none, some ⟨1, none, .weakRef none⟩], [.null, .ref 1]⟩ (.ref 1) = some .null :=
  @weakref_realval 0 1 ⟨1, none, .weakRef (some 0)⟩
    ⟨[some ⟨1, some 1, .fields []⟩, some ⟨1, none, .weakRef (some 0)⟩], [.ref 0, .ref 1]⟩
    ⟨[none, some ⟨1, none, .weakRef none⟩], [.null, .ref 1]⟩
    [.push, .push, .newObject (.slot 0) 0, .weakref (.slot 1) (.slot 0)] [.setNull (.slot 0)]
    (.cons rfl rfl (.cons rfl rfl (.cons rfl rfl (.cons rfl rfl (.nil _))))) rfl rfl (.cons rfl rfl (.nil _)) rfl

/-! ## What is not released -/

/-- One object refers to another. -/
def Refers (h : Heap) (a b : Nat) : Prop := ∃ x, h.get a = some x ∧ .ref b ∈ x.contents.vals

open Relation (ReflTransGen TransGen) in
/-- An object that is there is reached from a slot or from a cycle of objects: only cycles leak. -/
theorem there_of_slot_or_cycle (hrun : Reaches ⟨[], []⟩ ops s) (hx : s.heap.get o = some x) :
    (∃ a, .ref a ∈ s.slots ∧ ReflTransGen (Refers s.heap) a o) ∨
      ∃ a, TransGen (Refers s.heap) a a ∧ ReflTransGen (Refers s.heap) a o := by
  have hgood := hrun.good good_init
  -- everything before the object is there too
  have hthere : ∀ a, ReflTransGen (Refers s.heap) a o → ∃ z, s.heap.get a = some z := fun a ha => by
    rcases ha.cases_head with rfl | ⟨b, ⟨z, hz, -⟩, -⟩
    · exact ⟨x, hx⟩
    · exact ⟨z, hz⟩
  refine Lib.exists_start_or_cycle ?_ fun a ha => ?_
  · refine (Set.finite_lt_nat s.heap.length).subset fun a ha => ?_
    obtain ⟨z, hz⟩ := hthere a ha
    exact Heap.lt_of_get hz
  · obtain ⟨z, hz⟩ := hthere a ha
    have hpos : z.uiRef ≠ 0 := fun hzero => absurd ((hgood.zero a z hz).mp hzero) List.not_mem_nil
    have hcount := hgood.counted a
    rw [hz] at hcount
    have hmem : .ref a ∈ s.slots ++ s.heap.held := List.count_pos_iff.mp (by
      rw [hcount]
      exact Nat.pos_of_ne_zero hpos)
    rcases List.mem_append.mp hmem with hslot | hheld
    · exact .inl hslot
    · obtain ⟨u, hu, hv⟩ := List.mem_flatMap.mp hheld
      cases u with
      | none => cases hv
      | some u =>
        obtain ⟨b, hb⟩ := List.getElem?_of_mem hu
        exact .inr ⟨b, u, by rw [Heap.get, hb]; rfl, hv⟩

open Relation (ReflTransGen TransGen) in
/-- An object that refers to itself outlives its slot. -/
theorem there_of_slot_or_cycle_self :
    (∃ a, SQObjectPtr.ref a ∈ [SQObjectPtr.null] ∧
        ReflTransGen (Refers [some ⟨1, none, .fields [.ref 0]⟩]) a 0) ∨
      ∃ a, TransGen (Refers [some ⟨1, none, .fields [.ref 0]⟩]) a a ∧
        ReflTransGen (Refers [some ⟨1, none, .fields [.ref 0]⟩]) a 0 :=
  @there_of_slot_or_cycle 0 ⟨1, none, .fields [.ref 0]⟩ ⟨[some ⟨1, none, .fields [.ref 0]⟩], [.null]⟩
    [.push, .newObject (.slot 0) 1, .copy (.field 0 0) (.slot 0), .setNull (.slot 0)]
    (.cons rfl rfl (.cons rfl rfl (.cons rfl rfl (.cons rfl rfl (.nil _))))) rfl

end Quirrel.RefCount
