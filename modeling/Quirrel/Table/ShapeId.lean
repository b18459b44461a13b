import Quirrel.Table.Reachable

/-!
# Equal shape ids mean equal layouts

Two grown shapes with the same recorded insertions hold the same keys in the same nodes
(`Grown.keyAt_eq`). If both started with the same number of nodes, the record determines the
inserted keys (`Grown.prefix`), and with them the shape. If they did not, the smaller one has not
been rehashed (`Grown.dup_of_rehash`: a rehash records its keys again too early for the larger one),
and then no key of the larger one was ever put anywhere but in its main position, which is its main
position in the smaller one as well.
-/

set_option autoImplicit false

namespace Quirrel.Table

open Quirrel.Lib SQTable

universe u v

variable {K : Type u} [DecidableEq K]

section Grown

variable {o : ObjectOps K Unit} {a : Nat} {us vs : List K} {g h : SQTable K Unit} {k : K}

/-! ## What one insertion records -/

/-- The hash of the recorded insertions. -/
def shapeHash {V : Type v} (o : ObjectOps K V) (r : List (Nat × K)) : UInt64 :=
  recordHash o classTypeHashInit r

/-- A table with an id, or a new one: the id is the hash of what was recorded. -/
structure Recorded (o : ObjectOps K Unit) (us : List K) (g : SQTable K Unit) : Prop where
  nil : us = [] → g.recorded = [] ∧ g.classTypeId = 0 ∧ g.usednodes = 0
  cons : us ≠ [] → g.classTypeId ≠ 0 ∧ g.classTypeId = shapeHash o g.recorded
  strings : ∀ p ∈ g.recorded, ∃ a, o.stringAddr p.2 = some a

theorem Grown.nil_eq (hg : Grown o a [] g) : g = create o ((2 ^ (a + 1) : Nat) : Int) := by
  generalize hus : ([] : List K) = us at hg
  cases hg with
  | nil => rfl
  | next _ _ _ _ => exact absurd hus (by simp)

omit [DecidableEq K] in
/-- Without a rehash the new key is recorded. -/
theorem Recorded.placed (hr : Recorded o us g) {t1 : SQTable K Unit} {mp f : Nat}
    (P : Placed o g k t1 mp) (hid : (finishSlot o t1 f k () mp).classTypeId ≠ 0) :
    (finishSlot o t1 f k () mp).recorded = g.recorded ++ [(mp, k)] ∧
      (finishSlot o t1 f k () mp).classTypeId =
        shapeHash o (finishSlot o t1 f k () mp).recorded := by
  obtain ⟨-, -, ⟨h0, hext⟩ | ⟨h0, hu, hrec, hhash⟩⟩ := finishSlot_ne_zero hid
  · have hus : us ≠ [] := fun hnil => h0 (P.classTypeId_eq.trans (hr.nil hnil).2.1)
    have hext' := P.extends hext
    refine ⟨hext'.recorded, ?_⟩
    rw [hext'.classTypeId, hext'.recorded, (hr.cons hus).2, shapeHash, shapeHash, recordHash,
      recordHash, recordHash, List.foldl_append]
  · -- the first key of a new array
    have hus : us = [] := by
      by_contra hne
      exact (hr.cons hne).1 (P.classTypeId_eq.symm.trans h0)
    refine ⟨?_, ?_⟩
    · rw [hrec, (hr.nil hus).1]
      rfl
    · rw [hhash, hrec]
      rfl

/-- One insertion into a grown shape records the new key, or, with a rehash, all keys again. -/
theorem Grown.step (hg : Grown o a us g) (hr : Recorded o us g) (hk : k ∉ us) {g' : SQTable K Unit}
    {b : Bool} (hns : newSlot o 2 g k () = some (g', b)) (hid : g'.classTypeId ≠ 0) :
    ∃ l, g'.recorded = g.recorded ++ l ∧
      (g'.classTypeId = shapeHash o g'.recorded ∧
        g'.numofnodesMinusOne < 1 <<< tblClassTypeMemberBits ∧
        ∀ p ∈ l, ∃ a, o.stringAddr p.2 = some a) ∧
      ((us.length + 1 < g.size ∧ g'.size = g.size ∧ ∃ mp < g.size, l = [(mp, k)]) ∨
        (us.length + 1 = g.size ∧ (l.map Prod.snd).Perm (k :: us))) := by
  obtain ⟨m, R, D, hm, hc⟩ := hg.represents
  have hnew : k ∉ m := fun h => hk ((hm k).1 h)
  rcases newSlot_new R D hnew hns with
    ⟨hlt, t1, mp, f, P, -, rfl⟩ | ⟨heq, t1, mp, t3, i, P, he3, -, -, -, rfl⟩
  -- there was room: the new key is recorded behind the others
  · rw [hc] at hlt
    have hsize : (finishSlot o t1 f k () mp).size = g.size := by
      rw [size, size, numofnodesMinusOne_finishSlot, P.numofnodes_eq]
    obtain ⟨hrec, hhash⟩ := hr.placed P hid
    have hmp : mp < g.size := by
      have hle := P.key_le P.key_mp
      rw [P.numofnodes_eq] at hle
      exact Nat.lt_succ_of_le hle
    obtain ⟨hstr, hsmall, -⟩ := finishSlot_ne_zero hid
    refine ⟨_, hrec, ⟨hhash, by rwa [numofnodesMinusOne_finishSlot], fun p hp => ?_⟩,
      .inl ⟨hlt, hsize, mp, hmp, rfl⟩⟩
    rw [List.mem_singleton.1 hp]
    exact hstr
  -- the table was full: after the rehash all the keys are recorded anew
  · rw [hc] at heq
    have hus : us ≠ [] := by
      rintro rfl
      rw [hg.nil_eq, size_create_pow] at heq
      exact absurd heq (Nat.one_lt_two_pow (by omega)).ne
    rw [setVal_unit] at hid ⊢
    obtain ⟨n, hn, hlt⟩ := P.rehashSize R hnew
    rw [rehash_of_some hn] at he3
    have hpos : 0 < 2 ^ (n + 1) := Nat.two_pow_pos (n + 1)
    have h0 : (freshNodes o (2 ^ (n + 1)) { t1 with firstfree := 0 }).classTypeId ≠ 0 := by
      show t1.classTypeId ≠ 0
      rw [P.classTypeId_eq]
      exact (hr.cons hus).1
    obtain ⟨l, hl, hext, hsmall⟩ := foldlM_extends (P.stores_insert R)
      (represents_freshNodes ⟨n + 1, rfl⟩ _) (dense_freshNodes _ _)
      (by rw [size_freshNodes hpos]; exact hlt) 0 h0 _ he3 hid
    have hrec : t3.recorded = g.recorded ++ l := by
      rw [hext.recorded]
      show t1.recorded ++ l = _
      rw [P.recorded_eq]
    obtain ⟨hnd, hmem⟩ := (P.stores_insert R).keysBelow_size
    refine ⟨l, hrec, ⟨?_, hsmall ?_, hext.strings⟩, .inr ⟨heq, ?_⟩⟩
    · rw [hext.classTypeId, hrec, shapeHash, recordHash, recordHash, List.foldl_append]
      show List.foldl _ t1.classTypeId l = _
      rw [P.classTypeId_eq, (hr.cons hus).2]
      rfl
    · exact List.ne_nil_of_mem ((hmem k).2 (Finmap.mem_insert.2 (.inl rfl)))
    · -- the keys of the nodes are the old ones and the new one
      rw [hl, List.perm_ext_iff_of_nodup hnd (List.nodup_cons.2 ⟨hk, hg.nodup⟩)]
      intro x
      rw [hmem, Finmap.mem_insert, hm, List.mem_cons]

theorem Grown.recorded (hg : Grown o a us g) : Recorded o us g := by
  induction hg with
  | nil =>
    exact ⟨fun _ => ⟨rfl, rfl, rfl⟩, fun h => absurd rfl h, fun p hp => absurd hp List.not_mem_nil⟩
  | next hg hk hns hid ih =>
    obtain ⟨l, hl, ⟨hhash, -, hstr⟩, -⟩ := hg.step ih hk hns hid
    refine ⟨fun h => absurd h (by simp), fun _ => ⟨hid, hhash⟩, fun p hp => ?_⟩
    rw [hl, List.mem_append] at hp
    exact hp.elim (ih.strings p) (hstr p)

/-- The shape before the last insertion. -/
theorem Grown.snoc (hg : Grown o a (us ++ [k]) h) :
    ∃ g b, Grown o a us g ∧ k ∉ us ∧ newSlot o 2 g k () = some (h, b) ∧ h.classTypeId ≠ 0 := by
  generalize hvs : us ++ [k] = vs at hg
  cases hg with
  | nil => exact absurd hvs (by simp)
  | @next us' k' g _ b hg hk hns hid =>
    obtain ⟨rfl, hkk⟩ := List.append_inj' hvs rfl
    obtain rfl := (List.cons.inj hkk).1
    exact ⟨g, b, hg, hk, hns, hid⟩

/-- The inserted keys determine the shape. -/
theorem Grown.unique {g' : SQTable K Unit} (hg : Grown o a us g) (hg' : Grown o a us g') :
    g = g' := by
  induction hg generalizing g' with
  | nil => exact hg'.nil_eq.symm
  | next _ _ hns _ ih =>
    obtain ⟨g1, b, hg1, -, hns', -⟩ := hg'.snoc
    rw [ih hg1, hns'] at hns
    exact ((Prod.mk.inj (Option.some.inj hns)).1).symm

/-- The shape after a part of the insertions, which recorded a part of the record. -/
theorem Grown.of_prefix (hg : Grown o a us g) (hv : vs <+: us) :
    ∃ h, Grown o a vs h ∧ h.recorded <+: g.recorded := by
  induction hg with
  | nil =>
    rw [List.prefix_nil.1 hv]
    exact ⟨_, .nil, List.prefix_refl _⟩
  | next hg hk hns hid ih =>
    rcases List.prefix_concat_iff.1 hv with rfl | hv
    · exact ⟨_, hg.next hk hns hid, List.prefix_refl _⟩
    · obtain ⟨h, hh, hpre⟩ := ih hv
      obtain ⟨l, hl, -⟩ := hg.step hg.recorded hk hns hid
      exact ⟨h, hh, hpre.trans ⟨l, hl.symm⟩⟩

/-! ## The same number of nodes -/

/-- A record that begins another one comes from insertions that begin the other ones. -/
theorem Grown.prefix (hg : Grown o a us g) (hh : Grown o a vs h)
    (hpre : g.recorded <+: h.recorded) : us <+: vs := by
  induction hg with
  | nil => exact List.nil_prefix
  | @next us k g g' b hg hk hns hid ih =>
    obtain ⟨l, hl, -, hcase⟩ := hg.step hg.recorded hk hns hid
    have hlen : 0 < l.length := by
      rcases hcase with ⟨-, -, mp, -, rfl⟩ | ⟨-, hperm⟩
      · exact Nat.one_pos
      · have hl' := hperm.length_eq
        rw [List.length_map, List.length_cons] at hl'
        omega
    obtain ⟨rest, hrest⟩ := ih ((show g.recorded <+: g'.recorded from ⟨l, hl.symm⟩).trans hpre)
    cases rest with
    | nil =>
      -- nothing more was inserted, but more was recorded
      rw [List.append_nil] at hrest
      subst hrest
      have hle := hpre.length_le
      rw [hl, List.length_append, hg.unique hh] at hle
      omega
    | cons y rest =>
      obtain ⟨h1, hh1, hpre1⟩ := hh.of_prefix
        (show us ++ [y] <+: vs from ⟨rest, by rw [← hrest]; simp⟩)
      obtain ⟨g1, b1, hg1, hy, hns1, hid1⟩ := hh1.snoc
      obtain rfl := hg.unique hg1
      obtain ⟨l1, hl1, -, hcase1⟩ := hg.step hg.recorded hy hns1 hid1
      -- `l` and `l1` have the same length and begin the same list
      have hlen1 : l.length = l1.length := by
        rcases hcase with ⟨hlt, -, mp, -, rfl⟩ | ⟨heq, hperm⟩ <;>
          rcases hcase1 with ⟨hlt1, -, mp1, -, rfl⟩ | ⟨heq1, hperm1⟩
        · rfl
        · omega
        · omega
        · have h1 := hperm.length_eq
          have h2 := hperm1.length_eq
          rw [List.length_map, List.length_cons] at h1 h2
          omega
      have hll : l = l1 := by
        have h1 : g.recorded ++ l <+: h.recorded := hl ▸ hpre
        have h2 : g.recorded ++ l1 <+: h.recorded := hl1 ▸ hpre1
        have h3 := List.prefix_of_prefix_length_le h1 h2 (by simp [hlen1])
        exact List.append_cancel_left (h3.eq_of_length (by simp [hlen1]))
      subst hll
      have hky : k = y := by
        rcases hcase with ⟨hlt, -, mp, -, rfl⟩ | ⟨heq, hperm⟩ <;>
          rcases hcase1 with ⟨hlt1, -, mp1, -, hone⟩ | ⟨heq1, hperm1⟩
        · exact (Prod.mk.inj (List.cons.inj hone).1).2
        · omega
        · omega
        · have hmem := hperm1.mem_iff.1 (hperm.mem_iff.2 List.mem_cons_self)
          rcases List.mem_cons.1 hmem with h | h
          · exact h
          · exact absurd h hk
      rw [hky, ← hrest]
      exact ⟨rest, by simp⟩

/-! ## Different numbers of nodes -/

/-- With fewer keys than nodes the table was not rehashed. -/
theorem Grown.no_rehash (hg : Grown o a us g) (hlen : us.length < 2 ^ (a + 1)) :
    g.size = 2 ^ (a + 1) ∧ g.recorded.map Prod.snd = us ∧
      ∀ p ∈ g.recorded, p.1 < 2 ^ (a + 1) := by
  induction hg with
  | nil => exact ⟨size_create_pow _, rfl, fun p hp => absurd hp List.not_mem_nil⟩
  | @next us k g g' b hg hk hns hid ih =>
    rw [List.length_append, List.length_singleton] at hlen
    obtain ⟨hsize, hmap, hpos⟩ := ih (by omega)
    obtain ⟨l, hl, -, ⟨-, hs, mp, hmp, rfl⟩ | ⟨heq, -⟩⟩ := hg.step hg.recorded hk hns hid
    · refine ⟨hs.trans hsize, by rw [hl, List.map_append, hmap]; rfl, fun p hp => ?_⟩
      rw [hl, List.mem_append, List.mem_singleton] at hp
      rcases hp with hp | rfl
      · exact hpos p hp
      · rw [← hsize]
        exact hmp
    · omega

/-- The first keys recorded, as many as there are nodes but one, are distinct. -/
theorem Grown.take_nodup (hg : Grown o a us g) :
    ((g.recorded.map Prod.snd).take (2 ^ (a + 1) - 1)).Nodup := by
  by_cases hlen : us.length < 2 ^ (a + 1)
  · rw [(hg.no_rehash hlen).2.1]
    exact hg.nodup.sublist (List.take_sublist _ _)
  · obtain ⟨h, hh, hpre⟩ := hg.of_prefix (List.take_prefix (2 ^ (a + 1) - 1) us)
    have hpos : 0 < 2 ^ (a + 1) := Nat.two_pow_pos _
    have hl : (us.take (2 ^ (a + 1) - 1)).length = 2 ^ (a + 1) - 1 := by
      rw [List.length_take]
      omega
    have hkeys := (hh.no_rehash (by omega)).2.1
    have hpre' := List.prefix_iff_eq_take.1 (hpre.map Prod.snd)
    rw [hkeys, hl] at hpre'
    rw [← hpre']
    exact hh.nodup

/-- A rehash records one of the old keys again. -/
theorem Grown.dup_of_rehash (hg : Grown o a us g) (hlen : 2 ^ (a + 1) ≤ us.length) :
    ¬ ((g.recorded.map Prod.snd).take (2 ^ (a + 1) + 1)).Nodup := by
  have htwo : 2 ≤ 2 ^ (a + 1) := by
    have := Nat.two_pow_pos a
    omega
  -- the shape right after the first rehash
  obtain ⟨h, hh, hpre⟩ := hg.of_prefix (List.take_prefix (2 ^ (a + 1)) us)
  have hne : us.take (2 ^ (a + 1)) ≠ [] := by
    intro hnil
    have := congrArg List.length hnil
    rw [List.length_take, List.length_nil] at this
    omega
  rw [← List.dropLast_append_getLast hne] at hh
  have hq : (us.take (2 ^ (a + 1))).dropLast.length = 2 ^ (a + 1) - 1 := by
    rw [List.length_dropLast, List.length_take]
    omega
  generalize (us.take (2 ^ (a + 1))).dropLast = q at hh hq
  generalize (us.take (2 ^ (a + 1))).getLast hne = x at hh
  obtain ⟨g0, b, hg0, hx, hns, hid⟩ := hh.snoc
  obtain ⟨hsize, hkeys, -⟩ := hg0.no_rehash (by omega)
  obtain ⟨l, hl, -, ⟨hlt, -⟩ | ⟨-, hperm⟩⟩ := hg0.step hg0.recorded hx hns hid
  · omega
  · intro hnd
    have hlen2 : (l.map Prod.snd).length = 2 ^ (a + 1) := by
      rw [hperm.length_eq, List.length_cons]
      omega
    obtain ⟨y, y', rest, hy⟩ : ∃ y y' rest, l.map Prod.snd = y :: y' :: rest := by
      cases hm : l.map Prod.snd with
      | nil =>
        rw [hm, List.length_nil] at hlen2
        omega
      | cons y l1 =>
        cases l1 with
        | nil =>
          rw [hm, List.length_singleton] at hlen2
          omega
        | cons y' rest => exact ⟨y, y', rest, rfl⟩
    have hsub : q ++ [y, y'] <+: g.recorded.map Prod.snd := by
      refine List.IsPrefix.trans ?_ (hpre.map Prod.snd)
      rw [hl, List.map_append, hkeys, hy]
      exact ⟨rest, by simp⟩
    have htake := List.prefix_iff_eq_take.1 hsub
    rw [show (q ++ [y, y']).length = 2 ^ (a + 1) + 1 by simp; omega] at htake
    rw [← htake] at hnd
    -- two keys that are not old ones are both the new one
    have hnew : ∀ z ∈ [y, y'], z = x := by
      intro z hz
      have hzl : z ∈ l.map Prod.snd := by
        rw [hy]
        exact (List.cons_subset.2 ⟨List.mem_cons_self, List.cons_subset.2
          ⟨List.mem_cons_of_mem _ List.mem_cons_self, List.nil_subset _⟩⟩) hz
      rcases List.mem_cons.1 (hperm.mem_iff.1 hzl) with h | h
      · exact h
      · exact absurd rfl ((List.nodup_append.1 hnd).2.2 z h z hz)
    have hyy := (List.nodup_cons.1 (List.nodup_append.1 hnd).2.1).1
    rw [hnew y List.mem_cons_self, hnew y' (List.mem_cons_of_mem _ List.mem_cons_self)] at hyy
    exact hyy List.mem_cons_self

/-! ## Layouts without moved keys -/

/-- One insertion without a rehash, where every key is in its main position. -/
theorem Grown.step_home (hg : Grown o a us g) (hk : k ∉ us) {g' : SQTable K Unit} {b : Bool}
    (hns : newSlot o 2 g k () = some (g', b)) (hid : g'.classTypeId ≠ 0)
    (hlen : us.length + 1 < g.size)
    (hhome : ∀ {i c}, g.keyAt i = some c → mainPosition o g c = i) :
    ∃ mp, g'.recorded = g.recorded ++ [(mp, k)] ∧ g.keyAt mp = none ∧
      g'.keyAt = Function.update g.keyAt mp (some k) ∧
      g'.numofnodesMinusOne = g.numofnodesMinusOne ∧
      ((mp = mainPosition o g k ∧ (g.firstfree ≠ mp → g'.firstfree = g.firstfree)) ∨
        (mp = g.firstfree ∧ mp ≠ mainPosition o g k)) := by
  obtain ⟨m, R, D, hm, hc⟩ := hg.represents
  have hnew : k ∉ m := fun h => hk ((hm k).1 h)
  have habs := R.stores.not_mem_iff.1 hnew
  have hnone : ∀ {t1 mp}, Placed o g k t1 mp → correctFirstfree t1 t1.firstfree ≠ none := by
    intro t1 mp P hf
    have hge := (P.stores R.stores).size_le_card (P.full_of_none D hf)
    rw [card_keys_insert hnew, hc, size, P.numofnodes_eq] at hge
    rw [size] at hlen
    omega
  rcases placeKey_cases R.wf (mainPosition o g k) with ⟨hh, hp⟩ | ⟨c, hcc, hcm, hp⟩ |
    ⟨c, p, hcc, hcm, -, -⟩
  · have P := placed_put R.wf habs hh
    rcases newSlot_of_placeKey (getNode_of_absent R.wf habs) hp 1 () with ⟨f, hf, he⟩ | ⟨hf, -⟩
    · rw [he, Option.some.injEq, Prod.mk.injEq] at hns
      obtain ⟨rfl, -⟩ := hns
      refine ⟨mainPosition o g k, (hg.recorded.placed P hid).1, hh, by
        rw [keyAt_finishSlot, keyAt_setKey], by simp [P.numofnodes_eq], .inl ⟨rfl, ?_⟩⟩
      intro hne
      -- the old `_firstfree` is still free, so it is the first that is tried
      have hfree : isFree (g.setKey (mainPosition o g k) (some k)) g.firstfree = true := by
        rw [isFree_iff, keyAt_setKey, nextAt_setKey, Function.update_of_ne hne]
        exact R.wf.free
      obtain ⟨hle, -, hno⟩ := correctFirstfree_some hf
      rw [firstfree_finishSlot]
      by_contra hlt
      have := hno g.firstfree (by omega) (le_refl _)
      rw [hfree] at this
      exact absurd this (by simp)
    · exact absurd hf (hnone P)
  · have P := placed_chained R.wf habs hcc hcm
    rcases newSlot_of_placeKey (getNode_of_absent R.wf habs) hp 1 () with ⟨f, hf, he⟩ | ⟨hf, -⟩
    · rw [he, Option.some.injEq, Prod.mk.injEq] at hns
      obtain ⟨rfl, -⟩ := hns
      refine ⟨g.firstfree, (hg.recorded.placed P hid).1, R.wf.free.1, by
        rw [keyAt_finishSlot, keyAt_setKey, keyAt_chained], by simp [P.numofnodes_eq],
        .inr ⟨rfl, ?_⟩⟩
      intro heq
      have hfree := R.wf.free.1
      rw [heq, hcc] at hfree
      exact absurd hfree (by simp)
    · exact absurd hf (hnone P)
  · exact absurd (hhome hcc) hcm

/-- When every key was recorded at its main position, the record is the layout. -/
theorem Grown.keyAt_iff_recorded (hg : Grown o a us g) (hlen : us.length < 2 ^ (a + 1))
    (hhome : ∀ p ∈ g.recorded, p.1 = mainPosition o g p.2) (i : Nat) (c : K) :
    g.keyAt i = some c ↔ (i, c) ∈ g.recorded := by
  induction hg generalizing i c with
  | nil => exact iff_of_false (by simp [create, allocNodes, keyAt, emptyNode]) List.not_mem_nil
  | @next us k g g' b hg hk hns hid ih =>
    rw [List.length_append, List.length_singleton] at hlen
    have hsize := (hg.no_rehash (by omega)).1
    obtain ⟨l, hl, -⟩ := hg.step hg.recorded hk hns hid
    have hmain : mainPosition o g' = mainPosition o g := by
      obtain ⟨l, -, -, ⟨-, hs, -⟩ | ⟨heq, -⟩⟩ := hg.step hg.recorded hk hns hid
      · apply mainPosition_congr
        rw [size, size] at hs
        omega
      · omega
    rw [hmain] at hhome
    have hold : ∀ p ∈ g.recorded, p.1 = mainPosition o g p.2 := by
      intro p hp
      exact hhome p (hl ▸ List.mem_append_left l hp)
    have ih' := ih (by omega) hold
    obtain ⟨mp, hrec, hfree, hkey, -, -⟩ := hg.step_home hk hns hid (by omega)
      (fun {i c} hi => (hold _ ((ih' i c).1 hi)).symm)
    rw [hkey, hrec, List.mem_append, List.mem_singleton, ← ih', Prod.mk.injEq]
    by_cases hi : i = mp
    · subst hi
      rw [Function.update_self, hfree, Option.some.injEq]
      exact ⟨fun h => .inr ⟨rfl, h.symm⟩, fun h => (h.resolve_left (by simp)).2.symm⟩
    · rw [Function.update_of_ne hi]
      exact ⟨.inl, fun h => h.resolve_right (fun h => hi h.1)⟩

/-- When the last node was never recorded, every key was put into its main position. -/
theorem Grown.recorded_home (hg : Grown o a us g) (hlen : us.length < 2 ^ (a + 1))
    (hlast : ∀ p ∈ g.recorded, p.1 ≠ 2 ^ (a + 1) - 1) :
    g.firstfree = 2 ^ (a + 1) - 1 ∧ ∀ p ∈ g.recorded, p.1 = mainPosition o g p.2 := by
  induction hg with
  | nil =>
    exact ⟨numofnodesMinusOne_create_pow (o := o) (a + 1), fun p hp => absurd hp List.not_mem_nil⟩
  | @next us k g g' b hg hk hns hid ih =>
    rw [List.length_append, List.length_singleton] at hlen
    have hsize := (hg.no_rehash (by omega)).1
    obtain ⟨l, hl, -⟩ := hg.step hg.recorded hk hns hid
    obtain ⟨hfree, hold⟩ := ih (by omega) fun p hp => hlast p (hl ▸ List.mem_append_left l hp)
    obtain ⟨mp, hrec, -, -, hn, hcase⟩ := hg.step_home hk hns hid (by omega)
      (fun {i c} hi => (hold _ ((hg.keyAt_iff_recorded (by omega) hold i c).1 hi)).symm)
    have hmp : mp ≠ 2 ^ (a + 1) - 1 :=
      hlast (mp, k) (hrec ▸ List.mem_append_right _ (List.mem_singleton_self _))
    rcases hcase with ⟨hmain, hff⟩ | ⟨hff, -⟩
    · refine ⟨(hff (by rw [hfree]; exact hmp.symm)).trans hfree, fun p hp => ?_⟩
      rw [mainPosition_congr hn]
      rw [hrec, List.mem_append, List.mem_singleton] at hp
      rcases hp with hp | rfl
      · exact hold p hp
      · exact hmain
    · exact absurd (hff.trans hfree) hmp

/-- Of two shapes with one record the smaller array puts its keys where the larger one does. -/
theorem Grown.keyAt_eq_of_lt {a' : Nat} (haa : a < a') (hg : Grown o a us g)
    (hh : Grown o a' vs h) (hrec : g.recorded = h.recorded) : g.keyAt = h.keyAt := by
  have hpow : 2 * 2 ^ (a + 1) ≤ 2 ^ (a' + 1) := by
    rw [← Nat.pow_succ']
    exact Nat.pow_le_pow_right (by omega) (by omega)
  have hpos : 2 ≤ 2 ^ (a + 1) := by
    have := Nat.two_pow_pos a
    omega
  have hus : us.length < 2 ^ (a + 1) := by
    by_contra hge
    have hdup := hg.dup_of_rehash (by omega)
    have hnd := hh.take_nodup
    rw [hrec] at hdup
    refine hdup (hnd.sublist ?_)
    have hmin : 2 ^ (a + 1) + 1 = min (2 ^ (a + 1) + 1) (2 ^ (a' + 1) - 1) := by omega
    rw [hmin, ← List.take_take]
    exact List.take_sublist _ _
  obtain ⟨hsize, hkeys, hlt⟩ := hg.no_rehash hus
  have hvs : vs.length < 2 ^ (a' + 1) := by
    by_contra hge
    refine hh.dup_of_rehash (by omega) ?_
    rw [← hrec, hkeys]
    exact hg.nodup.sublist (List.take_sublist _ _)
  have hsize' := (hh.no_rehash hvs).1
  obtain ⟨-, hhome'⟩ := hh.recorded_home hvs fun p hp => by
    have := hlt p (hrec ▸ hp)
    omega
  have hhome : ∀ p ∈ g.recorded, p.1 = mainPosition o g p.2 := by
    intro p hp
    have h1 := hlt p hp
    have h2 := hhome' p (hrec ▸ hp)
    rw [mainPosition, show h.numofnodesMinusOne = 2 ^ (a' + 1) - 1 by rw [← hsize', size]; omega,
      Nat.and_two_pow_sub_one_eq_mod] at h2
    rw [mainPosition, show g.numofnodesMinusOne = 2 ^ (a + 1) - 1 by rw [← hsize, size]; omega,
      Nat.and_two_pow_sub_one_eq_mod]
    -- the position is below the smaller size, so the larger mask gives no more bits
    rw [← Nat.mod_mod_of_dvd _ (pow_dvd_pow 2 (show a + 1 ≤ a' + 1 by omega)), ← h2,
      Nat.mod_eq_of_lt h1]
  funext i
  apply Option.ext
  intro c
  rw [hg.keyAt_iff_recorded hus hhome, hh.keyAt_iff_recorded hvs hhome', hrec]

/-- Grown shapes with one record hold the same keys in the same nodes. -/
theorem Grown.keyAt_eq {a' : Nat} (hg : Grown o a us g) (hh : Grown o a' vs h)
    (hrec : g.recorded = h.recorded) : g.keyAt = h.keyAt := by
  rcases Nat.lt_trichotomy a a' with hlt | rfl | hlt
  · exact hg.keyAt_eq_of_lt hlt hh hrec
  · have h1 := hg.prefix hh (hrec ▸ List.prefix_refl _)
    have h2 := hh.prefix hg (hrec ▸ List.prefix_refl _)
    have heq : us = vs := h1.eq_of_length (le_antisymm h1.length_le h2.length_le)
    subst heq
    rw [hg.unique hh]
  · exact (hh.keyAt_eq_of_lt hlt hg hrec.symm).symm

/-- Only an array whose node indices fit into a hint gets an id. -/
theorem Grown.numofnodes_lt (hg : Grown o a us g) (hne : us ≠ []) :
    g.numofnodesMinusOne < 1 <<< tblClassTypeMemberBits := by
  cases hg with
  | nil => exact absurd rfl hne
  | next hg hk hns hid =>
    obtain ⟨l, -, ⟨-, hsmall, -⟩, -⟩ := hg.step hg.recorded hk hns hid
    exact hsmall

end Grown

/-! ## Reachable tables -/

section Reachable

variable {V : Type v} {o : ObjectOps K V} {t t1 t2 : SQTable K V}

/-- The insertions that were hashed, each as its position and the address of its string. -/
def insertedAddrs (o : ObjectOps K V) (r : List (Nat × K)) : List (Nat × Option Nat) :=
  r.map fun p => (p.1, o.stringAddr p.2)

/-- The hint `_OP_GET_LITERAL` and `_OP_SET_LITERAL` record for node `nodeIdx` of the table. -/
def tableHint (t : SQTable K V) (nodeIdx : Nat) : UInt64 :=
  (t.classTypeId &&& tblClassClassMask) ||| UInt64.ofNat nodeIdx

theorem Tracked.classTypeId_eq (T : Tracked o t) (hid : t.classTypeId ≠ 0) :
    t.classTypeId = shapeHash o t.recorded := by
  obtain ⟨a, us, hg⟩ := T.grown hid
  have hne : us ≠ [] := fun hnil => hid (hg.recorded.nil hnil).2.1
  exact (hg.recorded.cons hne).2

theorem Tracked.numofnodes_lt (T : Tracked o t) (hid : t.classTypeId ≠ 0) :
    t.numofnodesMinusOne < 32 := by
  obtain ⟨a, us, hg⟩ := T.grown hid
  have hne : us ≠ [] := fun hnil => hid (hg.recorded.nil hnil).2.1
  exact hg.numofnodes_lt hne

/-- Recorded insertions with the same addresses are insertions of the same keys. -/
theorem recorded_eq_of_addrs (T1 : Tracked o t1) (T2 : Tracked o t2) (h1 : t1.classTypeId ≠ 0)
    (h2 : t2.classTypeId ≠ 0)
    (haddr : ∀ k k' a, o.stringAddr k = some a → o.stringAddr k' = some a → k = k')
    (h : insertedAddrs o t1.recorded = insertedAddrs o t2.recorded) :
    t1.recorded = t2.recorded := by
  obtain ⟨a1, us1, hg1⟩ := T1.grown h1
  obtain ⟨a2, us2, hg2⟩ := T2.grown h2
  have hs1 : ∀ p ∈ t1.recorded, ∃ a, o.stringAddr p.2 = some a := hg1.recorded.strings
  generalize t1.recorded = r1 at h hs1
  generalize t2.recorded = r2 at h
  induction r1 generalizing r2 with
  | nil =>
    cases r2 with
    | nil => rfl
    | cons p r2 => exact absurd h (by simp [insertedAddrs])
  | cons p r1 ih =>
    cases r2 with
    | nil => exact absurd h (by simp [insertedAddrs])
    | cons q r2 =>
      obtain ⟨i, k⟩ := p
      obtain ⟨j, k'⟩ := q
      simp only [insertedAddrs, List.map_cons, List.cons.injEq, Prod.mk.injEq] at h
      obtain ⟨⟨rfl, hkk⟩, hrest⟩ := h
      obtain ⟨addr, ha⟩ := hs1 (i, k) List.mem_cons_self
      obtain rfl := haddr k k' addr ha (hkk ▸ ha)
      rw [ih (fun p hp => hs1 p (List.mem_cons_of_mem _ hp)) r2 hrest]

/-- Reachable tables with the same id hold the same keys in the same nodes. -/
theorem keyAt_eq_of_classTypeId (T1 : Tracked o t1) (T2 : Tracked o t2)
    (hid : t1.classTypeId = t2.classTypeId) (hne : t1.classTypeId ≠ 0)
    (hfree : shapeHash o t1.recorded = shapeHash o t2.recorded →
      insertedAddrs o t1.recorded = insertedAddrs o t2.recorded)
    (haddr : ∀ k k' a, o.stringAddr k = some a → o.stringAddr k' = some a → k = k') :
    t1.keyAt = t2.keyAt := by
  have hne2 : t2.classTypeId ≠ 0 := hid ▸ hne
  have hhash : shapeHash o t1.recorded = shapeHash o t2.recorded := by
    rw [← T1.classTypeId_eq hne, ← T2.classTypeId_eq hne2, hid]
  have hrec := recorded_eq_of_addrs T1 T2 hne hne2 haddr (hfree hhash)
  obtain ⟨a1, us1, hg1⟩ := T1.grown hne
  obtain ⟨a2, us2, hg2⟩ := T2.grown hne2
  exact hg1.keyAt_eq hg2 hrec

/-- A hint keeps the node index in its low bits and the id in the others. -/
theorem tableHint_bits {i : Nat} (hi : i < 32) (c : UInt64) :
    (((c &&& tblClassClassMask) ||| UInt64.ofNat i) &&& tblClassTypeMemberMask).toNat = i ∧
      ((c &&& tblClassClassMask) ||| UInt64.ofNat i) &&& tblClassClassMask =
        c &&& tblClassClassMask := by
  have hdist : ∀ x y z : UInt64, (x ||| y) &&& z = (x &&& z) ||| (y &&& z) := by
    intro x y z
    apply UInt64.toBitVec_inj.1
    ext j hj
    simp [Bool.and_or_distrib_right]
  have hlow : ∀ i < 32, (UInt64.ofNat i &&& tblClassTypeMemberMask).toNat = i := by decide
  have hhigh : ∀ i < 32, UInt64.ofNat i &&& tblClassClassMask = 0 := by decide
  have hmask : tblClassClassMask &&& tblClassTypeMemberMask = 0 := by decide
  have hself : tblClassClassMask &&& tblClassClassMask = tblClassClassMask := by decide
  constructor
  · rw [hdist, UInt64.and_assoc, hmask, UInt64.and_zero, UInt64.zero_or, hlow i hi]
  · rw [hdist, UInt64.and_assoc, hself, hhigh i hi, UInt64.or_zero]

/-- A hint for a node that holds the string key leads to that node. -/
theorem getNodeFromTypeHint_of_key {i : Nat} {k : K} {hint : UInt64}
    (hi : (hint &&& tblClassTypeMemberMask).toNat = i) (hle : i ≤ t.numofnodesMinusOne)
    (hk : t.keyAt i = some k) (hs : ∃ a, o.stringAddr k = some a) :
    getNodeFromTypeHint o t hint k = some i := by
  obtain ⟨a, ha⟩ := hs
  have hk' : (t.nodes i).key = some k := hk
  simp only [getNodeFromTypeHint, hi, hk', ha]
  rw [if_neg (by omega)]
  simp

theorem shapeId_sound (o : ObjectOps K V) {depth1 depth2 : Nat} {size1 size2 : Int}
    {ops1 ops2 : List (TableOp K V)} {t1 t2 : SQTable K V}
    (h1 : runOps o (depth1 + 2) size1 ops1 = some t1)
    (h2 : runOps o (depth2 + 2) size2 ops2 = some t2)
    (hid : t1.classTypeId = t2.classTypeId) (hne : t1.classTypeId ≠ 0)
    (hfree : shapeHash o t1.recorded = shapeHash o t2.recorded →
      insertedAddrs o t1.recorded = insertedAddrs o t2.recorded)
    (haddr : ∀ k k' a, o.stringAddr k = some a → o.stringAddr k' = some a → k = k')
    {k : K} (hs : ∃ a, o.stringAddr k = some a) {i : Nat} (hk : t1.keyAt i = some k) :
    t2.keyAt i = some k ∧ getNode o t2 k = some (some i) ∧
      tableHint t1 i &&& tblClassClassMask = t2.classTypeId &&& tblClassClassMask ∧
      getNodeFromTypeHint o t2 (tableHint t1 i) k = some i := by
  have T1 := runOps_tracked h1
  have T2 := runOps_tracked h2
  have hk2 : t2.keyAt i = some k := by
    rw [← keyAt_eq_of_classTypeId T1 T2 hid hne hfree haddr]
    exact hk
  obtain ⟨t, he, R⟩ := runOps_represents (o := o) depth2 size2 ops2
  rw [h2, Option.some.injEq] at he
  subst he
  have hle := R.wf.key_le hk2
  have hlt := T2.numofnodes_lt (hid ▸ hne)
  obtain ⟨hlow, hhigh⟩ := tableHint_bits (show i < 32 by omega) t1.classTypeId
  exact ⟨hk2, getNode_of_key R.wf hk2, by rw [tableHint, hhigh, hid],
    getNodeFromTypeHint_of_key hlow hle hk2 hs⟩

/-- Numbers as interned strings, eight bytes apart. -/
def internedOps : ObjectOps Nat Unit where
  hashObj := id
  stringAddr k := some (8 * (k + 1))
  null := ()
  realval := id

theorem shapeId_sound_two_sizes :
    ∃ t1 t2, runOps internedOps 2 4 [.newSlot 1 (), .newSlot 2 ()] = some t1 ∧
      runOps internedOps 2 8 [.newSlot 1 (), .newSlot 2 ()] = some t2 ∧
      t2.keyAt 2 = some 2 ∧ getNode internedOps t2 2 = some (some 2) ∧
      tableHint t1 2 &&& tblClassClassMask = t2.classTypeId &&& tblClassClassMask ∧
      getNodeFromTypeHint internedOps t2 (tableHint t1 2) 2 = some 2 := by
  refine ⟨_, _, rfl, rfl, ?_⟩
  apply @shapeId_sound Nat _ Unit internedOps 0 0 4 8 [.newSlot 1 (), .newSlot 2 ()]
    [.newSlot 1 (), .newSlot 2 ()] _ _ rfl rfl
  · decide
  · decide
  · intro _
    rfl
  · intro k k' a h h'
    simp only [internedOps, Option.some.injEq] at h h'
    omega
  · exact ⟨_, rfl⟩
  · rfl

end Reachable

end Quirrel.Table
