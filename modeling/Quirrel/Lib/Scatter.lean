import Quirrel.Lib.Walk

/-!
# Chained scatter layouts

A scatter layout puts keys into cells (`key`) and links the cells into chains (`next`). Every key
has a main cell, and a lookup follows the chain from there. `Linked` collects what makes this work:
every chain ends, no two cells have one successor, a stored key is met from its main cell, and a
key that is away from its main cell finds that cell empty or held by a key of the same main cell.
Cells may be emptied without being unlinked (`Linked.erase`), so a chain may pass through empty
cells and a later key may take such a cell as its main cell.

There are three ways to store a new key: in its empty main cell (`Linked.put`), in a fresh cell
linked behind a main cell that is held by a key of its own (`Linked.chain`), and in the main cell
after the foreign key there moved to a fresh cell (`Linked.displace`).
-/

set_option autoImplicit false

namespace Quirrel.Lib

universe u v

variable {α : Type u} {K : Type v}

/-- The layout invariant of a chained scatter table. -/
structure Linked (main : K → α) (key : α → Option K) (next : α → Option α) : Prop where
  walk : ∀ i, ∃ l, Walk next i l
  next_inj : ∀ {i i' j}, next i = some j → next i' = some j → i = i'
  reach : ∀ {i k}, key i = some k → OnWalk next (main k) i
  home : ∀ {i k k'}, key i = some k → main k ≠ i → key (main k) = some k' → main k' = main k
  key_inj : ∀ {i i' k}, key i = some k → key i' = some k → i = i'

/-- A cell that holds nothing and that no chain meets but its own. -/
structure Isolated (key : α → Option K) (next : α → Option α) (n : α) : Prop where
  key_none : key n = none
  next_none : next n = none
  not_next : ∀ i, next i ≠ some n

theorem Linked.empty (main : K → α) : Linked main (fun _ => none) fun _ => none where
  walk i := ⟨[i], .stop rfl⟩
  next_inj h := absurd h (by simp)
  reach h := absurd h (by simp)
  home h := absurd h (by simp)
  key_inj h := absurd h (by simp)

section

variable {main : K → α} {key : α → Option K} {next : α → Option α}

/-- A stored key does not have an isolated cell as its main cell. -/
theorem Linked.main_ne_isolated (L : Linked main key next) {n i : α} {k : K}
    (hn : Isolated key next n) (hk : key i = some k) : main k ≠ n := by
  intro hm
  have hr := L.reach hk
  rw [hm] at hr
  have hi : i = n := hr.eq_of_none hn.next_none
  rw [hi, hn.key_none] at hk
  exact absurd hk (by simp)

theorem Linked.next_ne_self (L : Linked main key next) {i j : α} (h : next i = some j) : j ≠ i := by
  obtain ⟨l, hw⟩ := L.walk i
  obtain ⟨l', -, hw', hni⟩ := hw.tail h
  exact fun hj => hni (hj ▸ hw'.mem_self)

variable [DecidableEq α]

/-- Emptying a cell keeps the layout; the cell stays in its chain. -/
theorem Linked.erase (L : Linked main key next) (n : α) :
    Linked main (Function.update key n none) next where
  walk := L.walk
  next_inj := L.next_inj
  reach {i k} h := by
    by_cases hi : i = n
    · simp [hi] at h
    · exact L.reach (by simpa [hi] using h)
  home {i k k'} h hne hm := by
    by_cases hi : i = n
    · simp [hi] at h
    · by_cases hmn : main k = n
      · simp [hmn] at hm
      · exact L.home (by simpa [hi] using h) hne (by simpa [hmn] using hm)
  key_inj {i i' k} h h' := by
    by_cases hi : i = n
    · simp [hi] at h
    · by_cases hi' : i' = n
      · simp [hi'] at h'
      · exact L.key_inj (by simpa [hi] using h) (by simpa [hi'] using h')

/-- A new key goes into its main cell, in the place of what was there. -/
theorem Linked.put (L : Linked main key next) {k : K} (hnew : ∀ i, key i ≠ some k) : Linked main (Function.update key (main k) (some k)) next where
  walk := L.walk
  next_inj := L.next_inj
  reach {i k'} h := by
    by_cases hi : i = main k
    · subst hi
      obtain rfl : k = k' := by simpa using h
      obtain ⟨l, hw⟩ := L.walk (main k)
      exact ⟨l, hw, hw.mem_self⟩
    · exact L.reach (by simpa [hi] using h)
  home {i k' k''} h hne hm := by
    by_cases hi : i = main k
    · subst hi
      obtain rfl : k = k' := by simpa using h
      exact absurd rfl hne
    · by_cases hmn : main k' = main k
      · rw [hmn] at hm ⊢
        obtain rfl : k = k'' := by simpa using hm
        rfl
      · exact L.home (by simpa [hi] using h) hne (by simpa [hmn] using hm)
  key_inj {i i' k'} h h' := by
    by_cases hi : i = main k <;> by_cases hi' : i' = main k
    · rw [hi, hi']
    · obtain rfl : k = k' := by simpa [hi] using h
      exact absurd (by simpa [hi'] using h') (hnew i')
    · obtain rfl : k = k' := by simpa [hi'] using h'
      exact absurd (by simpa [hi] using h) (hnew i)
    · exact L.key_inj (by simpa [hi] using h) (by simpa [hi'] using h')

/-- A new key goes into a fresh cell, linked behind its main cell. -/
theorem Linked.chain (L : Linked main key next) {k c : K} {n : α} (hc : key (main k) = some c)
    (hcm : main c = main k) (hn : Isolated key next n) (hnew : ∀ i, key i ≠ some k) :
    Linked main (Function.update key n (some k)) (linkAfter next (main k) n) := by
  have hne : n ≠ main k := by
    intro h
    have := hn.key_none
    rw [h, hc] at this
    exact absurd this (by simp)
  have hold : ∀ {i k'}, i ≠ n → Function.update key n (some k) i = some k' → key i = some k' :=
    fun hi h => by simpa [hi] using h
  refine ⟨fun i => ?_, ?_, ?_, ?_, ?_⟩
  -- every walk ends: the one from the new node, and the others with or without it
  · by_cases hi : i = n
    · subst hi
      obtain ⟨l, hw⟩ := L.walk (main k)
      exact hw.insertAfter_new hne hn.not_next
    · obtain ⟨l, hw⟩ := L.walk i
      obtain ⟨l', hw', -⟩ := hw.insertAfter hne hn.not_next hi
      exact ⟨l', hw'⟩
  · -- the only new edges are `main k → n` and `n → next (main k)`
    have hcase : ∀ {i j}, linkAfter next (main k) n i = some j →
        (i = main k ∧ j = n) ∨ (i = n ∧ next (main k) = some j) ∨
          (i ≠ main k ∧ i ≠ n ∧ next i = some j) := by
      intro i j h
      by_cases hi : i = main k
      · subst hi
        rw [linkAfter_head] at h
        exact .inl ⟨rfl, (Option.some.inj h).symm⟩
      · by_cases hin : i = n
        · subst hin
          rw [linkAfter_self hne] at h
          exact .inr (.inl ⟨rfl, h⟩)
        · rw [linkAfter_other hi hin] at h
          exact .inr (.inr ⟨hi, hin, h⟩)
    -- no two edges meet: compare the kinds of the two edges
    intro i i' j h h'
    rcases hcase h with ⟨rfl, rfl⟩ | ⟨rfl, h1⟩ | ⟨h1, h2, h3⟩ <;>
      rcases hcase h' with ⟨rfl, hj⟩ | ⟨rfl, h1'⟩ | ⟨h1', h2', h3'⟩
    · rfl
    · exact absurd h1' (hn.not_next _)
    · exact absurd h3' (hn.not_next _)
    · exact absurd (hj ▸ h1) (hn.not_next _)
    · rfl
    · exact absurd (L.next_inj h3' h1) h1'
    · exact absurd (hj ▸ h3) (hn.not_next _)
    · exact absurd (L.next_inj h3 h1') h1
    · exact L.next_inj h3 h3'
  -- every key is reached from its main position
  · intro i k' h
    by_cases hi : i = n
    · subst hi
      obtain rfl : k = k' := by simpa using h
      obtain ⟨l, hw⟩ := L.walk (main k)
      obtain ⟨l', hw', -, hmem⟩ := hw.insertAfter hne hn.not_next hne.symm
      exact ⟨l', hw', hmem hw.mem_self⟩
    · have hk := hold hi h
      obtain ⟨l, hw, hil⟩ := L.reach hk
      obtain ⟨l', hw', hsub, -⟩ := hw.insertAfter hne hn.not_next (L.main_ne_isolated hn hk)
      exact ⟨l', hw', hsub i hil⟩
  -- a key in a main position has that main position
  · intro i k' k'' h hmi hm
    by_cases hi : i = n
    · subst hi
      obtain rfl : k = k' := by simpa using h
      have hck : key (main k) = some k'' := hold hne.symm hm
      rw [hc] at hck
      obtain rfl := Option.some.inj hck
      exact hcm
    · have hk := hold hi h
      exact L.home hk hmi (hold (L.main_ne_isolated hn hk) hm)
  -- the keys stay distinct
  · intro i i' k' h h'
    by_cases hi : i = n <;> by_cases hi' : i' = n
    · rw [hi, hi']
    · obtain rfl : k = k' := by simpa [hi] using h
      exact absurd (hold hi' h') (hnew i')
    · obtain rfl : k = k' := by simpa [hi'] using h'
      exact absurd (hold hi h) (hnew i)
    · exact L.key_inj (hold hi h) (hold hi' h')

/-- A new key goes into its main cell; the key `c` that held it away from home moves to a fresh
cell, which takes the cell's place behind its predecessor `p`. -/
theorem Linked.displace (L : Linked main key next) {k c : K} {n p : α}
    (hc : key (main k) = some c) (hcm : main c ≠ main k) (hp : next p = some (main k))
    (hn : Isolated key next n) (hnew : ∀ i, key i ≠ some k) :
    Linked main (Function.update (Function.update key n (some c)) (main k) (some k))
      (relink next p (main k) n) := by
  have hne : n ≠ main k := by
    intro h
    have := hn.key_none
    rw [h, hc] at this
    exact absurd this (by simp)
  have hph : p ≠ main k := fun h => L.next_ne_self hp h.symm
  have hpn : p ≠ n := by
    intro h
    rw [h, hn.next_none] at hp
    exact absurd hp (by simp)
  have hinj : ∀ i, next i = some (main k) → i = p := fun i hi => L.next_inj hi hp
  have hkey : ∀ {i k'}, Function.update (Function.update key n (some c)) (main k) (some k) i =
      some k' → (i = main k ∧ k' = k) ∨ (i = n ∧ k' = c) ∨
        (i ≠ main k ∧ i ≠ n ∧ key i = some k') := by
    intro i k' h
    by_cases hi : i = main k
    · subst hi
      exact .inl ⟨rfl, by simpa using h.symm⟩
    · by_cases hin : i = n
      · subst hin
        exact .inr (.inl ⟨rfl, by simpa [hi] using h.symm⟩)
      · exact .inr (.inr ⟨hi, hin, by simpa [hi, hin] using h⟩)
  -- no old key has the contested cell as its main cell
  have hfree : ∀ {i k'}, key i = some k' → main k' ≠ main k := by
    intro i k' hk' heq
    by_cases hi : main k' = i
    · rw [← hi, heq, hc] at hk'
      obtain rfl := Option.some.inj hk'
      exact hcm heq
    · exact hcm ((L.home hk' hi (heq ▸ hc)).trans heq)
  refine ⟨fun i => ?_, ?_, ?_, ?_, ?_⟩
  · by_cases hi : i = main k
    · subst hi
      exact ⟨[main k], .stop relink_old⟩
    · by_cases hin : i = n
      · subst hin
        obtain ⟨l, hw⟩ := L.walk (main k)
        exact hw.replace_new hne hp hpn hph hinj hn.not_next
      · obtain ⟨l, hw⟩ := L.walk i
        obtain ⟨l', hw', -⟩ := hw.replace hne hp hpn hph hinj hn.not_next hi hin
        exact ⟨l', hw'⟩
  · have hcase : ∀ {i j}, relink next p (main k) n i = some j →
        (i = p ∧ j = n) ∨ (i = n ∧ next (main k) = some j) ∨
          (i ≠ p ∧ i ≠ main k ∧ i ≠ n ∧ next i = some j) := by
      intro i j h
      by_cases hi : i = main k
      · subst hi
        rw [relink_old] at h
        exact absurd h (by simp)
      · by_cases hin : i = n
        · subst hin
          rw [relink_new hne] at h
          exact .inr (.inl ⟨rfl, h⟩)
        · by_cases hip : i = p
          · subst hip
            rw [relink_pred hpn hph] at h
            exact .inl ⟨rfl, (Option.some.inj h).symm⟩
          · rw [relink_other hip hi hin] at h
            exact .inr (.inr ⟨hip, hi, hin, h⟩)
    intro i i' j h h'
    rcases hcase h with ⟨rfl, rfl⟩ | ⟨rfl, h1⟩ | ⟨h0, h1, h2, h3⟩ <;>
      rcases hcase h' with ⟨rfl, hj⟩ | ⟨rfl, h1'⟩ | ⟨h0', h1', h2', h3'⟩
    · rfl
    · exact absurd h1' (hn.not_next _)
    · exact absurd h3' (hn.not_next _)
    · exact absurd (hj ▸ h1) (hn.not_next _)
    · rfl
    · exact absurd (L.next_inj h3' h1) h1'
    · exact absurd (hj ▸ h3) (hn.not_next _)
    · exact absurd (L.next_inj h3 h1') h1
    · exact L.next_inj h3 h3'
  · intro i k' h
    rcases hkey h with ⟨rfl, rfl⟩ | ⟨rfl, rfl⟩ | ⟨hi, hin, hk'⟩
    · exact ⟨_, .stop relink_old, List.mem_singleton_self _⟩
    · obtain ⟨l, hw, hil⟩ := L.reach hc
      obtain ⟨l', hw', -, hmem⟩ := hw.replace hne hp hpn hph hinj hn.not_next hcm
        (L.main_ne_isolated hn hc)
      exact ⟨l', hw', hmem hil⟩
    · obtain ⟨l, hw, hil⟩ := L.reach hk'
      obtain ⟨l', hw', hsub, -⟩ := hw.replace hne hp hpn hph hinj hn.not_next (hfree hk')
        (L.main_ne_isolated hn hk')
      exact ⟨l', hw', hsub i hil hi⟩
  · intro i k' k'' h hmi hm
    rcases hkey h with ⟨rfl, rfl⟩ | ⟨rfl, rfl⟩ | ⟨hi, hin, hk'⟩
    · exact absurd rfl hmi
    · have hcn := L.main_ne_isolated hn hc
      exact L.home hc hcm (by simpa [hcm, hcn] using hm)
    · have hkn := L.main_ne_isolated hn hk'
      exact L.home hk' hmi (by simpa [hfree hk', hkn] using hm)
  · intro i i' k' h h'
    rcases hkey h with ⟨rfl, rfl⟩ | ⟨rfl, rfl⟩ | ⟨hi, hin, hk'⟩ <;>
      rcases hkey h' with ⟨rfl, hkk⟩ | ⟨rfl, hkk⟩ | ⟨hi', hin', hk''⟩
    · rfl
    · rw [← hkk] at hc
      exact absurd hc (hnew _)
    · exact absurd hk'' (hnew _)
    · rw [hkk] at hc
      exact absurd hc (hnew _)
    · rfl
    · exact absurd (L.key_inj hk'' hc) hi'
    · exact absurd (hkk ▸ hk') (hnew _)
    · exact absurd (L.key_inj (hkk ▸ hk') hc) hi
    · exact L.key_inj hk' hk''

end

end Quirrel.Lib
