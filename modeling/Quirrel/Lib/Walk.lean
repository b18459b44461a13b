import Mathlib.Data.List.Nodup
import Mathlib.Data.Finset.Card
import Mathlib.Logic.Function.Basic
import Mathlib.Tactic.ApplyFun

/-!
# Walks along a partial successor function

A partial function `next : α → Option α` is a family of singly linked chains. `Walk next i l` says
that following `next` from `i` ends, and that `l` lists the elements met on the way, `i` first. A
finite walk never meets an element twice (`Walk.nodup`), so an element with a walk lies on no
cycle.

Two pointer updates keep every walk finite: linking a fresh element in behind a given one
(`Walk.insertAfter`), and replacing a given element by a fresh one in the chain of its only
predecessor (`Walk.replace`).
-/

set_option autoImplicit false

namespace Quirrel.Lib

universe u

variable {α : Type u}

/-- Following `next` from the first argument meets exactly the listed elements and stops. -/
inductive Walk (next : α → Option α) : α → List α → Prop
  | stop {i : α} : next i = none → Walk next i [i]
  | step {i j : α} {l : List α} : next i = some j → Walk next j l → Walk next i (i :: l)

/-- `j` is met when following `next` from `i`, and following it ends. -/
def OnWalk (next : α → Option α) (i j : α) : Prop := ∃ l, Walk next i l ∧ j ∈ l

namespace Walk

variable {next : α → Option α}

theorem mem_self {i : α} {l : List α} (h : Walk next i l) : i ∈ l := by
  cases h with
  | stop _ => exact List.mem_singleton_self i
  | step _ _ => exact List.mem_cons_self

/-- The walk from an element is unique. -/
theorem unique {i : α} {l l' : List α} (h : Walk next i l) (h' : Walk next i l') : l = l' := by
  induction h generalizing l' with
  | stop hn =>
    cases h' with
    | stop _ => rfl
    | step hs _ => rw [hn] at hs; exact absurd hs (by simp)
  | step hs _ ih =>
    cases h' with
    | stop hn => rw [hn] at hs; exact absurd hs (by simp)
    | step hs' hw' =>
      rw [hs] at hs'
      obtain rfl := Option.some.inj hs'
      rw [ih hw']

/-- Every element met on a walk starts a walk that is not longer. -/
theorem suffix {i j : α} {l : List α} (h : Walk next i l) (hj : j ∈ l) :
    ∃ l', Walk next j l' ∧ l' <:+ l := by
  induction h with
  | stop hn =>
    rw [List.mem_singleton] at hj
    subst hj
    exact ⟨_, .stop hn, List.suffix_refl _⟩
  | @step i k l hs hw ih =>
    rcases List.mem_cons.1 hj with rfl | hj
    · exact ⟨_, .step hs hw, List.suffix_refl _⟩
    · obtain ⟨l', hw', hl'⟩ := ih hj
      exact ⟨l', hw', hl'.trans (List.suffix_cons i l)⟩

/-- A finite walk meets no element twice. -/
theorem nodup {i : α} {l : List α} (h : Walk next i l) : l.Nodup := by
  induction h with
  | stop _ => exact List.nodup_singleton _
  | @step i j l hs hw ih =>
    refine List.nodup_cons.2 ⟨fun hi => ?_, ih⟩
    obtain ⟨l', hw', hl'⟩ := hw.suffix hi
    have heq : l' = i :: l := hw'.unique (.step hs hw)
    have hlen := hl'.length_le
    rw [heq, List.length_cons] at hlen
    omega

/-- The successor of an element with a walk is met, has a walk, and is another element. -/
theorem tail {i j : α} {l : List α} (h : Walk next i l) (hs : next i = some j) :
    ∃ l', l = i :: l' ∧ Walk next j l' ∧ i ∉ l' := by
  have hnd := h.nodup
  cases h with
  | stop hn => rw [hn] at hs; exact absurd hs (by simp)
  | step hs' hw =>
    rw [hs] at hs'
    obtain rfl := Option.some.inj hs'
    exact ⟨_, rfl, hw, (List.nodup_cons.1 hnd).1⟩

/-- A walk depends only on the successors of the elements it meets. -/
theorem congr {next' : α → Option α} {i : α} {l : List α} (h : Walk next i l)
    (heq : ∀ j ∈ l, next' j = next j) : Walk next' i l := by
  induction h with
  | stop hn => exact .stop (by rw [heq _ (List.mem_singleton_self _), hn])
  | step hs _ ih =>
    exact .step (by rw [heq _ List.mem_cons_self, hs])
      (ih fun j hj => heq j (List.mem_cons_of_mem _ hj))

/-- Every element met on a walk, other than the first, is a successor. -/
theorem mem_pred {i j : α} {l : List α} (h : Walk next i l) (hj : j ∈ l) (hne : j ≠ i) :
    ∃ k ∈ l, next k = some j := by
  induction h with
  | stop _ => exact absurd (List.mem_singleton.1 hj) hne
  | @step i k l hs hw ih =>
    rcases List.mem_cons.1 hj with rfl | hj
    · exact absurd rfl hne
    · by_cases hk : j = k
      · exact ⟨i, List.mem_cons_self, by rw [hs, hk]⟩
      · obtain ⟨m, hm, hmj⟩ := ih hj hk
        exact ⟨m, List.mem_cons_of_mem _ hm, hmj⟩

/-- A walk inside a finite set is no longer than the set. -/
theorem length_le_card {i : α} {l : List α} (h : Walk next i l) (s : Finset α)
    (hs : ∀ j ∈ l, j ∈ s) : l.length ≤ s.card := by
  classical
  calc l.length = l.toFinset.card := (List.toFinset_card_of_nodup h.nodup).symm
    _ ≤ s.card := Finset.card_le_card fun j hj => hs j (List.mem_toFinset.1 hj)

end Walk

namespace OnWalk

variable {next : α → Option α}

theorem trans {i j k : α} (h : OnWalk next i j) (h' : OnWalk next j k) : OnWalk next i k := by
  obtain ⟨l, hl, hj⟩ := h
  obtain ⟨l', hl', hk⟩ := h'
  obtain ⟨l'', hl'', hsub⟩ := hl.suffix hj
  rw [hl'.unique hl''] at hk
  exact ⟨l, hl, hsub.subset hk⟩

/-- Nothing but the element itself is met from an element without successor. -/
theorem eq_of_none {i j : α} (h : OnWalk next i j) (hn : next i = none) : j = i := by
  obtain ⟨l, hl, hj⟩ := h
  rw [hl.unique (.stop hn)] at hj
  exact List.mem_singleton.1 hj

end OnWalk

/-! ## Relinking -/

section Relink

variable [DecidableEq α] {next : α → Option α} {h n : α}

/-- `next` with the fresh element `n` linked in behind `h`. -/
def linkAfter (next : α → Option α) (h n : α) : α → Option α :=
  Function.update (Function.update next n (next h)) h (some n)

/-- `next` with `n` put in the place of `h` behind `p`; `h` is left without successor. -/
def relink (next : α → Option α) (p h n : α) : α → Option α :=
  Function.update (Function.update (Function.update next p (some n)) n (next h)) h none

theorem linkAfter_self (hne : n ≠ h) : linkAfter next h n n = next h := by
  simp [linkAfter, hne]

theorem linkAfter_head : linkAfter next h n h = some n := by
  simp [linkAfter]

theorem linkAfter_other {i : α} (hi : i ≠ h) (hin : i ≠ n) : linkAfter next h n i = next i := by
  simp [linkAfter, hi, hin]

/-- Linking a fresh element in keeps the walks of the old elements finite; they meet what they met
before, and the new element if they met the one before it. -/
theorem Walk.insertAfter (hne : n ≠ h) (hfresh : ∀ i, next i ≠ some n) {i : α} {l : List α}
    (hw : Walk next i l) (hin : i ≠ n) :
    ∃ l', Walk (linkAfter next h n) i l' ∧ (∀ x ∈ l, x ∈ l') ∧ (h ∈ l → n ∈ l') := by
  induction hw with
  | @stop i hn =>
    by_cases hi : i = h
    · subst hi
      have h2 : Walk (linkAfter next i n) n [n] := .stop (by rw [linkAfter_self hne, hn])
      exact ⟨[i, n], .step linkAfter_head h2, by simp, by simp⟩
    · refine ⟨[i], .stop (by rw [linkAfter_other hi hin, hn]), by simp, fun hh => ?_⟩
      exact absurd (List.mem_singleton.1 hh).symm hi
  | @step i j l hs hw ih =>
    have hjn : j ≠ n := fun hj => hfresh i (by rw [hs, hj])
    obtain ⟨l', hw', hsub, hmem⟩ := ih hjn
    by_cases hi : i = h
    · subst hi
      have h2 : Walk (linkAfter next i n) n (n :: l') :=
        .step (by rw [linkAfter_self hne, hs]) hw'
      refine ⟨i :: n :: l', .step linkAfter_head h2, ?_, by simp⟩
      intro x hx
      rcases List.mem_cons.1 hx with rfl | hx
      · exact List.mem_cons_self
      · exact List.mem_cons_of_mem _ (List.mem_cons_of_mem _ (hsub x hx))
    · refine ⟨i :: l', .step (by rw [linkAfter_other hi hin, hs]) hw', ?_, ?_⟩
      · intro x hx
        rcases List.mem_cons.1 hx with rfl | hx
        · exact List.mem_cons_self
        · exact List.mem_cons_of_mem _ (hsub x hx)
      · intro hx
        rcases List.mem_cons.1 hx with rfl | hx
        · exact absurd rfl hi
        · exact List.mem_cons_of_mem _ (hmem hx)

/-- The walk of the element that was linked in. -/
theorem Walk.insertAfter_new (hne : n ≠ h) (hfresh : ∀ i, next i ≠ some n) {l : List α}
    (hw : Walk next h l) : ∃ l', Walk (linkAfter next h n) n l' := by
  cases hw with
  | stop hn => exact ⟨[n], .stop (by rw [linkAfter_self hne, hn])⟩
  | @step _ j l hs hw =>
    have hjn : j ≠ n := fun hj => hfresh h (by rw [hs, hj])
    obtain ⟨l', hw', -, -⟩ := hw.insertAfter hne hfresh hjn
    exact ⟨n :: l', .step (by rw [linkAfter_self hne, hs]) hw'⟩

variable {p : α}

theorem relink_pred (hpn : p ≠ n) (hph : p ≠ h) : relink next p h n p = some n := by
  simp [relink, hpn, hph]

theorem relink_new (hne : n ≠ h) : relink next p h n n = next h := by
  simp [relink, hne]

theorem relink_old : relink next p h n h = none := by
  simp [relink]

theorem relink_other {i : α} (hip : i ≠ p) (hih : i ≠ h) (hin : i ≠ n) :
    relink next p h n i = next i := by
  simp [relink, hip, hih, hin]

/-- Replacing `h` by the fresh `n` behind its only predecessor `p` keeps the walks of the other
elements finite; they meet what they met before, with `n` instead of `h`. -/
theorem Walk.replace (hne : n ≠ h) (hp : next p = some h) (hpn : p ≠ n) (hph : p ≠ h)
    (hinj : ∀ i, next i = some h → i = p) (hfresh : ∀ i, next i ≠ some n) {l : List α} :
    ∀ {i : α}, Walk next i l → i ≠ h → i ≠ n →
      ∃ l', Walk (relink next p h n) i l' ∧ (∀ x ∈ l, x ≠ h → x ∈ l') ∧ (h ∈ l → n ∈ l') := by
  -- the walk is cut behind `p`, so the recursion is on its length
  induction hlen : l.length using Nat.strong_induction_on generalizing l with
  | _ len ih =>
    intro i hw hih hin
    cases hw with
    | stop hn =>
      have hip : i ≠ p := by rintro rfl; rw [hn] at hp; exact absurd hp (by simp)
      refine ⟨[i], .stop (by rw [relink_other hip hih hin, hn]), fun x hx _ => hx, fun hh => ?_⟩
      exact absurd (List.mem_singleton.1 hh).symm hih
    | @step _ j l' hs hw =>
      have hjn : j ≠ n := fun hj => hfresh i (by rw [hs, hj])
      rw [List.length_cons] at hlen
      by_cases hip : i = p
      · subst hip
        rw [hp] at hs
        obtain rfl := Option.some.inj hs
        cases hw with
        | stop hn =>
          have h2 : Walk (relink next i h n) n [n] := .stop (by rw [relink_new hne, hn])
          refine ⟨[i, n], .step (relink_pred hpn hph) h2, ?_, by simp⟩
          intro x hx hxh
          simp only [List.mem_cons, List.not_mem_nil, or_false] at hx ⊢
          rcases hx with rfl | rfl
          · exact .inl rfl
          · exact absurd rfl hxh
        | @step _ m l'' hs2 hw2 =>
          have hmn : m ≠ n := fun hm => hfresh h (by rw [hs2, hm])
          have hmh : m ≠ h := by
            obtain ⟨l3, hl3, -, hnot⟩ := (Walk.step hs2 hw2).tail hs2
            obtain rfl : l'' = l3 := (List.cons.inj hl3).2
            exact fun hm => hnot (hm ▸ hw2.mem_self)
          rw [List.length_cons] at hlen
          obtain ⟨l3, hw3, hsub, -⟩ := ih l''.length (by omega) rfl hw2 hmh hmn
          have h2 : Walk (relink next i h n) n (n :: l3) :=
            .step (by rw [relink_new hne, hs2]) hw3
          refine ⟨i :: n :: l3, .step (relink_pred hpn hph) h2, ?_, by simp⟩
          intro x hx hxh
          simp only [List.mem_cons] at hx ⊢
          rcases hx with rfl | rfl | hx
          · exact .inl rfl
          · exact absurd rfl hxh
          · exact .inr (.inr (hsub x hx hxh))
      · have hjh : j ≠ h := fun hj => hip (hinj i (by rw [hs, hj]))
        obtain ⟨l3, hw3, hsub, hmem⟩ := ih l'.length (by omega) rfl hw hjh hjn
        refine ⟨i :: l3, .step (by rw [relink_other hip hih hin, hs]) hw3, ?_, ?_⟩
        · intro x hx hxh
          rcases List.mem_cons.1 hx with rfl | hx
          · exact List.mem_cons_self
          · exact List.mem_cons_of_mem _ (hsub x hx hxh)
        · intro hx
          rcases List.mem_cons.1 hx with rfl | hx
          · exact absurd rfl hih
          · exact List.mem_cons_of_mem _ (hmem hx)

/-- The walk of the element that took the place of `h`. -/
theorem Walk.replace_new (hne : n ≠ h) (hp : next p = some h) (hpn : p ≠ n) (hph : p ≠ h)
    (hinj : ∀ i, next i = some h → i = p) (hfresh : ∀ i, next i ≠ some n) {l : List α}
    (hw : Walk next h l) : ∃ l', Walk (relink next p h n) n l' := by
  cases hw with
  | stop hn => exact ⟨[n], .stop (by rw [relink_new hne, hn])⟩
  | @step _ j l hs hw =>
    have hjn : j ≠ n := fun hj => hfresh h (by rw [hs, hj])
    have hjh : j ≠ h := by
      obtain ⟨l3, hl3, -, hnot⟩ := (Walk.step hs hw).tail hs
      obtain rfl : l = l3 := (List.cons.inj hl3).2
      exact fun hj => hnot (hj ▸ hw.mem_self)
    obtain ⟨l', hw', -, -⟩ := Walk.replace hne hp hpn hph hinj hfresh hw hjh hjn
    exact ⟨n :: l', .step (by rw [relink_new hne, hs]) hw'⟩

end Relink

end Quirrel.Lib
