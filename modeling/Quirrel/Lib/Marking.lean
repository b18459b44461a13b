import Mathlib.Logic.Relation
import Mathlib.Data.Finset.Card
import Mathlib.Data.List.Nodup

set_option autoImplicit false

/-!
# Depth-first marking

`mark` visits an object once: it sets the object's flag, marks its children one after the other and
then moves the object from one list to another. Started without flags at a list of roots, it flags
what the roots reach, and leaves in the first list what they do not (`markAll_spec`). A number
bounds the depth of the recursion; as many as there are objects suffice.
-/

namespace Quirrel.Marking

open Relation

variable {α : Type}

/-- The flags that are set, the objects that were not yet moved, and those that were. -/
structure Marks (α : Type) where
  flagged : List α
  chain : List α
  kept : List α

/-- A node is marked with everything below it. The number bounds the depth. -/
def mark [DecidableEq α] (children : α → List α) : Nat → Marks α → α → Option (Marks α)
  | 0, _, _ => none
  | n + 1, m, a =>
    if a ∈ m.flagged then some m
    else
      ((children a).foldlM (mark children n) { m with flagged := a :: m.flagged }).map fun m =>
        { m with chain := m.chain.erase a, kept := a :: m.kept }

/-- All roots are marked. -/
def markAll [DecidableEq α] (children : α → List α) (n : Nat) (m : Marks α) (roots : List α) :
    Option (Marks α) :=
  roots.foldlM (mark children n) m

/-- What the roots reach through children. -/
def Reached (children : α → List α) (roots : List α) (x : α) : Prop :=
  ∃ r ∈ roots, ReflTransGen (fun a b => b ∈ children a) r x

variable {children : α → List α}

theorem Reached.child {roots : List α} {x y : α} (h : Reached children roots x)
    (hy : y ∈ children x) : Reached children roots y := by
  obtain ⟨r, hr, hrx⟩ := h
  exact ⟨r, hr, hrx.tail hy⟩

theorem Reached.of_root {roots : List α} {r : α} (hr : r ∈ roots) : Reached children roots r :=
  ⟨r, hr, .refl⟩

theorem Reached.mono {roots roots' : List α} {x : α} (h : Reached children roots x)
    (hsub : ∀ r ∈ roots, Reached children roots' r) : Reached children roots' x := by
  obtain ⟨r, hr, hrx⟩ := h
  induction hrx with
  | refl => exact hsub r hr
  | tail _ hxy ih => exact ih.child hxy

/-- What marking from the roots does: each newly flagged object is reached, its children are flagged,
and it has left the chain. -/
structure Marked (children : α → List α) (roots : List α) (m m' : Marks α) : Prop where
  flagged : ∀ {x}, x ∈ m.flagged → x ∈ m'.flagged
  started : ∀ {r}, r ∈ roots → r ∈ m'.flagged
  reached : ∀ {x}, x ∈ m'.flagged → x ∈ m.flagged ∨ Reached children roots x
  closed : ∀ {x y}, x ∈ m'.flagged → y ∈ children x → x ∈ m.flagged ∨ y ∈ m'.flagged
  nodup : m'.chain.Nodup
  chain : ∀ {x}, x ∈ m'.chain ↔ x ∈ m.chain ∧ (x ∈ m'.flagged → x ∈ m.flagged)

theorem Marked.nil {m : Marks α} (hm : m.chain.Nodup) : Marked children [] m m where
  flagged h := h
  started h := absurd h List.not_mem_nil
  reached h := .inl h
  closed h _ := .inl h
  nodup := hm
  chain := ⟨fun h => ⟨h, id⟩, fun h => h.1⟩

theorem Marked.append {roots : List α} {a : α} {m m₁ m₂ : Marks α}
    (h₁ : Marked children [a] m m₁) (h₂ : Marked children roots m₁ m₂) :
    Marked children (a :: roots) m m₂ where
  flagged h := h₂.flagged (h₁.flagged h)
  started h := by
    rcases List.mem_cons.1 h with rfl | h
    · exact h₂.flagged (h₁.started List.mem_cons_self)
    · exact h₂.started h
  reached h := by
    rcases h₂.reached h with h | h
    · refine (h₁.reached h).imp_right fun h => h.mono fun r hr => ?_
      obtain rfl := List.mem_singleton.1 hr
      exact .of_root List.mem_cons_self
    · exact .inr (h.mono fun r hr => .of_root (List.mem_cons_of_mem _ hr))
  closed h hy := by
    rcases h₂.closed h hy with h | h
    · exact (h₁.closed h hy).imp_right h₂.flagged
    · exact .inr h
  nodup := h₂.nodup
  chain := by
    intro x
    rw [h₂.chain, h₁.chain]
    constructor
    · rintro ⟨⟨hx, hm₁⟩, hm₂⟩
      exact ⟨hx, fun hf => hm₁ (hm₂ hf)⟩
    · rintro ⟨hx, hm⟩
      exact ⟨⟨hx, fun hf => hm (h₂.flagged hf)⟩, fun hf => h₁.flagged (hm hf)⟩

theorem Marked.flagged_already {a : α} {m : Marks α} (hm : m.chain.Nodup) (ha : a ∈ m.flagged) :
    Marked children [a] m m where
  flagged h := h
  started hr := by
    obtain rfl := List.mem_singleton.1 hr
    exact ha
  reached h := .inl h
  closed h _ := .inl h
  nodup := hm
  chain := ⟨fun h => ⟨h, id⟩, fun h => h.1⟩

variable [DecidableEq α]

/-- The flag is set before the children are marked, the move made after. -/
theorem Marked.visit {a : α} {m m' : Marks α} (ha : a ∉ m.flagged)
    (h : Marked children (children a) { m with flagged := a :: m.flagged } m') :
    Marked children [a] m { m' with chain := m'.chain.erase a, kept := a :: m'.kept } where
  flagged hx := h.flagged (List.mem_cons_of_mem _ hx)
  started hr := by
    obtain rfl := List.mem_singleton.1 hr
    exact h.flagged List.mem_cons_self
  reached hx := by
    rcases h.reached hx with hx | hx
    · rcases List.mem_cons.1 hx with rfl | hx
      · exact .inr (.of_root List.mem_cons_self)
      · exact .inl hx
    · refine .inr (hx.mono fun r hr => ?_)
      exact (Reached.of_root List.mem_cons_self).child hr
  closed hx hy := by
    rcases h.closed hx hy with hx | hy'
    · rcases List.mem_cons.1 hx with rfl | hx
      · exact .inr (h.started hy)
      · exact .inl hx
    · exact .inr hy'
  nodup := h.nodup.erase a
  chain := by
    intro x
    rw [h.nodup.mem_erase_iff, h.chain]
    constructor
    · rintro ⟨hne, hx, hm⟩
      exact ⟨hx, fun hf => (List.mem_cons.1 (hm hf)).resolve_left hne⟩
    · rintro ⟨hx, hm⟩
      refine ⟨?_, hx, fun hf => List.mem_cons_of_mem _ (hm hf)⟩
      rintro rfl
      exact ha (hm (h.flagged List.mem_cons_self))

omit [DecidableEq α] in
/-- Marking a list of objects, given what marking one of them does. -/
theorem marked_foldlM {f : Marks α → α → Option (Marks α)}
    (hf : ∀ {m m' a}, m.chain.Nodup → f m a = some m' → Marked children [a] m m')
    {roots : List α} {m m' : Marks α} (hm : m.chain.Nodup) (h : roots.foldlM f m = some m') :
    Marked children roots m m' := by
  induction roots generalizing m with
  | nil =>
    cases h
    exact .nil hm
  | cons a roots ih =>
    rw [List.foldlM_cons] at h
    obtain ⟨m₁, h₁, h₂⟩ := Option.bind_eq_some_iff.1 h
    have hmarked := hf hm h₁
    exact hmarked.append (ih hmarked.nodup h₂)

theorem mark_marked {n : Nat} {m m' : Marks α} {a : α} (hm : m.chain.Nodup)
    (h : mark children n m a = some m') : Marked children [a] m m' := by
  induction n generalizing m m' a with
  | zero => cases h
  | succ n ih =>
    rw [mark] at h
    split at h
    · cases h
      exact .flagged_already hm ‹_›
    · obtain ⟨m₁, h₁, rfl⟩ := Option.map_eq_some_iff.1 h
      apply Marked.visit ‹_›
      exact marked_foldlM ih hm h₁

/-! ## The depth of the recursion -/

/-- How many objects have no flag. -/
def unflagged (objects : Finset α) (m : Marks α) : Nat :=
  (objects.filter (· ∉ m.flagged)).card

theorem unflagged_le {objects : Finset α} {m m' : Marks α}
    (h : ∀ {x}, x ∈ m.flagged → x ∈ m'.flagged) : unflagged objects m' ≤ unflagged objects m := by
  apply Finset.card_le_card
  intro x hx
  obtain ⟨hx, hm⟩ := Finset.mem_filter.1 hx
  exact Finset.mem_filter.2 ⟨hx, fun hf => hm (h hf)⟩

theorem unflagged_lt {objects : Finset α} {m : Marks α} {a : α} (ha : a ∈ objects)
    (hm : a ∉ m.flagged) :
    unflagged objects { m with flagged := a :: m.flagged } < unflagged objects m := by
  apply Finset.card_lt_card
  refine ⟨?_, fun hsub => ?_⟩
  · intro x hx
    obtain ⟨hx, hf⟩ := Finset.mem_filter.1 hx
    exact Finset.mem_filter.2 ⟨hx, fun h => hf (List.mem_cons_of_mem _ h)⟩
  · have hx := hsub (Finset.mem_filter.2 ⟨ha, hm⟩)
    exact (Finset.mem_filter.1 hx).2 List.mem_cons_self

theorem foldlM_mark_isSome {objects : Finset α} {n : Nat}
    (hmark : ∀ {m a}, m.chain.Nodup → a ∈ objects → unflagged objects m < n →
      ∃ m', mark children n m a = some m')
    {roots : List α} {m : Marks α} (hm : m.chain.Nodup) (hroots : ∀ r ∈ roots, r ∈ objects)
    (hn : unflagged objects m < n) : ∃ m', roots.foldlM (mark children n) m = some m' := by
  induction roots generalizing m with
  | nil => exact ⟨m, rfl⟩
  | cons a roots ih =>
    obtain ⟨m₁, h₁⟩ := hmark hm (hroots a List.mem_cons_self) hn
    have hmarked := mark_marked hm h₁
    obtain ⟨m', h'⟩ := ih hmarked.nodup (fun r hr => hroots r (List.mem_cons_of_mem _ hr))
      (Nat.lt_of_le_of_lt (unflagged_le hmarked.flagged) hn)
    exact ⟨m', by rw [List.foldlM_cons, h₁]; exact h'⟩

section Depth

variable {objects : Finset α} (hchildren : ∀ a ∈ objects, ∀ b ∈ children a, b ∈ objects)
include hchildren

theorem mark_isSome {n : Nat} {m : Marks α} {a : α} (hm : m.chain.Nodup) (ha : a ∈ objects)
    (hn : unflagged objects m < n) : ∃ m', mark children n m a = some m' := by
  induction n generalizing m a with
  | zero => exact absurd hn (Nat.not_lt_zero _)
  | succ n ih =>
    rw [mark]
    split
    · exact ⟨m, rfl⟩
    · rename_i hf
      have hlt := unflagged_lt ha hf
      obtain ⟨m', h'⟩ := foldlM_mark_isSome ih (m := { m with flagged := a :: m.flagged })
        hm (hchildren a ha) (by omega)
      exact ⟨_, by rw [h']; rfl⟩

/-- Marking from the roots flags what they reach and takes just that from the chain. -/
theorem markAll_spec {roots chain : List α} {n : Nat} (hchain : chain.Nodup)
    (hroots : ∀ r ∈ roots, r ∈ objects) (hn : objects.card < n) :
    ∃ m, markAll children n ⟨[], chain, []⟩ roots = some m ∧
      (∀ x, x ∈ m.flagged ↔ Reached children roots x) ∧
      (∀ x, x ∈ m.chain ↔ x ∈ chain ∧ ¬ Reached children roots x) := by
  have hunflagged : unflagged objects ⟨[], chain, []⟩ < n :=
    Nat.lt_of_le_of_lt (Finset.card_filter_le _ _) hn
  obtain ⟨m, hmark⟩ := foldlM_mark_isSome (mark_isSome hchildren) (m := ⟨[], chain, []⟩)
    hchain hroots hunflagged
  have hmarked := marked_foldlM mark_marked hchain hmark
  have hflagged : ∀ x, x ∈ m.flagged ↔ Reached children roots x := by
    intro x
    constructor
    · intro hx
      exact (hmarked.reached hx).resolve_left List.not_mem_nil
    · rintro ⟨r, hr, hrx⟩
      -- The flags are closed under children, so the path stays inside them.
      induction hrx with
      | refl => exact hmarked.started hr
      | tail _ hxy ih => exact (hmarked.closed ih hxy).resolve_left List.not_mem_nil
  refine ⟨m, hmark, hflagged, ?_⟩
  intro x
  rw [hmarked.chain, hflagged]
  constructor
  · exact fun h => ⟨h.1, fun hx => absurd (h.2 hx) List.not_mem_nil⟩
  · exact fun h => ⟨h.1, fun hx => absurd hx h.2⟩

end Depth

end Quirrel.Marking
