import Mathlib.Data.List.Infix

/-!
# Splitting a list at a separator

The pieces of a list between the places where a scan from the left finds a separator. A scan with a
test of its own (`splitWith`) that finds the separator and maybe more gives pieces that join to the
list just if it never stops where the separator is not (`intercalate_splitWith_iff`); then they are
the pieces of the scan for the separator (`pieces`), and none of them contains it.
-/

set_option autoImplicit false

namespace Quirrel.Lib

variable {α : Type} {sep xs ys : List α} {hit : List α → Bool} {n : Nat}

/-! ## Pieces -/

/-- An element in front of the first piece. -/
def consHead (x : α) : List (List α) → List (List α)
  | [] => [[x]]
  | p :: ps => (x :: p) :: ps

/-- The pieces between the places where `hit` holds of the rest; each time `n + 1` elements are
left out. -/
def splitWith (hit : List α → Bool) (n : Nat) : List α → List (List α)
  | [] => [[]]
  | x :: xs =>
    if hit (x :: xs) then [] :: splitWith hit n (xs.drop n) else consHead x (splitWith hit n xs)
termination_by xs => xs.length

theorem splitWith_nil : splitWith hit n ([] : List α) = [[]] := by
  rw [splitWith]

/-- At a hit a piece ends. -/
theorem splitWith_of_hit {x : α} (h : hit (x :: xs) = true) :
    splitWith hit n (x :: xs) = [] :: splitWith hit n (xs.drop n) := by
  rw [splitWith, if_pos h]

/-- Elsewhere the element joins the next piece. -/
theorem splitWith_of_not_hit {x : α} (h : ¬ hit (x :: xs) = true) :
    splitWith hit n (x :: xs) = consHead x (splitWith hit n xs) := by
  rw [splitWith, if_neg h]

theorem consHead_ne_nil (x : α) (ps : List (List α)) : consHead x ps ≠ [] := by
  cases ps with
  | nil => nofun
  | cons p ps => nofun

/-- There is always a piece. -/
theorem splitWith_ne_nil (xs : List α) : splitWith hit n xs ≠ [] := by
  cases xs with
  | nil =>
    rw [splitWith_nil]
    nofun
  | cons x xs =>
    rw [splitWith]
    split
    · nofun
    · exact consHead_ne_nil x _

/-- The scan does not stop in a list on which the test fails. -/
theorem splitWith_of_never (h : ∀ ys, ys <:+ xs → ¬ hit ys = true) : splitWith hit n xs = [xs] := by
  induction xs with
  | nil => exact splitWith_nil
  | cons x xs ih =>
    rw [splitWith_of_not_hit (h _ (List.suffix_refl _)),
      ih fun ys hys => h ys (hys.trans (List.suffix_cons x xs))]
    rfl

/-- The separator stands behind the first piece. -/
theorem intercalate_cons {p : List α} {ps : List (List α)} (h : ps ≠ []) :
    sep.intercalate (p :: ps) = p ++ sep ++ sep.intercalate ps := by
  cases ps with
  | nil => exact absurd rfl h
  | cons q qs => rw [List.intercalate_cons_cons]

/-- An element in front of the first piece is in front of all. -/
theorem intercalate_consHead {x : α} {ps : List (List α)} (h : ps ≠ []) :
    sep.intercalate (consHead x ps) = x :: sep.intercalate ps := by
  cases ps with
  | nil => exact absurd rfl h
  | cons p ps =>
    cases ps with
    | nil => simp [consHead]
    | cons q qs => simp [consHead, List.intercalate_cons_cons]

/-! ## The scan for the separator -/

/-- The scan of the list for the separator, from the left, looks at the rest `ys`. -/
inductive Looks (sep : List α) : List α → List α → Prop where
  | here (xs : List α) : Looks sep xs xs
  | step {x : α} {xs ys : List α} (hx : ¬ sep <+: x :: xs) (h : Looks sep xs ys) :
      Looks sep (x :: xs) ys
  | jump {xs ys : List α} (hx : sep <+: xs) (h : Looks sep (xs.drop sep.length) ys) :
      Looks sep xs ys

/-- Wherever the scan for the separator looks, the test finds nothing else. -/
def Honest (hit : List α → Bool) (sep xs : List α) : Prop :=
  ∀ ys, Looks sep xs ys → hit ys = true → sep <+: ys

/-- Behind a separator the test is honest when it is on the rest. -/
theorem honest_of_isPrefix (h : sep <+: xs) :
    Honest hit sep xs ↔ Honest hit sep (xs.drop sep.length) := by
  constructor
  · exact fun hh ys hys => hh ys (.jump h hys)
  · intro hh ys hys hhit
    cases hys with
    | here => exact h
    | step hx _ => exact absurd h hx
    | jump _ hys => exact hh ys hys hhit

/-- Where neither the test nor the separator is, only the rest matters. -/
theorem honest_cons_of_not_isPrefix {x : α} (h : ¬ sep <+: x :: xs) (hhit : ¬ hit (x :: xs) = true) :
    Honest hit sep (x :: xs) ↔ Honest hit sep xs := by
  constructor
  · exact fun hh ys hys => hh ys (.step h hys)
  · intro hh ys hys hy
    cases hys with
    | here => exact absurd hy hhit
    | step _ hys => exact hh ys hys hy
    | jump hx _ => exact absurd hx h

theorem looks_nil (h : Looks sep xs ys) (hxs : xs = []) : ys = [] := by
  induction h with
  | here => exact hxs
  | step _ _ _ => cases hxs
  | jump _ _ ih =>
    subst hxs
    exact ih List.drop_nil

/-- A test of whether the list begins with the separator or something like it. -/
structure Tests (hit : List α → Bool) (sep : List α) (n : Nat) : Prop where
  length_eq : sep.length = n + 1
  finds : ∀ ys, sep <+: ys → hit ys = true
  room : ∀ ys, hit ys = true → sep.length ≤ ys.length

/-- What is dropped behind a hit is the separator. -/
theorem drop_length_cons (h : Tests hit sep n) (x : α) (xs : List α) :
    (x :: xs).drop sep.length = xs.drop n := by
  rw [h.length_eq, List.drop_succ_cons]

/-- Joining undoes splitting if and only if the test is honest. -/
theorem intercalate_splitWith_iff (h : Tests hit sep n) (xs : List α) :
    sep.intercalate (splitWith hit n xs) = xs ↔ Honest hit sep xs := by
  induction hlen : xs.length using Nat.strongRecOn generalizing xs with
  | _ len ih =>
    cases xs with
    | nil =>
      rw [splitWith_nil]
      refine iff_of_true (by simp) fun ys hys hhit => ?_
      have hroom := h.room ys hhit
      rw [looks_nil hys rfl, h.length_eq] at hroom
      exact absurd hroom (Nat.not_succ_le_zero n)
    | cons x xs =>
      by_cases hhit : hit (x :: xs) = true
      · rw [splitWith_of_hit hhit, intercalate_cons (splitWith_ne_nil _), List.nil_append]
        by_cases hsep : sep <+: x :: xs
        · have hrest := ih (xs.drop n).length (by rw [← hlen, List.length_drop, List.length_cons]; omega)
            (xs.drop n) rfl
          rw [honest_of_isPrefix hsep, drop_length_cons h, ← hrest, ← drop_length_cons h x]
          obtain ⟨rest, hrest'⟩ := hsep
          rw [← hrest', List.drop_left]
          exact List.append_right_inj sep
        · -- the piece that is left out is not the separator
          refine iff_of_false (fun heq => hsep ⟨_, heq⟩) fun hh => hsep (hh _ (.here _) hhit)
      · have hsep : ¬ sep <+: x :: xs := fun hs => hhit (h.finds _ hs)
        rw [splitWith_of_not_hit hhit, intercalate_consHead (splitWith_ne_nil _),
          honest_cons_of_not_isPrefix hsep hhit, List.cons.injEq]
        exact ⟨fun heq => (ih xs.length (by rw [← hlen]; exact Nat.lt_succ_self _) xs rfl).1 heq.2,
          fun hh => ⟨rfl, (ih xs.length (by rw [← hlen]; exact Nat.lt_succ_self _) xs rfl).2 hh⟩⟩

/-! ## The first place -/

/-- The list `sep` stands in `xs` at the index `p`, and nowhere in front of it. -/
def FirstAt (sep xs : List α) (p : Nat) : Prop :=
  sep <+: xs.drop p ∧ ∀ q < p, ¬ sep <+: xs.drop q

/-- There is one first place. -/
theorem FirstAt.unique {p q : Nat} (hp : FirstAt sep xs p) (hq : FirstAt sep xs q) : p = q := by
  rcases Nat.lt_trichotomy p q with hlt | heq | hgt
  · exact absurd hp.1 (hq.2 p hlt)
  · exact heq
  · exact absurd hq.1 (hp.2 q hgt)

/-- What has a place is there. -/
theorem FirstAt.infix {p : Nat} (h : FirstAt sep xs p) : sep <:+: xs :=
  h.1.isInfix.trans (List.drop_suffix p xs).isInfix

/-- Behind an element that begins no occurrence. -/
theorem firstAt_succ_iff {x : α} {p : Nat} (h : ¬ sep <+: x :: xs) :
    FirstAt sep (x :: xs) (p + 1) ↔ FirstAt sep xs p := by
  constructor
  · exact fun hp => ⟨hp.1, fun q hq => hp.2 (q + 1) (Nat.succ_lt_succ hq)⟩
  · intro hp
    refine ⟨hp.1, fun q hq => ?_⟩
    cases q with
    | zero => exact h
    | succ q => exact hp.2 q (Nat.lt_of_succ_lt_succ hq)

section Separator

variable [DecidableEq α]

theorem isPrefixOf_iff : sep.isPrefixOf xs = true ↔ sep <+: xs := List.isPrefixOf_iff_prefix

/-- The pieces between the places of a separator that is not empty. -/
def pieces (sep : List α) (xs : List α) : List (List α) :=
  splitWith (fun ys => sep.isPrefixOf ys) (sep.length - 1) xs

/-- The exact test is one of the tests. -/
theorem tests_isPrefixOf (h : sep ≠ []) :
    Tests (fun ys => sep.isPrefixOf ys) sep (sep.length - 1) where
  length_eq := by
    have := List.length_pos_of_ne_nil h
    omega
  finds ys hys := isPrefixOf_iff.2 hys
  room ys hys := (isPrefixOf_iff.1 hys).length_le

/-- An honest test splits as the exact one does. -/
theorem splitWith_eq_pieces (h : Tests hit sep n) (hh : Honest hit sep xs) :
    splitWith hit n xs = pieces sep xs := by
  have hne : sep ≠ [] := List.ne_nil_of_length_pos (by rw [h.length_eq]; exact Nat.succ_pos n)
  have hn : sep.length - 1 = n := by rw [h.length_eq]; rfl
  rw [pieces, hn]
  induction hlen : xs.length using Nat.strongRecOn generalizing xs with
  | _ len ih =>
    cases xs with
    | nil => rw [splitWith_nil, splitWith_nil]
    | cons x xs =>
      by_cases hsep : sep <+: x :: xs
      · rw [splitWith_of_hit (h.finds _ hsep), splitWith_of_hit (isPrefixOf_iff.2 hsep)]
        have hh' := (honest_of_isPrefix hsep).1 hh
        rw [drop_length_cons h] at hh'
        rw [ih _ (by rw [← hlen, List.length_drop, List.length_cons]; omega) hh' rfl]
      · have hhit : ¬ hit (x :: xs) = true := fun hy => hsep (hh _ (.here _) hy)
        rw [splitWith_of_not_hit hhit,
          splitWith_of_not_hit fun hy => hsep (isPrefixOf_iff.1 hy)]
        rw [ih _ (by rw [← hlen]; exact Nat.lt_succ_self _)
          ((honest_cons_of_not_isPrefix hsep hhit).1 hh) rfl]

/-- There is always a piece. -/
theorem pieces_ne_nil (sep xs : List α) : pieces sep xs ≠ [] := splitWith_ne_nil xs

/-- At a separator a piece ends. -/
theorem pieces_of_isPrefix (hne : sep ≠ []) (h : sep <+: xs) :
    pieces sep xs = [] :: pieces sep (xs.drop sep.length) := by
  cases xs with
  | nil => exact absurd (List.prefix_nil.1 h) hne
  | cons x xs =>
    rw [pieces, splitWith_of_hit (isPrefixOf_iff.2 h), pieces,
      drop_length_cons (tests_isPrefixOf hne)]

theorem pieces_cons_of_not_isPrefix {x : α} (h : ¬ sep <+: x :: xs) :
    pieces sep (x :: xs) = consHead x (pieces sep xs) := by
  rw [pieces, splitWith_of_not_hit fun hy => h (isPrefixOf_iff.1 hy), pieces]

/-- Without a separator there is one piece. -/
theorem pieces_of_absent (h : ¬ sep <:+: xs) : pieces sep xs = [xs] := by
  apply splitWith_of_never
  intro ys hys hhit
  exact h ((isPrefixOf_iff.1 hhit).isInfix.trans hys.isInfix)

theorem pieces_of_short (h : xs.length < sep.length) : pieces sep xs = [xs] :=
  pieces_of_absent fun hi => absurd hi.length_le (Nat.not_le_of_lt h)

/-- **Joining undoes splitting.** -/
theorem intercalate_pieces (hne : sep ≠ []) (xs : List α) : sep.intercalate (pieces sep xs) = xs :=
  (intercalate_splitWith_iff (tests_isPrefixOf hne) xs).2
    fun _ _ hhit => isPrefixOf_iff.1 hhit

/-- The first piece is the beginning. -/
theorem head_pieces_isPrefix {p : List α} {ps : List (List α)} (hne : sep ≠ [])
    (h : pieces sep xs = p :: ps) : p <+: xs := by
  have hjoin := intercalate_pieces hne xs
  rw [h] at hjoin
  cases ps with
  | nil => exact ⟨[], by simpa using hjoin⟩
  | cons q qs =>
    rw [List.intercalate_cons_cons, List.append_assoc] at hjoin
    exact ⟨_, hjoin⟩

/-- No piece has the separator in it. -/
theorem not_infix_of_mem_pieces (hne : sep ≠ []) {p : List α} (h : p ∈ pieces sep xs) :
    ¬ sep <:+: p := by
  induction hlen : xs.length using Nat.strongRecOn generalizing xs p with
  | _ len ih =>
    have hnil : ¬ sep <:+: [] := fun hi => hne (List.infix_nil.1 hi)
    cases xs with
    | nil =>
      rw [pieces, splitWith_nil, List.mem_singleton] at h
      rw [h]
      exact hnil
    | cons x xs =>
      by_cases hsep : sep <+: x :: xs
      · rw [pieces_of_isPrefix hne hsep, List.mem_cons] at h
        rcases h with rfl | h
        · exact hnil
        · exact ih _ (by
            have := List.length_pos_of_ne_nil hne
            rw [← hlen, List.length_drop, List.length_cons]
            omega) h rfl
      · rw [pieces_cons_of_not_isPrefix hsep] at h
        have hrest : ∀ q ∈ pieces sep xs, ¬ sep <:+: q := fun q hq =>
          ih _ (by rw [← hlen]; exact Nat.lt_succ_self _) hq rfl
        cases hp : pieces sep xs with
        | nil => exact absurd hp (splitWith_ne_nil xs)
        | cons q qs =>
          rw [hp] at h hrest
          rw [consHead, List.mem_cons] at h
          rcases h with rfl | h
          · intro hi
            rcases List.infix_cons_iff.1 hi with hpre | hin
            · -- the separator would begin where the scan looked
              obtain ⟨rest, hrest'⟩ := head_pieces_isPrefix hne hp
              refine hsep (hpre.trans ⟨rest, ?_⟩)
              rw [List.cons_append, hrest']
            · exact hrest q List.mem_cons_self hin
          · exact hrest p (List.mem_cons_of_mem q h)

/-- One piece means no separator. -/
theorem length_pieces_eq_one_iff (hne : sep ≠ []) :
    (pieces sep xs).length = 1 ↔ ¬ sep <:+: xs := by
  constructor
  · intro h hi
    obtain ⟨p, hp⟩ := List.length_eq_one_iff.1 h
    have hjoin := intercalate_pieces hne xs
    rw [hp, List.intercalate_singleton] at hjoin
    have hmem : p ∈ pieces sep xs := by
      rw [hp]
      exact List.mem_singleton.2 rfl
    rw [← hjoin] at hi
    exact not_infix_of_mem_pieces hne hmem hi
  · intro h
    rw [pieces_of_absent h, List.length_singleton]

/-- The index of the first place. -/
def firstIndex (sep : List α) : List α → Option Nat
  | [] => if sep <+: [] then some 0 else none
  | x :: xs => if sep <+: x :: xs then some 0 else (firstIndex sep xs).map (· + 1)

/-- A place that is found is the first one. -/
theorem firstIndex_eq_some (h : firstIndex sep xs = some n) : FirstAt sep xs n := by
  induction xs generalizing n with
  | nil =>
    rw [firstIndex] at h
    split at h
    · rename_i hp
      cases h
      exact ⟨hp, nofun⟩
    · cases h
  | cons x xs ih =>
    rw [firstIndex] at h
    split at h
    · rename_i hp
      cases h
      exact ⟨hp, nofun⟩
    · rename_i hp
      obtain ⟨m, hm, rfl⟩ := Option.map_eq_some_iff.1 h
      exact (firstAt_succ_iff hp).2 (ih hm)

/-- None is found when there is none. -/
theorem firstIndex_eq_none_iff : firstIndex sep xs = none ↔ ¬ sep <:+: xs := by
  induction xs with
  | nil =>
    rw [firstIndex]
    by_cases h : sep <+: []
    · simp [h.isInfix, h]
    · rw [if_neg h]
      exact iff_of_true rfl fun hi => h (List.infix_nil.1 hi ▸ List.prefix_refl _)
  | cons x xs ih =>
    rw [firstIndex, List.infix_cons_iff]
    by_cases h : sep <+: x :: xs
    · simp [h]
    · simp [h, ih]

end Separator

end Quirrel.Lib
