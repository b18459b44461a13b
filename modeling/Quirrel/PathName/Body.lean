import Mathlib.Data.List.DropRight
import Mathlib.Data.List.TakeWhile
import Quirrel.PathName.Basic

/-!
# The body of a string

What the first loop leaves has no white space around it and at most one quote (`clean_tidy`), and such
a string it leaves as it is. The prefix of a URL is found again before another body
(`urlPrefix_take_append`).
-/

set_option autoImplicit false

namespace Quirrel.PathName

variable {s t : CString}

/-! ## Quotes -/

theorem count_of_dropWhile_eq_nil (h : s.dropWhile notQuote = []) : s.count '"' = 0 := by
  rw [List.dropWhile_eq_nil_iff] at h
  refine List.count_eq_zero.mpr fun hmem => ?_
  simpa [notQuote] using h '"' hmem

theorem count_of_dropWhile_eq_cons {c : Char} {rest : CString}
    (h : s.dropWhile notQuote = c :: rest) : s.count '"' = rest.count '"' + 1 := by
  have hc : c = '"' := by
    have hne : s.dropWhile notQuote ≠ [] := by
      rw [h]
      exact List.cons_ne_nil _ _
    have hhead : notQuote c = false := by
      have := List.head_dropWhile_not notQuote hne
      simpa only [h, List.head_cons] using this
    simpa [notQuote] using hhead
  have hfront : (s.takeWhile notQuote).count '"' = 0 := by
    refine List.count_eq_zero.mpr fun hmem => ?_
    simpa [notQuote] using List.mem_takeWhile_imp hmem
  conv_lhs => rw [← List.takeWhile_append_dropWhile (p := notQuote) (l := s), h, hc]
  rw [List.count_append, hfront, List.count_cons_self, Nat.zero_add]

/-- The string stays if there is at most one quote, and else it gets shorter. -/
theorem unquote_cases (s : CString) :
    (unquote s = s ∧ s.count '"' ≤ 1) ∨
      ((unquote s).Sublist s ∧ (unquote s).length < s.length ∧ 1 < s.count '"') := by
  unfold unquote
  cases hs : s.dropWhile notQuote with
  | nil => exact Or.inl ⟨rfl, (count_of_dropWhile_eq_nil hs).le.trans (Nat.zero_le _)⟩
  | cons c rest =>
    have hcount := count_of_dropWhile_eq_cons hs
    have hsplit := List.takeWhile_append_dropWhile (p := notQuote) (l := s)
    rw [hs] at hsplit
    cases hr : rest.dropWhile notQuote with
    | nil =>
      simp only [hr]
      exact Or.inl ⟨trivial, by rw [hcount, count_of_dropWhile_eq_nil hr]⟩
    | cons c' behind =>
      have hcount' := count_of_dropWhile_eq_cons hr
      have hsplit' := List.takeWhile_append_dropWhile (p := notQuote) (l := rest)
      rw [hr] at hsplit'
      simp only [hr]
      refine Or.inr ⟨?_, ?_, by omega⟩
      · conv_rhs => rw [← hsplit, ← hsplit']
        rw [List.append_assoc]
        refine List.Sublist.append (List.Sublist.refl _) (List.Sublist.cons _ ?_)
        exact List.Sublist.append (List.Sublist.refl _) (List.sublist_cons_self _ _)
      · have hlen := congrArg List.length hsplit
        have hlen' := congrArg List.length hsplit'
        simp only [List.length_append, List.length_cons] at hlen hlen' ⊢
        omega

theorem unquote_sublist (s : CString) : (unquote s).Sublist s := by
  rcases unquote_cases s with ⟨h, -⟩ | ⟨h, -, -⟩
  · rw [h]
  · exact h

/-! ## The first loop -/

/-- A string that the first loop has nothing to remove from. -/
structure Tidy (s : CString) : Prop where
  head : ∀ c ∈ s.head?, isBlank c = false
  last : ∀ c ∈ s.getLast?, isBlank c = false
  quotes : s.count '"' ≤ 1

theorem dropWhile_isBlank (h : s.dropWhile isBlank = s) : ∀ c ∈ s.head?, isBlank c = false := by
  cases s with
  | nil => nofun
  | cons c s =>
    rintro _ ⟨⟩
    by_contra hc
    rw [List.dropWhile_cons_of_pos (by simpa using hc)] at h
    have hlen := congrArg List.length h
    have hle := (List.dropWhile_sublist isBlank (l := s)).length_le
    rw [List.length_cons] at hlen
    omega

theorem Tidy.cleanOnce (h : Tidy s) : cleanOnce s = s := by
  have hdrop : s.dropWhile isBlank = s := by
    cases s with
    | nil => rfl
    | cons c s => rw [List.dropWhile_cons_of_neg (by simpa using h.head c rfl)]
  have hrdrop : s.rdropWhile isBlank = s := by
    rw [List.rdropWhile_eq_self_iff]
    intro hne hblank
    rw [h.last _ (List.getLast?_eq_some_getLast hne)] at hblank
    cases hblank
  have hunquote : unquote s = s := by
    rcases unquote_cases s with ⟨h, -⟩ | ⟨-, -, hcount⟩
    · exact h
    · exact absurd h.quotes (Nat.not_le.mpr hcount)
  rw [PathName.cleanOnce, hdrop, hrdrop, hunquote]

theorem cleanOnce_sublist (s : CString) : (cleanOnce s).Sublist s :=
  ((unquote_sublist _).trans (List.rdropWhile_prefix ..).sublist).trans (List.dropWhile_sublist _)

theorem tidy_of_cleanOnce (h : cleanOnce s = s) : Tidy s := by
  have hdrop := List.dropWhile_sublist isBlank (l := s)
  have hrdrop : ((s.dropWhile isBlank).rdropWhile isBlank).Sublist (s.dropWhile isBlank) :=
    (List.rdropWhile_prefix ..).sublist
  have hunquote := unquote_sublist ((s.dropWhile isBlank).rdropWhile isBlank)
  have hlen : (unquote ((s.dropWhile isBlank).rdropWhile isBlank)).length = s.length :=
    congrArg List.length h
  -- nothing was removed, so each of the three has left the string as it was
  have hd : s.dropWhile isBlank = s :=
    hdrop.eq_of_length_le (hlen ▸ (hunquote.trans hrdrop).length_le)
  rw [hd] at hrdrop hunquote hlen
  have hr : s.rdropWhile isBlank = s := hrdrop.eq_of_length_le (hlen ▸ hunquote.length_le)
  rw [hr] at hlen
  refine ⟨dropWhile_isBlank hd, fun c hc => ?_, ?_⟩
  · rw [List.rdropWhile_eq_self_iff] at hr
    obtain ⟨front, rfl⟩ := List.getLast?_eq_some_iff.mp hc
    simpa using hr (List.append_ne_nil_of_right_ne_nil _ (List.cons_ne_nil _ _))
  · rcases unquote_cases s with ⟨-, hcount⟩ | ⟨-, hshort, -⟩
    · exact hcount
    · exact absurd hlen hshort.ne

theorem cleanLoop_tidy {fuel : Nat} (h : s.length < fuel) : ∃ t, cleanLoop fuel s = some t ∧ Tidy t := by
  induction fuel generalizing s with
  | zero => exact absurd h (Nat.not_lt_zero _)
  | succ fuel ih =>
    rw [cleanLoop]
    split
    · rename_i hlen
      have heq : cleanOnce s = s := (cleanOnce_sublist s).eq_of_length hlen
      rw [heq]
      exact ⟨s, rfl, tidy_of_cleanOnce heq⟩
    · rename_i hlen
      have hlt : (cleanOnce s).length < s.length :=
        lt_of_le_of_ne (cleanOnce_sublist s).length_le hlen
      exact ih (by omega)

theorem clean_tidy (s : CString) : ∃ t, clean s = some t ∧ Tidy t :=
  cleanLoop_tidy (Nat.lt_succ_self _)

theorem Tidy.clean (h : Tidy s) : clean s = some s := by
  rw [PathName.clean, cleanLoop, h.cleanOnce, if_pos rfl]

/-! ## The prefix of a URL -/

/-- The conditions for a prefix of `semi + 3` characters. -/
structure IsUrl (s : CString) (semi : Nat) : Prop where
  colon : (s.take 8).findIdx? (· = ':') = some semi
  length : semi + 3 < s.length
  first : s[semi + 1]? = some '/'
  second : s[semi + 2]? = some '/'

theorem IsUrl.urlPrefix {semi : Nat} (h : IsUrl s semi) : urlPrefix s = semi + 3 := by
  rw [PathName.urlPrefix, h.colon]
  exact if_pos ⟨h.length, h.first, h.second⟩

theorem urlPrefix_cases (s : CString) : urlPrefix s = 0 ∨ ∃ semi, IsUrl s semi := by
  unfold urlPrefix
  cases hc : (s.take 8).findIdx? (· = ':') with
  | none => exact Or.inl rfl
  | some semi =>
    dsimp only
    split
    · rename_i h
      exact Or.inr ⟨semi, hc, h.1, h.2.1, h.2.2⟩
    · exact Or.inl rfl

/-- The prefix is found again before any body that is not empty. -/
theorem IsUrl.take_append {semi : Nat} (h : IsUrl s semi) {r : CString} (hr : r ≠ []) :
    IsUrl (s.take (semi + 3) ++ r) semi := by
  have hlen : (s.take (semi + 3)).length = semi + 3 := List.length_take_of_le h.length.le
  have hget : ∀ {i : Nat}, i < semi + 3 → (s.take (semi + 3) ++ r)[i]? = s[i]? := by
    intro i hi
    rw [List.getElem?_append_left (hlen.symm ▸ hi), List.getElem?_take_of_lt hi]
  have hcolon := h.colon
  rw [List.findIdx?_take, Option.bind_eq_some_iff] at hcolon
  obtain ⟨k, hk, hguard⟩ := hcolon
  obtain ⟨rfl, hlt⟩ := Option.guard_eq_some_iff.mp hguard
  refine ⟨?_, ?_, (hget (by omega)).trans h.first, (hget (by omega)).trans h.second⟩
  · rw [List.findIdx?_take, List.findIdx?_append, List.findIdx?_take, hk]
    have hk3 : k < k + 3 := by omega
    simpa [Option.guard, hk3] using hlt
  · rw [List.length_append, hlen]
    have := List.length_pos_of_ne_nil hr
    omega

end Quirrel.PathName
