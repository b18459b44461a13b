import Mathlib.Data.List.TakeWhile
import Quirrel.TypeDecl.Mask

/-!
# Identifiers and masks read back

What the parser reads as an identifier or as a type mask has a shape that the printer keeps, and
the printed text is read back as the same identifier or mask.
-/

set_option autoImplicit false

namespace Quirrel.TypeDecl

open Quirrel.Lib

/-! ## Identifiers -/

/-- The text of an identifier. -/
def IsName (n : Text) : Prop :=
  ∃ c cs, n = c :: cs ∧ isIdentStart c = true ∧ ∀ d ∈ cs, isIdentChar d = true

/-- An identifier ends before this text. -/
def EndsName (rest : Text) : Prop := ∀ c, rest.head? = some c → isIdentChar c = false

theorem EndsName.cons {c : Char} (h : isIdentChar c = false) (rest : Text) :
    EndsName (c :: rest) := by
  intro d hd
  cases hd
  exact h

theorem EndsName.nil : EndsName [] := by
  intro c hc
  cases hc

theorem isSpace_of_start {c : Char} (h : isIdentStart c = true) : isSpace c = false := by
  cases hs : isSpace c with
  | false => rfl
  | true =>
    simp only [isSpace, Bool.or_eq_true, beq_iff_eq] at hs
    rcases hs with ((((rfl | rfl) | rfl) | rfl) | rfl) | rfl <;> exact absurd h (by decide)

theorem IsName.ne_nil {n : Text} (h : IsName n) : n ≠ [] := by
  obtain ⟨c, cs, rfl, _⟩ := h
  exact List.cons_ne_nil c cs

/-- A text that begins with a name begins with its first character. -/
theorem IsName.head {n : Text} (h : IsName n) (rest : Text) :
    ∃ c, (n ++ rest).head? = some c ∧ isIdentStart c = true := by
  obtain ⟨c, cs, rfl, hc, _⟩ := h
  exact ⟨c, rfl, hc⟩

theorem skipSpaces_of_head {s : Text} (h : ∀ c, s.head? = some c → isSpace c = false) :
    skipSpaces s = s := by
  cases s with
  | nil => rfl
  | cons c s => exact List.dropWhile_cons_of_neg (by simp [h c rfl])

@[simp] theorem skipSpaces_nil : skipSpaces [] = [] := rfl

theorem skipSpaces_cons {c : Char} (h : isSpace c = false) (s : Text) :
    skipSpaces (c :: s) = c :: s := by
  apply skipSpaces_of_head
  intro d hd
  cases hd
  exact h

theorem skipSpaces_space {c : Char} (h : isSpace c = true) (s : Text) :
    skipSpaces (c :: s) = skipSpaces s :=
  List.dropWhile_cons_of_pos h

theorem skipSpaces_head (s : Text) {c : Char} (h : (skipSpaces s).head? = some c) :
    isSpace c = false := by
  have := List.head?_dropWhile_not isSpace s
  rw [skipSpaces] at h
  rw [h] at this
  simpa using this

@[simp] theorem skipSpaces_skipSpaces (s : Text) : skipSpaces (skipSpaces s) = skipSpaces s :=
  skipSpaces_of_head fun _ hc => skipSpaces_head s hc

theorem IsName.skipSpaces {n : Text} (h : IsName n) (rest : Text) :
    skipSpaces (n ++ rest) = n ++ rest := by
  apply skipSpaces_of_head
  intro c hc
  obtain ⟨d, hd, hstart⟩ := h.head rest
  rw [hd] at hc
  cases hc
  exact isSpace_of_start hstart

theorem EndsName.takeWhile {rest : Text} (h : EndsName rest) (cs : Text)
    (hcs : ∀ d ∈ cs, isIdentChar d = true) :
    (cs ++ rest).takeWhile isIdentChar = cs ∧ (cs ++ rest).dropWhile isIdentChar = rest := by
  induction cs with
  | nil =>
    cases rest with
    | nil => exact ⟨rfl, rfl⟩
    | cons c rest =>
      have hc : ¬ isIdentChar c = true := by simp [h c rfl]
      exact ⟨List.takeWhile_cons_of_neg hc, List.dropWhile_cons_of_neg hc⟩
  | cons d cs ih =>
    have hd := hcs d (List.mem_cons_self ..)
    obtain ⟨htake, hdrop⟩ := ih fun e he => hcs e (List.mem_cons_of_mem _ he)
    rw [List.cons_append, List.takeWhile_cons_of_pos hd, List.dropWhile_cons_of_pos hd, htake,
      hdrop]
    exact ⟨rfl, rfl⟩

/-- A name is read back, up to where it ends. -/
theorem parseIdentifier_append {n rest : Text} (hn : IsName n) (hrest : EndsName rest) :
    parseIdentifier (n ++ rest) = some (n, rest) := by
  obtain ⟨c, cs, rfl, hc, hcs⟩ := hn
  obtain ⟨htake, hdrop⟩ := hrest.takeWhile cs hcs
  rw [List.cons_append, parseIdentifier, if_pos hc, htake, hdrop]

/-- What is read as an identifier is a name. -/
theorem isName_of_parseIdentifier {p name q : Text} (h : parseIdentifier p = some (name, q)) :
    IsName name := by
  cases p with
  | nil => cases h
  | cons c s =>
    rw [parseIdentifier] at h
    split at h
    next hc =>
      cases h
      refine ⟨c, _, rfl, hc, ?_⟩
      intro d hd
      exact List.mem_takeWhile_imp hd
    next => cases h

/-! ## The table -/

theorem rawTypeDecls_names {d : RawTypeDecl} (hd : d ∈ rawTypeDecls) : IsName d.name := by
  have hall : ∀ d ∈ rawTypeDecls,
      d.name ≠ [] ∧ (d.name.head?.all isIdentStart && d.name.tail.all isIdentChar) = true := by
    decide
  obtain ⟨hne, hchars⟩ := hall d hd
  obtain ⟨c, cs, hname⟩ := List.exists_cons_of_ne_nil hne
  rw [hname] at hchars ⊢
  simp only [List.head?_cons, Option.all_some, List.tail_cons, Bool.and_eq_true,
    List.all_eq_true] at hchars
  exact ⟨c, cs, rfl, hchars.1, hchars.2⟩

/-- Each name of the table is found with its own mask. -/
theorem typeStringToMask_name {d : RawTypeDecl} (hd : d ∈ rawTypeDecls) :
    typeStringToMask d.name = .ok d.typeMask := by
  have hall : ∀ d ∈ rawTypeDecls, (typeStringToMask d.name).toOption = some d.typeMask := by
    decide
  have h := hall d hd
  cases hmask : typeStringToMask d.name with
  | error e =>
    rw [hmask] at h
    cases h
  | ok m =>
    rw [hmask] at h
    cases h
    rfl

theorem findDecl_ok {n : Text} {ds : List RawTypeDecl} {sugg : Option Text} {m : Mask}
    (h : findDecl n ds sugg = .ok m) : ∃ d ∈ ds, d.typeMask = m := by
  induction ds generalizing sugg with
  | nil => cases h
  | cons d ds ih =>
    rw [findDecl] at h
    split at h
    · cases h
      exact ⟨d, List.mem_cons_self .., rfl⟩
    · split at h
      · obtain ⟨e, he, hm⟩ := ih h
        exact ⟨e, List.mem_cons_of_mem _ he, hm⟩
      · obtain ⟨e, he, hm⟩ := ih h
        exact ⟨e, List.mem_cons_of_mem _ he, hm⟩

theorem rawTypeDecls_ne_zero {d : RawTypeDecl} (hd : d ∈ rawTypeDecls) : d.typeMask ≠ 0 := by
  have hall : ∀ d ∈ rawTypeDecls, d.typeMask ≠ 0 := by decide
  exact hall d hd

/-- Only `number` overlaps later types, and contains them. -/
theorem rawTypeDecls_nested : rawTypeDecls.Pairwise fun d e =>
    e.typeMask ≠ anyMask → d.typeMask &&& e.typeMask = 0 ∨ d.typeMask &&& e.typeMask = e.typeMask := by
  decide

/-! ## Masks -/

/-- A mask that a type list can have: not empty, and a union of types of the table. -/
structure IsTypeSet (m : Mask) : Prop where
  ne_zero : m ≠ 0
  covered : Covered RawTypeDecl.typeMask rawTypeDecls m

theorem IsTypeSet.of_mem {d : RawTypeDecl} (hd : d ∈ rawTypeDecls) : IsTypeSet d.typeMask :=
  ⟨rawTypeDecls_ne_zero hd, Covered.mask_of_mem hd⟩

theorem IsTypeSet.any : IsTypeSet anyMask :=
  IsTypeSet.of_mem (d := ⟨"any".toList, [], anyMask⟩) (by simp [rawTypeDecls])

theorem or_ne_zero {a b : Mask} (hb : b ≠ 0) : a ||| b ≠ 0 := by
  intro h
  apply hb
  apply BitVec.eq_of_getLsbD_eq
  intro i _
  have hbit : (a ||| b).getLsbD i = false := by rw [h]; exact BitVec.getLsbD_zero
  rw [BitVec.getLsbD_or, Bool.or_eq_false_iff] at hbit
  rw [hbit.2]
  exact BitVec.getLsbD_zero.symm

/-- The masks of a list of type names are united from types of the table. -/
theorem parseTypeList_isTypeSet {s p q : Text} {mask m : Mask}
    (hmask : Covered RawTypeDecl.typeMask rawTypeDecls mask)
    (h : parseTypeList s p mask = .ok (m, q)) : IsTypeSet m := by
  fun_induction parseTypeList s p mask with
  | case1 p mask => cases h
  | case2 p mask typeName r suggestion => cases h
  | case3 p mask typeName r _ current hfound hbar ih =>
    obtain ⟨d, hd, rfl⟩ := findDecl_ok hfound
    exact ih (hmask.or (Covered.mask_of_mem hd)) h
  | case4 p mask typeName r _ current hfound hbar =>
    obtain ⟨d, hd, rfl⟩ := findDecl_ok hfound
    cases h
    exact ⟨or_ne_zero (rawTypeDecls_ne_zero hd), hmask.or (Covered.mask_of_mem hd)⟩

/-- The type that the parser reads is a type set. -/
theorem parseTypeMask_isTypeSet {s q : Text} {m : Mask} (h : parseTypeMask s = .ok (m, q)) :
    IsTypeSet m := by
  simp only [parseTypeMask] at h
  split at h
  next =>
    split at h
    next => cases h
    next mask r hlist =>
      have hset := parseTypeList_isTypeSet (Covered.zero _) hlist
      split at h
      · cases h
        exact hset
      · cases h
  next => exact parseTypeList_isTypeSet (Covered.zero _) h

/-! ## Printed masks -/

/-- The names after the first one. -/
def laterNames (ds : List RawTypeDecl) : Text := ds.flatMap fun d => '|' :: d.name

theorem appendTypeNames_later (ds : List RawTypeDecl) (m : Mask) :
    appendTypeNames ds false m = laterNames (cover RawTypeDecl.typeMask ds m) := by
  induction ds generalizing m with
  | nil => rfl
  | cons d ds ih =>
    rw [appendTypeNames, cover]
    split
    · rw [ih, laterNames, laterNames, List.flatMap_cons]
      rfl
    · exact ih m

/-- The printed mask is the list of the names that the greedy pass takes. -/
theorem appendTypeNames_first {ds es : List RawTypeDecl} {d : RawTypeDecl} {m : Mask}
    (h : cover RawTypeDecl.typeMask ds m = d :: es) :
    appendTypeNames ds true m = d.name ++ laterNames es := by
  induction ds generalizing m with
  | nil => cases h
  | cons e ds ih =>
    rw [cover] at h
    rw [appendTypeNames]
    split at h
    next hin =>
      cases h
      rw [if_pos hin, appendTypeNames_later]
      rfl
    next hout =>
      rw [if_neg hout]
      exact ih h

/-- What stands after a printed mask: no more of the last name and no further type. -/
structure EndsMask (rest : Text) : Prop where
  name : EndsName rest
  bar : (skipSpaces rest).head? ≠ some '|'

theorem laterNames_ends {es : List RawTypeDecl} {rest : Text} (h : EndsName rest) :
    EndsName (laterNames es ++ rest) := by
  cases es with
  | nil => exact h
  | cons e es => exact EndsName.cons (by decide) _

/-- A list of names is read back as the union of their masks. -/
theorem parseTypeList_names (s : Text) {d : RawTypeDecl} {es : List RawTypeDecl} {rest : Text}
    (hd : d ∈ rawTypeDecls) (hes : es ⊆ rawTypeDecls) (hrest : EndsMask rest) (acc : Mask) :
    parseTypeList s (d.name ++ (laterNames es ++ rest)) acc
      = .ok (acc ||| unionMask RawTypeDecl.typeMask (d :: es), skipSpaces rest) := by
  induction es generalizing d acc with
  | nil =>
    rw [parseTypeList]
    have hname := parseIdentifier_append (rawTypeDecls_names hd)
      (@laterNames_ends [] rest hrest.name)
    split
    next hnone => rw [hname] at hnone; cases hnone
    next n q hsome =>
      rw [hname] at hsome
      cases hsome
      rw [typeStringToMask_name hd]
      simp only [laterNames, List.flatMap_nil, List.nil_append]
      rw [if_neg hrest.bar]
      simp [unionMask]
  | cons e es ih =>
    rw [parseTypeList]
    have hname := parseIdentifier_append (rawTypeDecls_names hd)
      (@laterNames_ends (e :: es) rest hrest.name)
    have he : e ∈ rawTypeDecls := hes (List.mem_cons_self ..)
    split
    next hnone => rw [hname] at hnone; cases hnone
    next n q hsome =>
      rw [hname] at hsome
      cases hsome
      rw [typeStringToMask_name hd]
      have hbar : laterNames (e :: es) ++ rest = '|' :: (e.name ++ (laterNames es ++ rest)) := by
        simp [laterNames]
      have hskip : skipSpaces (e.name ++ (laterNames es ++ rest))
          = e.name ++ (laterNames es ++ rest) := (rawTypeDecls_names he).skipSpaces _
      simp only [hbar, skipSpaces_cons (c := '|') rfl, List.head?_cons, if_true, List.tail_cons,
        hskip]
      rw [ih he (fun x hx => hes (List.mem_cons_of_mem _ hx))]
      simp [unionMask, BitVec.or_assoc]

/-- The printed text of a type set is a list of names of the table with that union. -/
theorem appendTypeMask_names {m : Mask} (h : IsTypeSet m) :
    ∃ d es, d ∈ rawTypeDecls ∧ es ⊆ rawTypeDecls
      ∧ unionMask RawTypeDecl.typeMask (d :: es) = m
      ∧ appendTypeMask m = d.name ++ laterNames es := by
  by_cases hany : m = anyMask
  · refine ⟨⟨"any".toList, [], anyMask⟩, [], by simp [rawTypeDecls], List.nil_subset _, ?_, ?_⟩
    · rw [hany]
      rfl
    · rw [appendTypeMask, if_pos hany]
      rfl
  · -- no type inside the mask is `any`, so the table is nested for the types inside it
    have hnested : rawTypeDecls.Pairwise fun d e =>
        MaskLe e.typeMask m → NestedMask d.typeMask e.typeMask := by
      apply rawTypeDecls_nested.imp
      intro d e hpair hle
      have hne : e.typeMask ≠ anyMask := by
        intro he
        rw [he] at hle
        exact hany hle.eq_allOnes
      exact (hpair hne).imp id (maskLe_iff_and _ _).mpr
    have hunion := unionMask_cover hnested h.covered
    obtain ⟨d, es, hcover⟩ := List.exists_cons_of_ne_nil (cover_ne_nil h.ne_zero hunion)
    have hsub : cover RawTypeDecl.typeMask rawTypeDecls m ⊆ rawTypeDecls :=
      cover_subset rawTypeDecls m
    rw [hcover] at hsub hunion
    obtain ⟨hd, hes⟩ := List.cons_subset.mp hsub
    refine ⟨d, es, hd, hes, hunion, ?_⟩
    rw [appendTypeMask, if_neg hany, appendTypeNames_first hcover]

theorem appendTypeMask_head {m : Mask} (h : IsTypeSet m) (rest : Text) :
    ∃ c, (appendTypeMask m ++ rest).head? = some c ∧ isIdentStart c = true := by
  obtain ⟨d, es, hd, _, _, htext⟩ := appendTypeMask_names h
  rw [htext, List.append_assoc]
  exact (rawTypeDecls_names hd).head _

/-- A printed mask is read back as the same mask. -/
theorem parseTypeMask_append {m : Mask} {rest : Text} (h : IsTypeSet m) (hrest : EndsMask rest) :
    parseTypeMask (appendTypeMask m ++ rest) = .ok (m, skipSpaces rest) := by
  obtain ⟨d, es, hd, hes, hunion, htext⟩ := appendTypeMask_names h
  have hskip : skipSpaces (appendTypeMask m ++ rest) = d.name ++ (laterNames es ++ rest) := by
    rw [htext, List.append_assoc, (rawTypeDecls_names hd).skipSpaces]
  have hparen : (d.name ++ (laterNames es ++ rest)).head? ≠ some '(' := by
    obtain ⟨c, hc, hstart⟩ := (rawTypeDecls_names hd).head (laterNames es ++ rest)
    rw [hc]
    rintro ⟨rfl⟩
    exact absurd hstart (by decide)
  simp only [parseTypeMask, hskip]
  rw [if_neg hparen, parseTypeList_names _ hd hes hrest, hunion]
  simp

/-- The same in parentheses. -/
theorem parseTypeMask_parens {m : Mask} (h : IsTypeSet m) (rest : Text) :
    parseTypeMask ('(' :: (appendTypeMask m ++ ')' :: rest)) = .ok (m, skipSpaces rest) := by
  obtain ⟨d, es, hd, hes, hunion, htext⟩ := appendTypeMask_names h
  have hskip : skipSpaces (appendTypeMask m ++ ')' :: rest)
      = d.name ++ (laterNames es ++ ')' :: rest) := by
    rw [htext, List.append_assoc, (rawTypeDecls_names hd).skipSpaces]
  have hends : EndsMask (')' :: rest) :=
    ⟨EndsName.cons (by decide) _, by rw [skipSpaces_cons (by decide)]; simp⟩
  simp only [parseTypeMask, skipSpaces_cons (c := '(') rfl, List.head?_cons, if_true,
    List.tail_cons, hskip]
  rw [parseTypeList_names _ hd hes hends, hunion]
  simp [skipSpaces_cons (c := ')') rfl]

end Quirrel.TypeDecl
