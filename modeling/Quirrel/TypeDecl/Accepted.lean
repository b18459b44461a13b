import Quirrel.TypeDecl.MaskText
import Quirrel.TypeDecl.Parser

/-!
# What the parser accepts

The parts of a function type that the parser returns have the shapes that the printed text needs:
names, unions of types, default values that end where they ended, and required arguments in front
of all others.
-/

set_option autoImplicit false

namespace Quirrel.TypeDecl

open Quirrel.Lib

/-! ## Default values -/

/-- The characters that end a default value outside brackets. -/
def EndsDefault (c : Char) : Prop := c = ',' ∨ c = ')' ∨ c = ']'

theorem EndsDefault.not_space {c : Char} (h : EndsDefault c) : isSpace c = false := by
  rcases h with rfl | rfl | rfl <;> rfl

theorem EndsDefault.bracketStep {c : Char} (h : EndsDefault c) : bracketStep c [] = .stop := by
  rcases h with rfl | rfl | rfl <;> rfl

theorem EndsDefault.not_quote {c : Char} (h : EndsDefault c) : ¬ (c = '\x22' ∨ c = '\x27') := by
  rcases h with rfl | rfl | rfl <;> decide

/-- Only these characters stop the scan, and only outside brackets. -/
theorem endsDefault_of_stop {c : Char} {stack : List Char} (h : bracketStep c stack = .stop) :
    EndsDefault c ∧ stack = [] := by
  have hclose : ∀ {opener : Char} {text : String}, closeBracket opener text stack = .stop →
      stack = [] := by
    intro opener text hc
    cases stack with
    | nil => rfl
    | cons d stack =>
      rw [closeBracket] at hc
      split at hc <;> cases hc
  rw [TypeDecl.bracketStep] at h
  split at h
  · cases h
  · split at h
    next hc => exact ⟨.inr (.inl hc), hclose h⟩
    next =>
      split at h
      · cases h
      · split at h
        next hc => exact ⟨.inr (.inr hc), hclose h⟩
        next =>
          split at h
          · cases h
          · split at h
            · split at h <;> cases h
            · split at h
              next hc => exact ⟨.inl hc.1, hc.2⟩
              next => cases h

/-- A text that is read as a default value, whatever ends it. -/
structure IsDefault (t : Text) : Prop where
  ne_nil : t ≠ []
  skip : ∀ rest, skipSpaces (t ++ rest) = t ++ rest
  scan : ∀ (s : Text) (c : Char) (rest : Text), EndsDefault c →
    scanDefault s (t ++ c :: rest) false '\x00' [] = .ok ⟨c :: rest, false, []⟩

/-- Spaces in front of a position are skipped also when another text follows. -/
theorem skipSpaces_split {p t q : Text} (h : skipSpaces p = t ++ q) :
    ∃ u, p = u ++ q ∧ ∀ (c : Char) (rest : Text), isSpace c = false →
      skipSpaces (u ++ c :: rest) = t ++ c :: rest := by
  refine ⟨p.takeWhile isSpace ++ t, ?_, ?_⟩
  · rw [List.append_assoc, ← h, skipSpaces, List.takeWhile_append_dropWhile]
  · intro c rest hc
    have hspaces : ∀ d ∈ p.takeWhile isSpace, isSpace d = true :=
      fun d hd => List.mem_takeWhile_imp hd
    have htail : skipSpaces (t ++ c :: rest) = t ++ c :: rest := by
      apply skipSpaces_of_head
      intro d hd
      cases t with
      | nil =>
        cases hd
        exact hc
      | cons e t =>
        cases hd
        exact skipSpaces_head p (by rw [h]; rfl)
    rw [skipSpaces, List.append_assoc, List.dropWhile_append_of_pos hspaces]
    exact htail

/-- A scan that ended outside brackets goes the same way over its text when another text follows. -/
theorem scanDefault_rescan {s p q : Text} {inside : Bool} {opener : Char} {stack : List Char}
    (h : scanDefault s p inside opener stack = .ok ⟨q, false, []⟩) (hq : q ≠ []) :
    ∃ t, p = t ++ q ∧ ∀ (s' : Text) (c : Char) (rest : Text), EndsDefault c →
      scanDefault s' (t ++ c :: rest) inside opener stack = .ok ⟨c :: rest, false, []⟩ := by
  fun_induction scanDefault s p inside opener stack with
  | case1 inside opener stack =>
    cases h
    exact absurd rfl hq
  | case2 stack e r ih =>
    -- the end of a string
    obtain ⟨t, rfl, ht⟩ := ih h
    refine ⟨e :: t, rfl, ?_⟩
    intro s' c rest hc
    rw [List.cons_append, scanDefault.eq_def]
    simp only [if_true]
    exact ht s' c rest hc
  | case3 opener stack => cases h
  | case4 opener stack d r hne ih =>
    -- an escaped character
    obtain ⟨t, rfl, ht⟩ := ih h
    refine ⟨'\\' :: d :: t, rfl, ?_⟩
    intro s' c rest hc
    rw [List.cons_append, scanDefault.eq_def]
    simp only [if_true, if_neg hne, List.cons_append]
    exact ht s' c rest hc
  | case5 opener stack e r hne hesc ih =>
    -- another character of a string
    obtain ⟨t, rfl, ht⟩ := ih h
    refine ⟨e :: t, rfl, ?_⟩
    intro s' c rest hc
    rw [List.cons_append, scanDefault.eq_def]
    simp only [if_true, if_neg hne, if_neg hesc]
    exact ht s' c rest hc
  | case6 inside opener stack e r hout hquote ih =>
    -- the beginning of a string
    obtain ⟨t, rfl, ht⟩ := ih h
    refine ⟨e :: t, rfl, ?_⟩
    intro s' c rest hc
    rw [List.cons_append, scanDefault.eq_def]
    simp only [if_neg hout, if_pos hquote]
    exact ht s' c rest hc
  | case7 => cases h
  | case8 inside opener stack e r hout hquote hdepth stack' hstep ih =>
    -- outside strings the spaces behind the character are skipped
    obtain ⟨t, htext, ht⟩ := ih h
    obtain ⟨u, rfl, hu⟩ := skipSpaces_split htext
    refine ⟨e :: u, rfl, ?_⟩
    intro s' c rest hc
    rw [List.cons_append, scanDefault.eq_def]
    simp only [if_neg hout, if_neg hquote, if_neg hdepth, hstep]
    rw [hu c rest hc.not_space]
    exact ht s' c rest hc
  | case9 inside opener stack e r hout hquote hdepth hstep =>
    cases h
    refine ⟨[], rfl, ?_⟩
    intro s' c rest hc
    rw [List.nil_append, scanDefault.eq_def]
    simp only [if_neg hout, if_neg hc.not_quote, hc.bracketStep]
    rfl
  | case10 => cases h

/-- Outside a string the scan stops inside the text only outside brackets and strings. -/
theorem scanDefault_stop {s p : Text} {inside : Bool} {opener : Char} {stack : List Char}
    {r : ScanEnd} (h : scanDefault s p inside opener stack = .ok r) (hpos : r.pos ≠ []) :
    r.insideString = false ∧ r.stack = [] := by
  fun_induction scanDefault s p inside opener stack with
  | case1 inside opener stack =>
    cases h
    exact absurd rfl hpos
  | case2 stack e r ih => exact ih h
  | case3 opener stack => cases h
  | case4 opener stack d r hne ih => exact ih h
  | case5 opener stack e r hne hesc ih => exact ih h
  | case6 inside opener stack e r hout hquote ih => exact ih h
  | case7 => cases h
  | case8 inside opener stack e r hout hquote hdepth stack' hstep ih => exact ih h
  | case9 inside opener stack e r hout hquote hdepth hstep =>
    cases h
    exact ⟨rfl, (endsDefault_of_stop hstep).2⟩
  | case10 => cases h

/-- The text that is kept for a default value is read again as a default value. -/
theorem parseDefaultText_ok {s p q : Text} {inside : Bool} {d : Option Text}
    (h : parseDefaultText s p false = .ok (d, inside, q)) :
    inside = false ∧ ∃ t, d = some t ∧ IsDefault t := by
  simp only [parseDefaultText] at h
  split at h
  next => cases h
  next r hscan =>
    split at h
    next => cases h
    next hstack =>
      split at h
      next => cases h
      next hpos =>
        split at h
        next => cases h
        next hlen =>
          cases h
          obtain ⟨pos, ins, stack⟩ := r
          obtain ⟨hins, hst⟩ := scanDefault_stop hscan hpos
          dsimp only at hins hst hpos hlen ⊢
          subst hins hst
          obtain ⟨t, hp, ht⟩ := scanDefault_rescan hscan hpos
          have hdist : dist (skipSpaces p) pos = t.length := by
            rw [dist, hp, List.length_append, Nat.add_sub_cancel]
          refine ⟨rfl, _, rfl, ?_⟩
          rw [hdist, hp, List.take_left]
          rw [hdist] at hlen
          refine ⟨fun hnil => hlen (by rw [hnil]; rfl), ?_, ht⟩
          intro rest
          apply skipSpaces_of_head
          intro c hc
          cases t with
          | nil => exact absurd rfl hlen
          | cons e t =>
            cases hc
            exact skipSpaces_head p (by rw [hp]; rfl)

/-! ## The whole function type -/

/-- The shape of a function type that the parser returns. -/
structure Accepted (ft : FunctionType) : Prop where
  name : ∃ n, ft.functionName = some n ∧ IsName n
  returnType : IsTypeSet ft.returnTypeMask
  objectType : IsTypeSet ft.objectTypeMask
  types_length : ft.argTypeMask.length = ft.argNames.length
  defaults_length : ft.defaultValues.length = ft.argNames.length
  names : ∀ n ∈ ft.argNames, IsName n
  types : ∀ m ∈ ft.argTypeMask, IsTypeSet m
  defaults : ∀ t, some t ∈ ft.defaultValues → IsDefault t
  ellipsis : ft.ellipsisArgTypeMask = 0 ∨ IsTypeSet ft.ellipsisArgTypeMask
  required_le : ft.requiredArgs ≤ ft.argNames.length
  /-- required arguments come first and have no default value -/
  required : ∀ i, i < ft.requiredArgs → ft.defaultValues[i]? = some none

/-- The invariant of the loop over the arguments. -/
structure LoopInv (st : ArgState) : Prop where
  res : Accepted st.res
  noString : st.insideString = false
  /-- outside the optional block only a default value ends the required arguments -/
  outside : st.insideOptional = false → st.optionalBlockFinished = false →
    st.res.requiredArgs < st.res.argNames.length → st.res.defaultValues.getLast?.join.isSome = true

theorem Accepted.pushArg {ft : FunctionType} (h : Accepted ft) {name : Text} {mask : Mask}
    {default : Option Text} {insideOptional : Bool} (hname : IsName name) (hmask : IsTypeSet mask)
    (hdefault : ∀ t, default = some t → IsDefault t)
    (hreq : insideOptional = false → default = none → ft.requiredArgs = ft.argNames.length) :
    Accepted (ft.pushArg name mask default insideOptional) where
  name := h.name
  returnType := h.returnType
  objectType := h.objectType
  types_length := by simp [FunctionType.pushArg, h.types_length]
  defaults_length := by simp [FunctionType.pushArg, h.defaults_length]
  names := by
    intro n hn
    rcases List.mem_append.mp hn with hn | hn
    · exact h.names n hn
    · rw [List.mem_singleton.mp hn]
      exact hname
  types := by
    intro m hm
    rcases List.mem_append.mp hm with hm | hm
    · exact h.types m hm
    · rw [List.mem_singleton.mp hm]
      exact hmask
  defaults := by
    intro t ht
    rcases List.mem_append.mp ht with ht | ht
    · exact h.defaults t ht
    · exact hdefault t (List.mem_singleton.mp ht).symm
  ellipsis := h.ellipsis
  required_le := by
    have hle := h.required_le
    simp only [FunctionType.pushArg, List.length_append, List.length_singleton]
    split <;> omega
  required := by
    intro i hi
    have hlen := h.defaults_length
    have hle := h.required_le
    simp only [FunctionType.pushArg] at hi ⊢
    by_cases hold : i < ft.requiredArgs
    · rw [List.getElem?_append_left (by omega)]
      exact h.required i hold
    · -- only the new argument is left, and it is required
      split at hi
      next hnew =>
        have heq := hreq hnew.1 hnew.2
        have hi' : i = ft.defaultValues.length := by omega
        rw [hi', List.getElem?_concat_length, hnew.2]
      next => exact absurd hi hold

theorem parseTypeMaskAt_isTypeSet {s p q : Text} {m : Mask}
    (h : parseTypeMaskAt s p = .ok (m, q)) : IsTypeSet m :=
  parseTypeMask_isTypeSet (parseTypeMaskAt_eq.mp h)

theorem parseArgType_isTypeSet {s p q : Text} {m : Mask} (h : parseArgType s p = .ok (m, q)) :
    IsTypeSet m := by
  rw [parseArgType] at h
  split at h
  · exact parseTypeMaskAt_isTypeSet h
  · split at h
    · cases h
    · cases h
      exact IsTypeSet.any

/-- What the default value of an argument can be. -/
theorem parseDefault_ok {s p q : Text} {st : ArgState} (hst : st.insideString = false)
    {d : Option Text} {inside : Bool} (h : parseDefault s p st = .ok (d, inside, q)) :
    inside = false ∧ (∀ t, d = some t → IsDefault t)
      ∧ (d = none → st.insideOptional = false → st.res.defaultValues.getLast?.join.isSome = false)
      := by
  rw [parseDefault, hst] at h
  split at h
  · obtain ⟨hin, t, rfl, ht⟩ := parseDefaultText_ok h
    refine ⟨hin, ?_, fun h => by cases h⟩
    rintro t' ⟨rfl⟩
    exact ht
  · split at h
    · cases h
    next hlast =>
      cases h
      refine ⟨rfl, (fun _ h => by cases h), ?_⟩
      intro _ hout
      cases hsome : st.res.defaultValues.getLast?.join.isSome with
      | false => rfl
      | true => exact absurd ⟨hout, hsome⟩ hlast

theorem LoopInv.argument {s p q : Text} {st st' : ArgState} (hinv : LoopInv st)
    (h : parseArgument s p st = .ok (q, st')) : LoopInv st' := by
  simp only [parseArgument] at h
  split at h
  next => cases h
  next hfinished =>
    split at h
    next => cases h
    next argName r hname =>
      split at h
      next => cases h
      next mask r' htype =>
        split at h
        next => cases h
        next d inside r'' hdefault =>
          obtain ⟨hin, hd, hlast⟩ := parseDefault_ok hinv.noString hdefault
          have hreq : st.insideOptional = false → d = none →
              st.res.requiredArgs = st.res.argNames.length := by
            intro hout hnone
            rcases Nat.lt_or_eq_of_le hinv.res.required_le with hlt | heq
            · have := hinv.outside hout (by simpa using hfinished) hlt
              rw [hlast hnone hout] at this
              cases this
            · exact heq
          have hres := hinv.res.pushArg (isName_of_parseIdentifier hname)
            (parseArgType_isTypeSet htype) hd hreq
          have hst : LoopInv
              { st with
                res := st.res.pushArg argName mask d st.insideOptional
                insideString := inside
                argumentProcessed := true } := by
            refine ⟨hres, hin, ?_⟩
            intro hout _ hlt
            dsimp only [FunctionType.pushArg] at hout hlt ⊢
            cases d with
            | none =>
              rw [if_pos ⟨hout, rfl⟩, List.length_append, List.length_singleton,
                hreq hout rfl] at hlt
              exact absurd hlt (Nat.lt_irrefl _)
            | some t => simp
          split at h
          · cases h
            exact hst
          · split at h
            · cases h
            · cases h
              exact hst

theorem LoopInv.ellipsis {s p q : Text} {st st' : ArgState} (hinv : LoopInv st)
    (h : parseEllipsis s p st = .ok (q, st')) : LoopInv st' := by
  simp only [parseEllipsis] at h
  split at h
  next => cases h
  next =>
    split at h
    next => cases h
    next mask r htyped =>
      have hmask : IsTypeSet mask := by
        split at htyped
        · exact parseTypeMaskAt_isTypeSet htyped
        · cases htyped
          exact IsTypeSet.any
      split at h
      · cases h
      · cases h
        exact ⟨{ hinv.res with ellipsis := .inr hmask }, hinv.noString, hinv.outside⟩

theorem LoopInv.turn {s p q : Text} {st st' : ArgState} (hinv : LoopInv st)
    (h : argTurn s p st = .ok (q, st')) : LoopInv st' := by
  simp only [argTurn] at h
  split at h
  · cases h
  · split at h
    · rw [openOptional] at h
      split at h
      · cases h
      · split at h
        · cases h
        · cases h
          exact ⟨hinv.res, hinv.noString, fun h => by cases h⟩
    · split at h
      · rw [closeOptional] at h
        split at h
        · cases h
        · cases h
          exact ⟨hinv.res, hinv.noString, fun _ h => by cases h⟩
      · split at h
        · rw [parseComma] at h
          split at h
          · cases h
          · cases h
            exact ⟨hinv.res, hinv.noString, hinv.outside⟩
        · split at h
          · exact hinv.ellipsis h
          · exact hinv.argument h

theorem LoopInv.loop {s p q : Text} {st st' : ArgState} (hinv : LoopInv st)
    (h : argLoop s p st = .ok (q, st')) : LoopInv st' := by
  fun_induction argLoop s p st with
  | case1 p st =>
    cases h
    exact hinv
  | case2 p st => cases h
  | case3 p st _ r st'' hturn ih => exact ih (hinv.turn hturn) h

/-- The object type and the name that are read. -/
theorem parseObject_ok {s p q n : Text} {m : Mask} (h : parseObject s p = .ok (m, n, q)) :
    IsTypeSet m ∧ IsName n := by
  rw [parseObject] at h
  split at h
  · simp only [parseComplexObject] at h
    split at h
    next => cases h
    next mask r hmask =>
      split at h
      next => cases h
      next =>
        split at h
        next => cases h
        next name r' hname =>
          cases h
          exact ⟨parseTypeMaskAt_isTypeSet hmask, isName_of_parseIdentifier hname⟩
  · simp only [parseSimpleObject] at h
    split at h
    next => cases h
    next identifier1 r hfirst =>
      split at h
      next =>
        split at h
        next => cases h
        next name r' hname =>
          split at h
          next => cases h
          next mask typeStr hmask =>
            split at h
            next => cases h
            next =>
              cases h
              exact ⟨parseTypeMask_isTypeSet hmask, isName_of_parseIdentifier hname⟩
      next =>
        cases h
        exact ⟨IsTypeSet.any, isName_of_parseIdentifier hfirst⟩

/-- Every function type that the parser returns has the shape. -/
theorem accepted_of_parse {s : Text} {ft : FunctionType}
    (h : parseFunctionTypeString s = .ok ft) : Accepted ft := by
  have hnull : IsTypeSet RT_NULL :=
    IsTypeSet.of_mem (d := ⟨"null".toList, ["nil".toList, "none".toList], RT_NULL⟩)
      (by simp [rawTypeDecls])
  simp only [parseFunctionTypeString] at h
  split at h
  next => cases h
  next =>
    split at h
    next => cases h
    next mask name p hobject =>
      obtain ⟨hmask, hname⟩ := parseObject_ok hobject
      split at h
      next => cases h
      next p' res hargs =>
        have hres : Accepted res := by
          rw [parseArgs] at hargs
          split at hargs
          next => cases hargs
          next =>
            split at hargs
            next => cases hargs
            next q st hloop =>
              split at hargs
              · cases hargs
              · split at hargs
                · cases hargs
                · cases hargs
                  refine (LoopInv.loop ?_ hloop).res
                  -- no argument has been read
                  exact ⟨⟨⟨name, rfl, hname⟩, hnull, hmask, rfl, rfl,
                    fun _ h => absurd h List.not_mem_nil, fun _ h => absurd h List.not_mem_nil,
                    fun _ h => absurd h List.not_mem_nil, .inl rfl, Nat.le_refl _,
                    fun _ h => absurd h (Nat.not_lt_zero _)⟩, rfl,
                    fun _ _ h => absurd h (Nat.not_lt_zero _)⟩
        simp only [parseReturn] at h
        split at h
        next => cases h
        next returnMask q htyped =>
          have hreturn : IsTypeSet returnMask := by
            split at htyped
            · exact parseTypeMaskAt_isTypeSet htyped
            · cases htyped
              exact hnull
          split at h
          · cases h
          · cases h
            exact { hres with returnType := hreturn }

end Quirrel.TypeDecl
