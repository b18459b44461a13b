import Mathlib.Data.List.GetD
import Quirrel.TypeDecl.Accepted
import Quirrel.TypeDecl.Printer

/-!
# The printed declaration is read back

The parser goes over the printed text part by part. Arguments are read one after the other: the
state in front of an argument holds the arguments before it, and each argument leads to the next
state.
-/

set_option autoImplicit false

namespace Quirrel.TypeDecl

/-! ## Types and default values of arguments -/

theorem typeText_ends {omitted m : Mask} {rest : Text} (h : EndsName rest) :
    EndsName (typeText omitted m ++ rest) := by
  rw [typeText]
  split
  · exact h
  · exact EndsName.cons (by decide) _

/-- What follows the type of an argument: the default value, or the end of the argument. -/
theorem defaultText_after (d : Option Text) {c : Char} (hc : EndsDefault c) (rest : Text) :
    EndsName (defaultText d ++ c :: rest)
      ∧ ((skipSpaces (defaultText d ++ c :: rest)).head? = some '='
        ∨ skipSpaces (defaultText d ++ c :: rest) = c :: rest ∧ d = none) := by
  cases d with
  | none =>
    refine ⟨EndsName.cons ?_ rest, .inr ⟨skipSpaces_cons hc.not_space rest, rfl⟩⟩
    rcases hc with rfl | rfl | rfl <;> rfl
  | some t => exact ⟨EndsName.cons (by decide) _, .inl rfl⟩

theorem endsMask_after (d : Option Text) {c : Char} (hc : EndsDefault c) (rest : Text) :
    EndsMask (defaultText d ++ c :: rest) := by
  obtain ⟨hname, hnext⟩ := defaultText_after d hc rest
  refine ⟨hname, ?_⟩
  rcases hnext with heq | ⟨heq, _⟩
  · rw [heq]
    decide
  · rw [heq]
    rcases hc with rfl | rfl | rfl <;> simp

/-- The printed type of a result is parsed. -/
theorem typeMask_colon (s : Text) {m : Mask} (hm : IsTypeSet m) {rest : Text}
    (hrest : EndsMask rest) :
    parseTypeMaskAt s (skipSpaces (' ' :: (appendTypeMask m ++ rest)))
      = .ok (m, skipSpaces rest) := by
  have hskip : skipSpaces (' ' :: (appendTypeMask m ++ rest)) = appendTypeMask m ++ rest := by
    rw [skipSpaces_space rfl]
    apply skipSpaces_of_head
    intro c hc
    obtain ⟨d, hd, hstart⟩ := appendTypeMask_head hm rest
    rw [hd] at hc
    cases hc
    exact isSpace_of_start hstart
  rw [hskip, parseTypeMaskAt_eq, parseTypeMask_append hm hrest]

/-- The printed type of an argument is parsed. -/
theorem parseArgType_text (s : Text) {m : Mask} (hm : IsTypeSet m) (d : Option Text) {c : Char}
    (hc : EndsDefault c) (rest : Text) :
    parseArgType s (skipSpaces (typeText anyMask m ++ (defaultText d ++ c :: rest)))
      = .ok (m, skipSpaces (defaultText d ++ c :: rest)) := by
  rw [typeText]
  split
  next hany =>
    -- no type is written, and the next character ends the name
    obtain ⟨_, hnext⟩ := defaultText_after d hc rest
    rw [List.nil_append, parseArgType]
    rcases hnext with heq | ⟨heq, _⟩
    · rw [heq]
      simp [hany]
    · rw [heq]
      rcases hc with rfl | rfl | rfl <;> simp [hany]
  next =>
    have hcolon : skipSpaces (": ".toList ++ appendTypeMask m ++ (defaultText d ++ c :: rest))
        = ':' :: ' ' :: (appendTypeMask m ++ (defaultText d ++ c :: rest)) := by
      rw [List.append_assoc]
      rfl
    rw [hcolon, parseArgType, List.head?_cons, if_pos rfl, List.tail_cons]
    exact typeMask_colon s hm (endsMask_after d hc rest)

/-- The printed default value is parsed. -/
theorem parseDefault_text (s : Text) {st : ArgState} {d : Option Text} (hst : st.insideString = false)
    (hd : ∀ t, d = some t → IsDefault t)
    (hlast : d = none → st.insideOptional = false →
      st.res.defaultValues.getLast?.join.isSome = false)
    {c : Char} (hc : EndsDefault c) (rest : Text) :
    parseDefault s (skipSpaces (defaultText d ++ c :: rest)) st = .ok (d, false, c :: rest) := by
  cases d with
  | none =>
    have hne : c ≠ '=' := by rcases hc with rfl | rfl | rfl <;> decide
    rw [defaultText, List.nil_append, skipSpaces_cons hc.not_space, parseDefault, List.head?_cons,
      if_neg (fun h => hne (Option.some.inj h)), if_neg ?_, hst]
    rintro ⟨hout, hsome⟩
    rw [hlast rfl hout] at hsome
    cases hsome
  | some t =>
    obtain ⟨hne, hskip, hscan⟩ := hd t rfl
    have htext : skipSpaces (defaultText (some t) ++ c :: rest) = '=' :: ' ' :: (t ++ c :: rest) :=
      rfl
    have hstart : skipSpaces (' ' :: (t ++ c :: rest)) = t ++ c :: rest := by
      rw [skipSpaces_space rfl, hskip]
    have hdist : dist (t ++ c :: rest) (c :: rest) = t.length := by
      rw [dist, List.length_append, Nat.add_sub_cancel]
    have hlen : t.length ≠ 0 := fun h => hne (List.length_eq_zero_iff.mp h)
    rw [htext, parseDefault, List.head?_cons, if_pos rfl, List.tail_cons, parseDefaultText, hst]
    simp only [hstart, hscan s c rest hc, hdist]
    rw [if_neg (by simp), if_neg (by simp), if_neg hlen, List.take_left]

/-! ## One argument -/

/-- The function type with the first `i` arguments, before the ellipsis and the return type. -/
def FunctionType.upTo (ft : FunctionType) (i : Nat) : FunctionType :=
  { ft with
    returnTypeMask := RT_NULL
    argNames := ft.argNames.take i
    argTypeMask := ft.argTypeMask.take i
    defaultValues := ft.defaultValues.take i
    requiredArgs := min i ft.requiredArgs
    ellipsisArgTypeMask := 0 }

/-- The state of the loop in front of the argument `i`. -/
def loopState (ft : FunctionType) (i : Nat) (processed : Bool) : ArgState :=
  ⟨ft.upTo i, false, decide (ft.requiredArgs < i), false, processed⟩

section Arguments

variable {ft : FunctionType}

/-- Every argument has a name. -/
theorem Accepted.name_at (h : Accepted ft) {i : Nat} (hi : i < ft.argNames.length) :
    IsName (ft.argNames.getD i []) := by
  rw [List.getD_eq_getElem _ _ hi]
  exact h.names _ (List.getElem_mem hi)

/-- Every argument has a set of types. -/
theorem Accepted.type_at (h : Accepted ft) {i : Nat} (hi : i < ft.argNames.length) :
    IsTypeSet (ft.argTypeMask.getD i 0) := by
  have hlt : i < ft.argTypeMask.length := by rw [h.types_length]; exact hi
  rw [List.getD_eq_getElem _ _ hlt]
  exact h.types _ (List.getElem_mem hlt)

theorem Accepted.default_at (h : Accepted ft) {i : Nat} (hi : i < ft.argNames.length) (t : Text)
    (ht : ft.defaultValues.getD i none = some t) : IsDefault t := by
  have hlt : i < ft.defaultValues.length := by rw [h.defaults_length]; exact hi
  rw [List.getD_eq_getElem _ _ hlt] at ht
  exact h.defaults t (by rw [← ht]; exact List.getElem_mem hlt)

/-- A required argument has no default value. -/
theorem Accepted.default_of_required (h : Accepted ft) {i : Nat} (hi : i < ft.requiredArgs) :
    ft.defaultValues.getD i none = none := by
  rw [List.getD_eq_getElem?_getD, h.required i hi]
  rfl

/-- No required argument in front of a required one has a default value. -/
theorem Accepted.last_default (h : Accepted ft) {i : Nat} (hi : i ≤ ft.requiredArgs) :
    (ft.upTo i).defaultValues.getLast?.join.isSome = false := by
  cases i with
  | zero => rfl
  | succ i =>
    have hreq := h.required i hi
    have hlt : i < ft.defaultValues.length := by
      have := h.required_le
      rw [h.defaults_length]
      omega
    have hlast : (ft.upTo (i + 1)).defaultValues.getLast? = some none := by
      have hlen : (ft.defaultValues.take (i + 1)).length = i + 1 := by
        rw [List.length_take, Nat.min_eq_left hlt]
      rw [FunctionType.upTo, List.getLast?_eq_getElem?, hlen, Nat.add_sub_cancel,
        List.getElem?_take_of_lt (Nat.lt_succ_self i), hreq]
    rw [hlast]
    rfl

theorem take_succ_getD {α : Type} {l : List α} {i : Nat} (hi : i < l.length) (a : α) :
    l.take i ++ [l.getD i a] = l.take (i + 1) := by
  rw [List.getD_eq_getElem _ _ hi, List.take_append_getElem hi]

/-- Pushing the argument `i` gives the first `i + 1` arguments. -/
theorem Accepted.upTo_succ (h : Accepted ft) {i : Nat} (hi : i < ft.argNames.length) :
    (ft.upTo i).pushArg (ft.argNames.getD i []) (ft.argTypeMask.getD i 0)
        (ft.defaultValues.getD i none) (decide (ft.requiredArgs ≤ i))
      = ft.upTo (i + 1) := by
  have htypes : i < ft.argTypeMask.length := by rw [h.types_length]; exact hi
  have hdefaults : i < ft.defaultValues.length := by rw [h.defaults_length]; exact hi
  simp only [FunctionType.pushArg, FunctionType.upTo, take_succ_getD hi, take_succ_getD htypes,
    take_succ_getD hdefaults, FunctionType.mk.injEq, true_and, and_true]
  split
  next hreq =>
    have hlt : i < ft.requiredArgs := by simpa using hreq.1
    omega
  next hopt =>
    have hge : ft.requiredArgs ≤ i := by
      rcases Nat.lt_or_ge i ft.requiredArgs with hlt | hge
      · refine absurd ⟨?_, h.default_of_required hlt⟩ hopt
        simpa using hlt
      · exact hge
    omega

/-- The position behind an argument: a comma is skipped. -/
def afterComma (p : Text) : Text := if p.head? = some ',' then skipSpaces p.tail else p

/-- A printed argument is parsed. -/
theorem parseArgument_text (s : Text) (h : Accepted ft) {i : Nat} (hi : i < ft.argNames.length)
    {processed : Bool} {c : Char} (hc : EndsDefault c) (rest : Text) :
    parseArgument s (argText ft i ++ c :: rest)
        ⟨ft.upTo i, false, decide (ft.requiredArgs ≤ i), false, processed⟩
      = .ok (afterComma (c :: rest), loopState ft (i + 1) true) := by
  have hname := h.name_at hi
  have htext : argText ft i ++ c :: rest
      = ft.argNames.getD i [] ++ (typeText anyMask (ft.argTypeMask.getD i 0)
        ++ (defaultText (ft.defaultValues.getD i none) ++ c :: rest)) := by
    simp [argText]
  have hends : EndsName (typeText anyMask (ft.argTypeMask.getD i 0)
      ++ (defaultText (ft.defaultValues.getD i none) ++ c :: rest)) :=
    typeText_ends (defaultText_after (ft.defaultValues.getD i none) hc rest).1
  have hident := parseIdentifier_append hname hends
  have hlast : ft.defaultValues.getD i none = none → decide (ft.requiredArgs ≤ i) = false →
      (ft.upTo i).defaultValues.getLast?.join.isSome = false := by
    intro _ hout
    apply h.last_default
    have hlt : i < ft.requiredArgs := by simpa using hout
    exact Nat.le_of_lt hlt
  have hdefault : parseDefault s
      (skipSpaces (defaultText (ft.defaultValues.getD i none) ++ c :: rest))
      ⟨ft.upTo i, false, decide (ft.requiredArgs ≤ i), false, processed⟩
        = .ok (ft.defaultValues.getD i none, false, c :: rest) :=
    parseDefault_text s rfl (h.default_at hi) hlast hc rest
  simp only [parseArgument, Bool.false_eq_true, if_false, htext, hident,
    parseArgType_text s (h.type_at hi) _ hc rest, hdefault, h.upTo_succ hi,
    skipSpaces_cons hc.not_space, List.head?_cons, List.tail_cons]
  have hstate : loopState ft (i + 1) true
      = ⟨ft.upTo (i + 1), false, decide (ft.requiredArgs ≤ i), false, true⟩ := by
    have hiff : ft.requiredArgs < i + 1 ↔ ft.requiredArgs ≤ i := Nat.lt_succ_iff
    rw [loopState, decide_eq_decide.mpr hiff]
  rw [hstate, afterComma, List.head?_cons, List.tail_cons]
  rcases hc with rfl | rfl | rfl
  · rfl
  · rfl
  · rfl

/-! ## The loop over the arguments -/

/-- One turn of the loop over arguments. -/
theorem argLoop_turn {s p q : Text} {st st' : ArgState} (hp : p.head? ≠ some ')')
    (h : argTurn s p st = .ok (q, st')) : argLoop s p st = argLoop s q st' := by
  rw [argLoop, if_neg hp]
  split
  next e herror =>
    rw [h] at herror
    cases herror
  next q' st'' hok =>
    rw [h] at hok
    cases hok
    rfl

/-- The text of an argument begins with the first character of a name. -/
theorem Accepted.argText_head (h : Accepted ft) {i : Nat} (hi : i < ft.argNames.length)
    (rest : Text) :
    ∃ c, (argText ft i ++ rest).head? = some c ∧ isIdentStart c = true := by
  obtain ⟨c, hc, hstart⟩ := (h.name_at hi).head (typeText anyMask (ft.argTypeMask.getD i 0)
    ++ defaultText (ft.defaultValues.getD i none) ++ rest)
  refine ⟨c, ?_, hstart⟩
  rw [← hc]
  simp [argText]

theorem ne_of_start {c d : Char} (h : isIdentStart c = true) (hd : isIdentStart d = false) :
    c ≠ d := by
  rintro rfl
  rw [h] at hd
  cases hd

/-- A turn in front of a name reads an argument. -/
theorem argTurn_argument (s : Text) {p : Text} {c : Char} (hc : p.head? = some c)
    (hstart : isIdentStart c = true) (st : ArgState) : argTurn s p st = parseArgument s p st := by
  have hskip : skipSpaces p = p := by
    apply skipSpaces_of_head
    intro d hd
    rw [hc] at hd
    cases hd
    exact isSpace_of_start hstart
  have hne : p ≠ [] := by
    rintro rfl
    cases hc
  have hdots : ¬ ("...".toList.isPrefixOf p) = true := by
    intro hpre
    obtain ⟨rest, rfl⟩ := List.isPrefixOf_iff_prefix.mp hpre
    cases hc
    exact absurd hstart (by decide)
  have hhead : ∀ d, isIdentStart d = false → p.head? ≠ some d := by
    intro d hd heq
    rw [hc] at heq
    exact ne_of_start hstart hd (Option.some.inj heq)
  simp only [argTurn, hskip]
  rw [if_neg hne, if_neg (hhead _ (by decide)), if_neg (hhead _ (by decide)),
    if_neg (hhead _ (by decide)), if_neg hdots]

/-- The bracket in front of the argument `i`. -/
def bracketText (ft : FunctionType) (i : Nat) : Text :=
  if i = ft.requiredArgs then "[".toList else []

/-- The loop goes over one argument and the bracket in front of it. -/
theorem argLoop_argument (s : Text) (h : Accepted ft) {i : Nat} (hi : i < ft.argNames.length)
    (processed : Bool) {c : Char} (hc : EndsDefault c) (rest : Text) :
    argLoop s (bracketText ft i ++ (argText ft i ++ c :: rest)) (loopState ft i processed)
      = argLoop s (afterComma (c :: rest)) (loopState ft (i + 1) true) := by
  obtain ⟨d, hd, hstart⟩ := h.argText_head hi (c :: rest)
  have hparen : (argText ft i ++ c :: rest).head? ≠ some ')' := by
    rw [hd]
    exact fun heq => ne_of_start hstart (by decide) (Option.some.inj heq)
  have hturn : argTurn s (argText ft i ++ c :: rest)
      ⟨ft.upTo i, false, decide (ft.requiredArgs ≤ i), false, processed⟩
      = .ok (afterComma (c :: rest), loopState ft (i + 1) true) := by
    rw [argTurn_argument s hd hstart]
    exact parseArgument_text s h hi hc rest
  rw [← argLoop_turn hparen hturn, bracketText]
  split
  next heq =>
    -- the first optional argument: the bracket is a turn of its own
    have hskip : skipSpaces (argText ft i ++ c :: rest) = argText ft i ++ c :: rest := by
      apply skipSpaces_of_head
      intro e he
      rw [hd] at he
      cases he
      exact isSpace_of_start hstart
    apply argLoop_turn (by simp)
    have hopen : argTurn s ('[' :: (argText ft i ++ c :: rest)) (loopState ft i processed)
        = openOptional s ('[' :: (argText ft i ++ c :: rest)) (loopState ft i processed) := rfl
    have hin : ¬ (loopState ft i processed).insideOptional = true := by
      simp [loopState, heq]
    have hstate : ({ loopState ft i processed with insideOptional := true } : ArgState)
        = ⟨ft.upTo i, false, decide (ft.requiredArgs ≤ i), false, processed⟩ := by
      simp [loopState, heq]
    refine hopen.trans ?_
    rw [openOptional, if_neg hin, if_neg (by simp [loopState]), List.tail_cons, hskip, hstate]
  next hne =>
    have hstate : loopState ft i processed
        = ⟨ft.upTo i, false, decide (ft.requiredArgs ≤ i), false, processed⟩ := by
      have hiff : ft.requiredArgs < i ↔ ft.requiredArgs ≤ i := by omega
      simp [loopState, hiff]
    rw [hstate]
    rfl

/-- There is no space in front of an argument. -/
theorem Accepted.skip_argText (h : Accepted ft) {i : Nat} (hi : i < ft.argNames.length)
    (rest : Text) :
    skipSpaces (bracketText ft i ++ (argText ft i ++ rest))
      = bracketText ft i ++ (argText ft i ++ rest) := by
  rw [bracketText]
  split
  · exact skipSpaces_cons (c := '[') rfl _
  · apply skipSpaces_of_head
    intro c hc
    obtain ⟨d, hd, hstart⟩ := h.argText_head hi rest
    rw [List.nil_append, hd] at hc
    cases hc
    exact isSpace_of_start hstart

/-- The text of the arguments from `i` on. -/
def laterArgs (ft : FunctionType) (i : Nat) : Text :=
  (List.range' i (ft.argNames.length - i)).flatMap (argPiece ft)

theorem laterArgs_of_ge {i : Nat} (hi : ft.argNames.length ≤ i) : laterArgs ft i = [] := by
  rw [laterArgs, Nat.sub_eq_zero_of_le hi]
  rfl

theorem laterArgs_of_lt {i : Nat} (hi : i < ft.argNames.length) :
    laterArgs ft i = argPiece ft i ++ laterArgs ft (i + 1) := by
  have hlen : ft.argNames.length - i = ft.argNames.length - (i + 1) + 1 := by omega
  rw [laterArgs, hlen, List.range'_succ, List.flatMap_cons]
  rfl

theorem argPiece_succ (ft : FunctionType) (i : Nat) (rest : Text) :
    argPiece ft (i + 1) ++ rest
      = ',' :: ' ' :: (bracketText ft (i + 1) ++ (argText ft (i + 1) ++ rest)) := by
  simp [argPiece, bracketText]

/-- The loop goes over all the arguments from `i` on. -/
theorem argLoop_arguments (s : Text) (h : Accepted ft) {c : Char} (hc : EndsDefault c)
    (rest : Text) (k : Nat) :
    ∀ (i : Nat) (processed : Bool), i + 1 + k = ft.argNames.length →
      argLoop s (bracketText ft i ++ (argText ft i ++ (laterArgs ft (i + 1) ++ c :: rest)))
          (loopState ft i processed)
        = argLoop s (afterComma (c :: rest)) (loopState ft ft.argNames.length true) := by
  induction k with
  | zero =>
    intro i processed hi
    rw [laterArgs_of_ge (by omega), List.nil_append,
      argLoop_argument s h (by omega) processed hc rest]
    rw [Nat.add_zero] at hi
    rw [hi]
  | succ k ih =>
    intro i processed hi
    have hnext : i + 1 < ft.argNames.length := by omega
    rw [laterArgs_of_lt hnext, List.append_assoc, argPiece_succ,
      argLoop_argument s h (by omega) processed (.inl rfl)]
    have hskip : afterComma (',' :: ' ' :: (bracketText ft (i + 1)
          ++ (argText ft (i + 1) ++ (laterArgs ft (i + 1 + 1) ++ c :: rest))))
        = bracketText ft (i + 1)
          ++ (argText ft (i + 1) ++ (laterArgs ft (i + 1 + 1) ++ c :: rest)) := by
      rw [afterComma, List.head?_cons, if_pos rfl, List.tail_cons, skipSpaces_space rfl,
        h.skip_argText hnext]
    rw [hskip]
    exact ih (i + 1) true (by omega)

/-! ## The end of the arguments -/

/-- The ellipsis without the comma in front of it. -/
def dotsText (ft : FunctionType) : Text :=
  if ft.ellipsisArgTypeMask = 0 then []
  else "...".toList ++ typeText anyMask ft.ellipsisArgTypeMask

/-- A state of the loop with all the arguments and no open block. -/
structure AtEnd (ft : FunctionType) (st : ArgState) : Prop where
  res : st.res = ft.upTo ft.argNames.length
  noString : st.insideString = false
  closed : st.insideOptional = false

/-- The result of the loop over the arguments. -/
def LoopEnd (ft : FunctionType) (s p rest : Text) (st : ArgState) : Prop :=
  ∃ st', argLoop s p st = .ok (')' :: rest, st')
    ∧ st'.res = { ft with returnTypeMask := RT_NULL }
    ∧ st'.insideString = false ∧ st'.insideOptional = false

/-- All the arguments and the ellipsis make up the whole list. -/
theorem Accepted.upTo_length (h : Accepted ft) :
    { ft.upTo ft.argNames.length with ellipsisArgTypeMask := ft.ellipsisArgTypeMask }
      = { ft with returnTypeMask := RT_NULL } := by
  have htypes : ft.argTypeMask.take ft.argNames.length = ft.argTypeMask := by
    rw [← h.types_length, List.take_length]
  have hdefaults : ft.defaultValues.take ft.argNames.length = ft.defaultValues := by
    rw [← h.defaults_length, List.take_length]
  simp only [FunctionType.upTo, List.take_length, htypes, hdefaults,
    Nat.min_eq_right h.required_le]

/-- The loop ends where it does after one turn. -/
theorem LoopEnd.turn {s p q rest : Text} {st st' : ArgState} (hp : p.head? ≠ some ')')
    (hturn : argTurn s p st = .ok (q, st')) (h : LoopEnd ft s q rest st') :
    LoopEnd ft s p rest st := by
  obtain ⟨st'', hloop, hend⟩ := h
  exact ⟨st'', (argLoop_turn hp hturn).trans hloop, hend⟩

/-- The loop ends behind the dots. -/
theorem argLoop_dots (s : Text) (h : Accepted ft) {st : ArgState} (hst : AtEnd ft st)
    (rest : Text) : LoopEnd ft s (dotsText ft ++ ')' :: rest) rest st := by
  rw [dotsText]
  split
  next hzero =>
    refine ⟨st, ?_, ?_, hst.noString, hst.closed⟩
    · rw [List.nil_append, argLoop, List.head?_cons, if_pos rfl]
    · rw [hst.res, ← h.upTo_length, hzero]
      rfl
  next hne =>
    have hset : IsTypeSet ft.ellipsisArgTypeMask := h.ellipsis.resolve_left hne
    have hends : EndsMask (')' :: rest) :=
      ⟨EndsName.cons (by decide) rest, by rw [skipSpaces_cons (by decide)]; simp⟩
    have hparen : skipSpaces (')' :: rest) = ')' :: rest := skipSpaces_cons (by decide) rest
    let st' : ArgState :=
      { st with
        res := { st.res with ellipsisArgTypeMask := ft.ellipsisArgTypeMask }
        argumentProcessed := true }
    have hres : st'.res = { ft with returnTypeMask := RT_NULL } := by
      rw [← h.upTo_length, ← hst.res]
    have hturn : argTurn s ("...".toList ++ typeText anyMask ft.ellipsisArgTypeMask
        ++ ')' :: rest) st = .ok (')' :: rest, st') := by
      have hdots : argTurn s ("...".toList ++ typeText anyMask ft.ellipsisArgTypeMask
          ++ ')' :: rest) st
          = parseEllipsis s ("...".toList ++ (typeText anyMask ft.ellipsisArgTypeMask
            ++ ')' :: rest)) st := by
        rw [List.append_assoc]
        rfl
      have hfirst : ¬ st.res.ellipsisArgTypeMask ≠ 0 := by
        rw [hst.res]
        exact fun hzero => hzero rfl
      have hdrop : ("...".toList ++ (typeText anyMask ft.ellipsisArgTypeMask
          ++ ')' :: rest)).drop 3 = typeText anyMask ft.ellipsisArgTypeMask ++ ')' :: rest := rfl
      rw [hdots, parseEllipsis, if_neg hfirst, hdrop]
      by_cases hany : ft.ellipsisArgTypeMask = anyMask
      · have htype : typeText anyMask ft.ellipsisArgTypeMask = [] := by
          rw [typeText, if_pos hany]
        rw [htype, List.nil_append]
        simp [hparen, st', hany]
      · have htype : skipSpaces (typeText anyMask ft.ellipsisArgTypeMask ++ ')' :: rest)
            = ':' :: ' ' :: (appendTypeMask ft.ellipsisArgTypeMask ++ ')' :: rest) := by
          rw [typeText, if_neg hany, List.append_assoc]
          rfl
        have hmask := typeMask_colon s hset hends
        simp only [htype, List.head?_cons, if_true, List.tail_cons, hmask, hparen]
        simp [st']
    refine LoopEnd.turn (by simp) hturn ⟨st', ?_, hres, hst.noString, hst.closed⟩
    rw [argLoop, List.head?_cons, if_pos rfl]

theorem skip_dotsText (ft : FunctionType) (rest : Text) :
    skipSpaces (dotsText ft ++ ')' :: rest) = dotsText ft ++ ')' :: rest := by
  rw [dotsText]
  split
  · exact skipSpaces_cons (by decide) rest
  · rfl

/-- Behind at least one argument the ellipsis comes after a comma. -/
theorem ellipsisText_of_pos (hpos : 0 < ft.argNames.length) (rest : Text) :
    ellipsisText ft ++ ')' :: rest
      = if ft.ellipsisArgTypeMask = 0 then dotsText ft ++ ')' :: rest
        else ',' :: ' ' :: (dotsText ft ++ ')' :: rest) := by
  rw [ellipsisText, dotsText]
  split
  next => rfl
  next hne => simp

/-- Behind the optional block the comma is a turn of its own. -/
theorem argLoop_ellipsis (s : Text) (h : Accepted ft) (hpos : 0 < ft.argNames.length)
    {st : ArgState} (hst : AtEnd ft st) (hprocessed : st.argumentProcessed = true) (rest : Text) :
    LoopEnd ft s (ellipsisText ft ++ ')' :: rest) rest st := by
  rw [ellipsisText_of_pos hpos]
  split
  · exact argLoop_dots s h hst rest
  · have hturn : argTurn s (',' :: ' ' :: (dotsText ft ++ ')' :: rest)) st
        = .ok (dotsText ft ++ ')' :: rest, { st with argumentProcessed := false }) := by
      have hcomma : argTurn s (',' :: ' ' :: (dotsText ft ++ ')' :: rest)) st
          = parseComma s (',' :: ' ' :: (dotsText ft ++ ')' :: rest)) st := rfl
      rw [hcomma, parseComma, if_neg (by simp [hprocessed]), List.tail_cons, skipSpaces_space rfl,
        skip_dotsText]
    have hend : AtEnd ft { st with argumentProcessed := false } :=
      ⟨hst.res, hst.noString, hst.closed⟩
    exact LoopEnd.turn (by simp) hturn (argLoop_dots s h hend rest)

/-- The text behind the last argument. -/
def closingText (ft : FunctionType) (rest : Text) : Text :=
  (if ft.requiredArgs < ft.argNames.length then [']'] else [])
    ++ (ellipsisText ft ++ ')' :: rest)

/-- The last argument ends where the closing text begins, and the loop goes over that text. -/
theorem argLoop_closing (s : Text) (h : Accepted ft) (hpos : 0 < ft.argNames.length)
    (rest : Text) :
    ∃ c tail, closingText ft rest = c :: tail ∧ EndsDefault c
      ∧ LoopEnd ft s (afterComma (c :: tail)) rest (loopState ft ft.argNames.length true) := by
  rw [closingText]
  -- a block of optional arguments is closed first
  split
  next hlt =>
    refine ⟨']', ellipsisText ft ++ ')' :: rest, rfl, .inr (.inr rfl), ?_⟩
    have hclose : argTurn s (']' :: (ellipsisText ft ++ ')' :: rest))
        (loopState ft ft.argNames.length true)
        = .ok (ellipsisText ft ++ ')' :: rest,
            { loopState ft ft.argNames.length true with
              insideOptional := false, optionalBlockFinished := true }) := by
      have hstep : argTurn s (']' :: (ellipsisText ft ++ ')' :: rest))
          (loopState ft ft.argNames.length true)
          = closeOptional s (']' :: (ellipsisText ft ++ ')' :: rest))
            (loopState ft ft.argNames.length true) := rfl
      have hskip : skipSpaces (ellipsisText ft ++ ')' :: rest) = ellipsisText ft ++ ')' :: rest := by
        rw [ellipsisText_of_pos hpos]
        split
        · exact skip_dotsText ft rest
        · exact skipSpaces_cons (c := ',') rfl _
      rw [hstep, closeOptional, if_neg (by simp [loopState, hlt]), List.tail_cons, hskip]
    have hafter : afterComma (']' :: (ellipsisText ft ++ ')' :: rest))
        = ']' :: (ellipsisText ft ++ ')' :: rest) := rfl
    rw [hafter]
    exact LoopEnd.turn (by simp) hclose
      (argLoop_ellipsis s h hpos ⟨rfl, rfl, rfl⟩ rfl rest)
  next hge =>
    have hend : AtEnd ft (loopState ft ft.argNames.length true) :=
      ⟨rfl, rfl, by simp [loopState, hge]⟩
    rw [List.nil_append, ellipsisText_of_pos hpos]
    split
    next hzero =>
      have hdots : dotsText ft = [] := by rw [dotsText, if_pos hzero]
      have hloop := argLoop_dots s h hend rest
      rw [hdots] at hloop ⊢
      exact ⟨')', rest, rfl, .inr (.inl rfl), hloop⟩
    next =>
      refine ⟨',', _, rfl, .inl rfl, ?_⟩
      rw [afterComma, List.head?_cons, if_pos rfl, List.tail_cons, skipSpaces_space rfl,
        skip_dotsText]
      exact argLoop_dots s h hend rest

theorem argsText_eq (ft : FunctionType) : argsText ft = laterArgs ft 0 := by
  rw [argsText, laterArgs, List.range_eq_range', Nat.sub_zero]

/-- The printed arguments are read back. -/
theorem parseArgs_text (s : Text) (h : Accepted ft) (rest : Text)
    (hrest : skipSpaces rest = rest) :
    parseArgs s ('(' :: (argsText ft ++ closingText ft rest)) (ft.upTo 0)
      = .ok (rest, { ft with returnTypeMask := RT_NULL }) := by
  have hloop : LoopEnd ft s (skipSpaces (argsText ft ++ closingText ft rest)) rest
      (loopState ft 0 false) := by
    rw [argsText_eq]
    rcases Nat.eq_zero_or_pos ft.argNames.length with hzero | hpos
    · -- without arguments only the ellipsis is left
      have hreq := h.required_le
      have htext : laterArgs ft 0 ++ closingText ft rest = dotsText ft ++ ')' :: rest := by
        rw [laterArgs_of_ge (by omega), closingText, if_neg (by omega), ellipsisText, dotsText]
        simp [hzero]
      rw [htext, skip_dotsText]
      apply argLoop_dots s h
      refine ⟨?_, rfl, ?_⟩
      · rw [hzero]
        rfl
      · simp [loopState]
    · obtain ⟨c, tail, htext, hc, hend⟩ := argLoop_closing s h hpos rest
      have hfirst : laterArgs ft 0 ++ closingText ft rest
          = bracketText ft 0 ++ (argText ft 0 ++ (laterArgs ft (0 + 1) ++ c :: tail)) := by
        rw [laterArgs_of_lt hpos, htext]
        simp [argPiece, bracketText]
      rw [hfirst, h.skip_argText hpos]
      obtain ⟨st', hrun, hst'⟩ := hend
      refine ⟨st', ?_, hst'⟩
      rw [argLoop_arguments s h hc tail (ft.argNames.length - 1) 0 false (by omega)]
      exact hrun
  obtain ⟨st', hrun, hres, hstring, hopt⟩ := hloop
  have hstart : (⟨ft.upTo 0, false, false, false, false⟩ : ArgState) = loopState ft 0 false := by
    simp [loopState]
  rw [parseArgs, List.head?_cons, if_neg (by simp), List.tail_cons, hstart, hrun]
  simp [hstring, hopt, hres, hrest]

end Arguments

/-! ## Flags, object type and name -/

/-- A text that begins with another word than the flag is not taken for the flag. -/
theorem not_flag {w n rest : Text} {c : Char} (hw : IsName w) (hn : IsName n)
    (hc : isIdentChar c = false) (hspace : c ≠ ' ') :
    ¬ ((w ++ [' ']).isPrefixOf (n ++ c :: rest)) = true := by
  intro hpre
  obtain ⟨rest', heq⟩ := List.isPrefixOf_iff_prefix.mp hpre
  have hleft := parseIdentifier_append hw (EndsName.cons (c := ' ') (by decide) rest')
  have hright := parseIdentifier_append hn (EndsName.cons hc rest)
  rw [← heq, List.append_assoc, List.singleton_append, hleft] at hright
  cases hright
  exact hspace rfl

/-- The text of the object type and the name does not begin with a flag. -/
theorem parseFlags_stop {p : Text}
    (h : (∃ rest, p = '(' :: rest)
      ∨ ∃ n c rest, p = n ++ c :: rest ∧ IsName n ∧ isIdentChar c = false ∧ c ≠ ' ')
    (pureFlag nodiscard : Bool) : parseFlags p pureFlag nodiscard = (pureFlag, nodiscard, p) := by
  have hpure : ¬ "pure ".toList.isPrefixOf p = true := by
    rcases h with ⟨rest, rfl⟩ | ⟨n, c, rest, rfl, hn, hc, hspace⟩
    · intro hpre
      cases hpre
    · have hname : IsName "pure".toList :=
        ⟨'p', ['u', 'r', 'e'], rfl, by decide, List.all_eq_true.mp (by decide)⟩
      exact not_flag hname hn hc hspace
  have hnodiscard : ¬ "nodiscard ".toList.isPrefixOf p = true := by
    rcases h with ⟨rest, rfl⟩ | ⟨n, c, rest, rfl, hn, hc, hspace⟩
    · intro hpre
      cases hpre
    · have hname : IsName "nodiscard".toList :=
        ⟨'n', ['o', 'd', 'i', 's', 'c', 'a', 'r', 'd'], rfl, by decide,
          List.all_eq_true.mp (by decide)⟩
      exact not_flag hname hn hc hspace
  rw [parseFlags, dif_neg hpure, dif_neg hnodiscard]

/-- The mask of one type is printed as its name. -/
theorem appendTypeMask_decl {d : RawTypeDecl} (hd : d ∈ rawTypeDecls) :
    appendTypeMask d.typeMask = d.name := by
  have hall : ∀ d ∈ rawTypeDecls, appendTypeMask d.typeMask = d.name := by decide
  exact hall d hd

/-- The object type and the name are read back. -/
theorem parseObject_text (s : Text) {m : Mask} (hm : IsTypeSet m) {n : Text} (hn : IsName n)
    (rest : Text) :
    parseObject s (objectText m ++ (n ++ '(' :: rest)) = .ok (m, n, '(' :: rest) := by
  have hname : parseIdentifier (n ++ '(' :: rest) = some (n, '(' :: rest) :=
    parseIdentifier_append hn (EndsName.cons (by decide) rest)
  have hnot : ∀ {w : Text} (tail : Text), IsName w → (w ++ tail).head? ≠ some '(' := by
    intro w tail hw heq
    obtain ⟨c, hc, hstart⟩ := hw.head tail
    rw [hc] at heq
    exact ne_of_start hstart (by decide) (Option.some.inj heq)
  rw [objectText]
  -- any object: no text; several types: in parentheses; one type: its name
  split
  next hany =>
    rw [List.nil_append, parseObject, if_neg (hnot _ hn), parseSimpleObject, hname, hany]
    rfl
  next hne =>
    split
    next hcomplex =>
      have htext : '(' :: appendTypeMask m ++ [')', '.'] ++ (n ++ '(' :: rest)
          = '(' :: (appendTypeMask m ++ ')' :: '.' :: (n ++ '(' :: rest)) := by simp
      have hmask := parseTypeMaskAt_eq (s := s).mpr
        (parseTypeMask_parens hm ('.' :: (n ++ '(' :: rest)))
      have hdot : skipSpaces ('.' :: (n ++ '(' :: rest)) = '.' :: (n ++ '(' :: rest) :=
        skipSpaces_cons (by decide) _
      rw [htext, parseObject, List.head?_cons, if_pos rfl, parseComplexObject, hmask]
      simp only [hdot, List.head?_cons, ne_eq, not_true, if_false, List.tail_cons,
        hn.skipSpaces, hname]
    next hsimple =>
      have hdecl : ∃ d ∈ rawTypeDecls, m = d.typeMask := by
        simpa [isComplexType] using hsimple
      obtain ⟨d, hd, rfl⟩ := hdecl
      have htype := parseTypeMask_append hm ⟨EndsName.nil, by simp⟩
      rw [List.append_nil, appendTypeMask_decl hd] at htype
      have htext : d.name ++ ['.'] ++ (n ++ '(' :: rest) = d.name ++ '.' :: (n ++ '(' :: rest) := by
        simp
      have hfirst := parseIdentifier_append (rawTypeDecls_names hd)
        (EndsName.cons (c := '.') (by decide) (n ++ '(' :: rest))
      rw [appendTypeMask_decl hd, htext, parseObject, if_neg (hnot _ (rawTypeDecls_names hd)),
        parseSimpleObject, hfirst]
      simp only [List.head?_cons, if_true, List.tail_cons, hn.skipSpaces, hname, htype,
        skipSpaces_nil]
      rfl

/-- The object type and the name do not begin with a flag. -/
theorem objectText_stop {m : Mask} (hm : IsTypeSet m) {n : Text} (hn : IsName n) (rest : Text) :
    (∃ tail, objectText m ++ (n ++ '(' :: rest) = '(' :: tail)
      ∨ ∃ w c tail, objectText m ++ (n ++ '(' :: rest) = w ++ c :: tail ∧ IsName w
        ∧ isIdentChar c = false ∧ c ≠ ' ' := by
  rw [objectText]
  split
  · exact .inr ⟨n, '(', rest, rfl, hn, by decide, by decide⟩
  · split
    · exact .inl ⟨_, rfl⟩
    next hsimple =>
      have hdecl : ∃ d ∈ rawTypeDecls, m = d.typeMask := by
        simpa [isComplexType] using hsimple
      obtain ⟨d, hd, rfl⟩ := hdecl
      refine .inr ⟨d.name, '.', n ++ '(' :: rest, ?_, rawTypeDecls_names hd, by decide, by decide⟩
      rw [appendTypeMask_decl hd]
      simp

theorem skip_object {p : Text}
    (h : (∃ rest, p = '(' :: rest)
      ∨ ∃ n c rest, p = n ++ c :: rest ∧ IsName n ∧ isIdentChar c = false ∧ c ≠ ' ') :
    skipSpaces p = p := by
  rcases h with ⟨rest, rfl⟩ | ⟨n, c, rest, rfl, hn, _⟩
  · exact skipSpaces_cons (by decide) rest
  · exact hn.skipSpaces _

/-- The word `pure` is parsed. -/
theorem parseFlags_pure (rest : Text) (pureFlag nodiscard : Bool) :
    parseFlags ("pure ".toList ++ rest) pureFlag nodiscard
      = parseFlags (skipSpaces rest) true nodiscard := by
  rw [parseFlags, dif_pos (List.isPrefixOf_iff_prefix.mpr (List.prefix_append _ _))]
  rfl

/-- The word `nodiscard` is parsed. -/
theorem parseFlags_nodiscard (rest : Text) (pureFlag nodiscard : Bool) :
    parseFlags ("nodiscard ".toList ++ rest) pureFlag nodiscard
      = parseFlags (skipSpaces rest) pureFlag true := by
  have hpure : ¬ "pure ".toList.isPrefixOf ("nodiscard ".toList ++ rest) = true := by
    intro hpre
    cases hpre
  rw [parseFlags, dif_neg hpure,
    dif_pos (List.isPrefixOf_iff_prefix.mpr (List.prefix_append _ _))]
  rfl

/-- The flags are read back. -/
theorem parseFlags_text (ft : FunctionType) {p : Text}
    (h : (∃ rest, p = '(' :: rest)
      ∨ ∃ n c rest, p = n ++ c :: rest ∧ IsName n ∧ isIdentChar c = false ∧ c ≠ ' ') :
    skipSpaces (flagsText ft ++ p) = flagsText ft ++ p
      ∧ parseFlags (flagsText ft ++ p) false false = (ft.pure, ft.nodiscard, p) := by
  have hskip := skip_object h
  have hword : skipSpaces ("nodiscard ".toList ++ p) = "nodiscard ".toList ++ p := rfl
  rw [flagsText]
  cases ft.pure with
  | false =>
    cases ft.nodiscard with
    | false => exact ⟨hskip, parseFlags_stop h false false⟩
    | true =>
      refine ⟨rfl, ?_⟩
      exact (parseFlags_nodiscard p false false).trans (by rw [hskip]; exact parseFlags_stop h _ _)
  | true =>
    cases ft.nodiscard with
    | false =>
      refine ⟨rfl, ?_⟩
      exact (parseFlags_pure p false false).trans (by rw [hskip]; exact parseFlags_stop h _ _)
    | true =>
      refine ⟨rfl, ?_⟩
      have hboth : parseFlags ("pure ".toList ++ ("nodiscard ".toList ++ p)) false false
          = (true, true, p) := by
        rw [parseFlags_pure, hword, parseFlags_nodiscard, hskip]
        exact parseFlags_stop h _ _
      exact hboth

/-! ## The whole declaration -/

/-- The printed result type is parsed. -/
theorem parseReturn_text (s : Text) {m : Mask} (hm : IsTypeSet m) (res : FunctionType) :
    parseReturn s (typeText RT_NULL m) res = .ok { res with returnTypeMask := m } := by
  rw [typeText]
  split
  next hnull => rw [hnull]; rfl
  next =>
    have hmask := typeMask_colon s hm ⟨EndsName.nil, by simp⟩
    rw [List.append_nil] at hmask
    have hcolon : ": ".toList ++ appendTypeMask m = ':' :: ' ' :: appendTypeMask m := rfl
    rw [hcolon, parseReturn, List.head?_cons, if_pos rfl, List.tail_cons, hmask]
    simp

/-- The whole text of an accepted function type is read back. -/
theorem parse_functionTypeText {ft : FunctionType} (h : Accepted ft) {n : Text}
    (hname : ft.functionName = some n) (hn : IsName n) :
    parseFunctionTypeString (functionTypeText ft n) = .ok ft := by
  have htext : functionTypeText ft n = flagsText ft ++ (objectText ft.objectTypeMask ++ (n ++ '('
      :: (argsText ft ++ closingText ft (typeText RT_NULL ft.returnTypeMask)))) := by
    simp [functionTypeText, closingText]
  have hreturn : skipSpaces (typeText RT_NULL ft.returnTypeMask)
      = typeText RT_NULL ft.returnTypeMask := by
    rw [typeText]
    split <;> rfl
  have hstop := objectText_stop h.objectType hn
    (argsText ft ++ closingText ft (typeText RT_NULL ft.returnTypeMask))
  obtain ⟨hskip, hflags⟩ := parseFlags_text ft hstop
  have hne : functionTypeText ft n ≠ [] := by
    rw [htext]
    obtain ⟨c, cs, rfl, _⟩ := hn
    simp
  have hparen : ∀ rest, skipSpaces ('(' :: rest) = '(' :: rest :=
    fun rest => skipSpaces_cons (by decide) rest
  have hstart : startType n ft.objectTypeMask ft.pure ft.nodiscard = ft.upTo 0 := by
    simp [startType, FunctionType.upTo, hname]
  have hobject := parseObject_text (functionTypeText ft n) h.objectType hn
    (argsText ft ++ closingText ft (typeText RT_NULL ft.returnTypeMask))
  have hargs := parseArgs_text (functionTypeText ft n) h _ hreturn
  rw [← htext] at hskip hflags
  rw [parseFunctionTypeString, if_neg hne]
  simp only [hskip, hflags, hobject, hparen, hstart, hargs]
  exact parseReturn_text _ h.returnType { ft with returnTypeMask := RT_NULL }

/-- A function type that the parser returns is read back from its text if the text fits the
buffer. -/
theorem parse_stringify {s : Text} {ft : FunctionType} (h : parseFunctionTypeString s = .ok ft) :
    ∃ n, ft.functionName = some n
      ∧ ((functionTypeText ft n).length < bufferSize →
        ∃ t, stringifyFunctionType ft = some t ∧ parseFunctionTypeString t = .ok ft) := by
  have hft := accepted_of_parse h
  obtain ⟨n, hname, hn⟩ := hft.name
  refine ⟨n, hname, ?_⟩
  intro hfit
  refine ⟨functionTypeText ft n, ?_, parse_functionTypeText hft hname hn⟩
  rw [stringifyFunctionType, hname, Option.map_some,
    List.take_of_length_le (Nat.le_sub_one_of_lt hfit)]

/-- `pure (int|string).at(key: number, [dflt = {x = ","} , n: null|int], ...: any): float|null` -/
def atText : Text :=
  ("pure (int|string).at(key: number, [dflt = \x7bx = \x22,\x22\x7d , n: null|int], ...: any)"
    ++ ": float|null").toList

/-- Its function type. -/
def atType : FunctionType where
  functionName := some "at".toList
  returnTypeMask := RT_FLOAT ||| RT_NULL
  objectTypeMask := RT_INTEGER ||| RT_STRING
  argNames := ["key".toList, "dflt".toList, "n".toList]
  argTypeMask := [RT_FLOAT ||| RT_INTEGER, anyMask, RT_NULL ||| RT_INTEGER]
  defaultValues := [none, some "\x7bx = \x22,\x22\x7d ".toList, none]
  requiredArgs := 1
  ellipsisArgTypeMask := anyMask
  pure := true
  nodiscard := false

theorem atText_type : parseFunctionTypeString atText = .ok atType := by
  have h : (parseFunctionTypeString atText).toOption = some atType := by decide +kernel
  cases hparse : parseFunctionTypeString atText with
  | error e =>
    rw [hparse] at h
    cases h
  | ok ft =>
    rw [hparse] at h
    cases h
    rfl

/-- A type whose default value has braces and quotes in it. -/
theorem parse_stringify_at :
    ∃ t, stringifyFunctionType atType = some t ∧ parseFunctionTypeString t = .ok atType := by
  obtain ⟨n, hname, hround⟩ := parse_stringify atText_type
  cases hname
  exact hround (by decide +kernel)

end Quirrel.TypeDecl
