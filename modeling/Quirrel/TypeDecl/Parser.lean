import Quirrel.TypeDecl.Mask

/-!
# The parser of type declarations

`sq_parse_function_type_string` on a fresh `SQFunctionType`. Each position of an error is counted
from the beginning `s` of the string.
-/

set_option autoImplicit false

namespace Quirrel.TypeDecl

/-- `SQFunctionType` -/
structure FunctionType where
  functionName : Option Text
  returnTypeMask : Mask
  objectTypeMask : Mask
  argNames : List Text
  argTypeMask : List Mask
  /-- null or the text of the default value -/
  defaultValues : List (Option Text)
  requiredArgs : Nat
  /-- 0 without an ellipsis -/
  ellipsisArgTypeMask : Mask
  pure : Bool
  nodiscard : Bool
  deriving Repr, DecidableEq

/-- A failure at the position `p` of the string `s`. -/
def failAt {α : Type} (s p : Text) (text : String) : Except ParseError α :=
  .error ⟨dist s p + 1, text⟩

/-- A type mask at the position `p` of the string `s`. -/
def parseTypeMaskAt (s p : Text) : Except ParseError (Mask × Text) :=
  match parseTypeMask p with
  | .error e => .error ⟨e.pos + (dist s p + 1), e.text⟩
  | .ok r => .ok r

/-! ## Flags, object type and name -/

/-- The flags at the beginning. -/
def parseFlags (p : Text) (pureFlag nodiscard : Bool) : Bool × Bool × Text :=
  if _h : "pure ".toList.isPrefixOf p then
    parseFlags (skipSpaces (p.drop 5)) true nodiscard
  else if _h : "nodiscard ".toList.isPrefixOf p then
    parseFlags (skipSpaces (p.drop 10)) pureFlag true
  else (pureFlag, nodiscard, p)
termination_by p.length
decreasing_by
  · have hlen := (List.isPrefixOf_iff_prefix.mp _h).length_le
    have hskip := skipSpaces_length (p.drop 5)
    rw [List.length_drop] at hskip
    simp only [String.reduceToList, List.length_cons, List.length_nil] at hlen
    omega
  · have hlen := (List.isPrefixOf_iff_prefix.mp _h).length_le
    have hskip := skipSpaces_length (p.drop 10)
    rw [List.length_drop] at hskip
    simp only [String.reduceToList, List.length_cons, List.length_nil] at hlen
    omega

/-- An object type in parentheses, the dot and the name. -/
def parseComplexObject (s p : Text) : Except ParseError (Mask × Text × Text) :=
  match parseTypeMaskAt s p with
  | .error e => .error e
  | .ok (objectTypeMask, q) =>
    let q := skipSpaces q
    if q.head? ≠ some '.' then failAt s q "Expected '.' after object type"
    else
      let q := skipSpaces q.tail
      match parseIdentifier q with
      | none => failAt s q "Expected function name after '.'"
      | some (functionName, r) => .ok (objectTypeMask, functionName, r)

/-- A name, or an object type of one word, the dot and the name. -/
def parseSimpleObject (s p : Text) : Except ParseError (Mask × Text × Text) :=
  match parseIdentifier p with
  | none => failAt s p "Expected function name"
  | some (identifier1, q) =>
    if q.head? = some '.' then
      let q := skipSpaces q.tail
      match parseIdentifier q with
      | none => failAt s q "Expected function name after '.'"
      | some (functionName, r) =>
        match parseTypeMask identifier1 with
        | .error e => .error ⟨dist s p + e.pos, e.text⟩
        | .ok (objectTypeMask, typeStr) =>
          if typeStr ≠ [] then
            .error ⟨dist s p + dist identifier1 typeStr, "Invalid object type"⟩
          else .ok (objectTypeMask, functionName, r)
    else .ok (anyMask, identifier1, q)

/-- The object type, the name and the position behind them. -/
def parseObject (s p : Text) : Except ParseError (Mask × Text × Text) :=
  if p.head? = some '(' then parseComplexObject s p else parseSimpleObject s p

/-! ## Default values -/

/-- What a character outside a string does to the stack of open brackets. -/
inductive BracketStep where
  | next (stack : List Char)
  | stop
  | unmatched (text : String)

/-- `sizeof(stack) - 1`. -/
def maxBrackets : Nat := 39

/-- A closing bracket in a default value. -/
def closeBracket (opener : Char) (text : String) (stack : List Char) : BracketStep :=
  match stack with
  | [] => .stop
  | c :: stack => if c = opener then .next stack else .unmatched text

/-- A bracket in a default value: the stack of open ones. -/
def bracketStep (c : Char) (stack : List Char) : BracketStep :=
  if c = '(' then .next ('(' :: stack)
  else if c = ')' then closeBracket '(' "Unmatched ')' in default value" stack
  else if c = '[' then .next ('[' :: stack)
  else if c = ']' then closeBracket '[' "Unmatched ']' in default value" stack
  else if c = '\x7b' then .next ('\x7b' :: stack)
  else if c = '\x7d' then
    -- unlike the other brackets, this one never ends the value
    if stack.head? = some '\x7b' then .next stack.tail
    else .unmatched "Unmatched '\x7d' in default value"
  else if c = ',' ∧ stack = [] then .stop
  else .next stack

/-- The position at which the scan of a default value stopped. -/
structure ScanEnd where
  pos : Text
  insideString : Bool
  stack : List Char

/-- The scan of a default value from the position `p` on. -/
def scanDefault (s p : Text) (insideString : Bool) (stringOpener : Char) (stack : List Char) :
    Except ParseError ScanEnd :=
  match p with
  | [] => .ok ⟨[], insideString, stack⟩
  | c :: q =>
    if insideString then
      if c = stringOpener then scanDefault s q false stringOpener stack
      else if c = '\\' then
        match q with
        | [] => failAt s [] "Unterminated string in default value"
        | _ :: r => scanDefault s r true stringOpener stack
      else scanDefault s q true stringOpener stack
    else if c = '\x22' ∨ c = '\x27' then scanDefault s q true c stack
    else if maxBrackets ≤ stack.length then
      failAt s (c :: q) "Default value too complex. Too many nested structures"
    else
      match bracketStep c stack with
      | .next stack => scanDefault s (skipSpaces q) false stringOpener stack
      | .stop => .ok ⟨c :: q, false, stack⟩
      | .unmatched text => failAt s (c :: q) text
termination_by p.length
decreasing_by
  · exact Nat.lt_succ_self _
  · simp only [List.length_cons]
    omega
  · exact Nat.lt_succ_self _
  · exact Nat.lt_succ_self _
  · exact Nat.lt_succ_of_le (skipSpaces_length q)

theorem scanDefault_length {s p : Text} {inside : Bool} {opener : Char} {stack : List Char}
    {r : ScanEnd} (h : scanDefault s p inside opener stack = .ok r) :
    r.pos.length ≤ p.length := by
  fun_induction scanDefault s p inside opener stack with
  | case1 inside opener stack =>
    cases h
    exact Nat.le_refl _
  | case2 opener stack q ih => exact Nat.le_succ_of_le (ih h)
  | case3 opener stack => cases h
  | case4 opener stack q d r ih => exact Nat.le_succ_of_le (Nat.le_succ_of_le (ih h))
  | case5 opener stack c q _ _ ih => exact Nat.le_succ_of_le (ih h)
  | case6 inside opener stack c q _ _ ih => exact Nat.le_succ_of_le (ih h)
  | case7 => cases h
  | case8 inside opener stack c q _ _ _ stack' _ ih =>
    exact Nat.le_succ_of_le (Nat.le_trans (ih h) (skipSpaces_length q))
  | case9 =>
    cases h
    exact Nat.le_refl _
  | case10 => cases h

/-- The default value at the position `p` behind the `=`. -/
def parseDefaultText (s p : Text) (insideString : Bool) :
    Except ParseError (Option Text × Bool × Text) :=
  let start := skipSpaces p
  match scanDefault s start insideString '\x00' [] with
  | .error e => .error e
  | .ok r =>
    if r.stack ≠ [] then
      failAt s r.pos "Unfinished default value, unmatched brackets"
    else if r.pos = [] then failAt s r.pos "Unterminated function type string"
    else if dist start r.pos = 0 then failAt s r.pos "Expected default value after '='"
    else .ok (some (start.take (dist start r.pos)), r.insideString, r.pos)

/-! ## Arguments -/

/-- The state of the loop over the arguments. -/
structure ArgState where
  res : FunctionType
  insideString : Bool
  insideOptional : Bool
  optionalBlockFinished : Bool
  argumentProcessed : Bool
  deriving Repr, DecidableEq

/-- The type after the name of an argument, or any type. -/
def parseArgType (s p : Text) : Except ParseError (Mask × Text) :=
  if p.head? = some ':' then parseTypeMaskAt s (skipSpaces p.tail)
  else if p.head? ≠ some ',' ∧ p.head? ≠ some ')' ∧ p.head? ≠ some ']' ∧ p.head? ≠ some '['
      ∧ p.head? ≠ some '=' then
    failAt s p "Expected ':' after argument name"
  else .ok (anyMask, p)

/-- The default value of an argument, if it has one. -/
def parseDefault (s p : Text) (st : ArgState) : Except ParseError (Option Text × Bool × Text) :=
  if p.head? = some '=' then parseDefaultText s p.tail st.insideString
  else if st.insideOptional = false ∧ (st.res.defaultValues.getLast?.join).isSome then
    failAt s p "Default value expected after optional argument"
  else .ok (none, st.insideString, p)

/-- The function type with one more argument. -/
def FunctionType.pushArg (ft : FunctionType) (name : Text) (mask : Mask) (default : Option Text)
    (insideOptional : Bool) : FunctionType :=
  { ft with
    argNames := ft.argNames ++ [name]
    argTypeMask := ft.argTypeMask ++ [mask]
    defaultValues := ft.defaultValues ++ [default]
    requiredArgs :=
      if insideOptional = false ∧ default = none then ft.requiredArgs + 1 else ft.requiredArgs }

/-- An argument and the comma behind it. -/
def parseArgument (s p : Text) (st : ArgState) : Except ParseError (Text × ArgState) :=
  if st.optionalBlockFinished then failAt s p "Argument after optional block"
  else
    match parseIdentifier p with
    | none => failAt s p "Expected argument name"
    | some (argName, q) =>
      match parseArgType s (skipSpaces q) with
      | .error e => .error e
      | .ok (argTypeMask, q) =>
        match parseDefault s q st with
        | .error e => .error e
        | .ok (defaultValue, insideString, q) =>
          let st' : ArgState :=
            { st with
              res := st.res.pushArg argName argTypeMask defaultValue st.insideOptional
              insideString := insideString
              argumentProcessed := true }
          let q := skipSpaces q
          if q.head? = some ',' then .ok (skipSpaces q.tail, st')
          else if q.head? ≠ some ')' ∧ q.head? ≠ some ']' ∧ q.head? ≠ some '[' then
            failAt s q "Expected ',' or ')'"
          else .ok (q, st')

/-- The ellipsis and its type. -/
def parseEllipsis (s p : Text) (st : ArgState) : Except ParseError (Text × ArgState) :=
  if st.res.ellipsisArgTypeMask ≠ 0 then failAt s p "Multiple ellipsis arguments"
  else
    let q := skipSpaces (p.drop 3)
    let typed : Except ParseError (Mask × Text) :=
      if q.head? = some ':' then parseTypeMaskAt s (skipSpaces q.tail) else .ok (anyMask, q)
    match typed with
    | .error e => .error e
    | .ok (mask, q) =>
      let q := skipSpaces q
      if q.head? ≠ some ')' ∧ q.head? ≠ some ']' then
        failAt s q "Expected ')' after ellipsis argument"
      else
        .ok (q, { st with
                  res := { st.res with ellipsisArgTypeMask := mask }, argumentProcessed := true })

/-- `[` opens the block of optional arguments. -/
def openOptional (s p : Text) (st : ArgState) : Except ParseError (Text × ArgState) :=
  if st.insideOptional then failAt s p "Nested optional blocks are not allowed"
  else if st.optionalBlockFinished then failAt s p "Optional block must be the last argument"
  else .ok (skipSpaces p.tail, { st with insideOptional := true })

/-- `]` closes it. -/
def closeOptional (s p : Text) (st : ArgState) : Except ParseError (Text × ArgState) :=
  if st.insideOptional = false then failAt s p "Unmatched ']'"
  else
    .ok (skipSpaces p.tail, { st with insideOptional := false, optionalBlockFinished := true })

/-- `,` between two arguments. -/
def parseComma (s p : Text) (st : ArgState) : Except ParseError (Text × ArgState) :=
  if st.argumentProcessed = false then failAt s p "Argument expected before ','"
  else .ok (skipSpaces p.tail, { st with argumentProcessed := false })

/-- One turn of the loop over the arguments. -/
def argTurn (s p : Text) (st : ArgState) : Except ParseError (Text × ArgState) :=
  let p := skipSpaces p
  if p = [] then failAt s p "Unterminated argument list"
  else if p.head? = some '[' then openOptional s p st
  else if p.head? = some ']' then closeOptional s p st
  else if p.head? = some ',' then parseComma s p st
  else if "...".toList.isPrefixOf p then parseEllipsis s p st
  else parseArgument s p st

/-! ## Every turn moves on -/

theorem parseTypeList_length {s p q : Text} {mask m : Mask}
    (h : parseTypeList s p mask = .ok (m, q)) : q.length ≤ p.length := by
  fun_induction parseTypeList s p mask with
  | case1 p mask => cases h
  | case2 p mask typeName r suggestion => cases h
  | case3 p mask typeName r hname current _ _ ih =>
    have hrest := ih h
    have hlt := parseIdentifier_length hname
    have hskip := skipSpaces_length r
    have htail := skipSpaces_length (skipSpaces r).tail
    rw [List.length_tail] at htail
    omega
  | case4 p mask typeName r hname current _ _ =>
    cases h
    exact Nat.le_trans (skipSpaces_length r) (Nat.le_of_lt (parseIdentifier_length hname))

theorem parseTypeMask_length {s q : Text} {m : Mask} (h : parseTypeMask s = .ok (m, q)) :
    q.length ≤ s.length := by
  have hskip := skipSpaces_length s
  simp only [parseTypeMask] at h
  split at h
  next =>
    split at h
    next => cases h
    next mask r hlist =>
      split at h
      · cases h
        have hrest := parseTypeList_length hlist
        have hfirst := skipSpaces_length (skipSpaces s).tail
        have hlast := skipSpaces_length r.tail
        rw [List.length_tail] at hfirst hlast
        omega
      · cases h
  next => exact Nat.le_trans (parseTypeList_length h) hskip

theorem parseTypeMaskAt_eq {s p q : Text} {m : Mask} :
    parseTypeMaskAt s p = .ok (m, q) ↔ parseTypeMask p = .ok (m, q) := by
  rw [parseTypeMaskAt]
  cases parseTypeMask p with
  | error e => exact ⟨nofun, nofun⟩
  | ok r => exact Iff.rfl

theorem skipSpaces_tail_length (p : Text) : (skipSpaces p.tail).length ≤ p.length - 1 := by
  have h := skipSpaces_length p.tail
  rwa [List.length_tail] at h

theorem parseArgType_length {s p q : Text} {m : Mask} (h : parseArgType s p = .ok (m, q)) :
    q.length ≤ p.length := by
  rw [parseArgType] at h
  split at h
  · have hmask := parseTypeMask_length (parseTypeMaskAt_eq.mp h)
    have hskip := skipSpaces_tail_length p
    omega
  · split at h
    · cases h
    · cases h
      exact Nat.le_refl _

theorem parseDefaultText_length {s p q : Text} {inside inside' : Bool} {d : Option Text}
    (h : parseDefaultText s p inside = .ok (d, inside', q)) : q.length ≤ p.length := by
  simp only [parseDefaultText] at h
  split at h
  next => cases h
  next r hscan =>
    have hlen := scanDefault_length hscan
    have hskip := skipSpaces_length p
    split at h
    · cases h
    · split at h
      · cases h
      · split at h
        · cases h
        · cases h
          omega

theorem parseDefault_length {s p q : Text} {st : ArgState} {inside : Bool} {d : Option Text}
    (h : parseDefault s p st = .ok (d, inside, q)) : q.length ≤ p.length := by
  rw [parseDefault] at h
  split at h
  · have hlen := parseDefaultText_length h
    rw [List.length_tail] at hlen
    omega
  · split at h
    · cases h
    · cases h
      exact Nat.le_refl _

theorem parseArgument_length {s p q : Text} {st st' : ArgState}
    (h : parseArgument s p st = .ok (q, st')) : q.length < p.length := by
  simp only [parseArgument] at h
  split at h
  · cases h
  · split at h
    next => cases h
    next argName r hname =>
      have hlt := parseIdentifier_length hname
      have hskip := skipSpaces_length r
      split at h
      next => cases h
      next mask r' htype =>
        have htypelen := parseArgType_length htype
        split at h
        next => cases h
        next d inside r'' hdefault =>
          have hdefaultlen := parseDefault_length hdefault
          have hlast := skipSpaces_length r''
          have htail := skipSpaces_tail_length (skipSpaces r'')
          split at h
          · cases h
            omega
          · split at h
            · cases h
            · cases h
              omega

theorem parseEllipsis_length {s p q : Text} {st st' : ArgState} (hp : 0 < p.length)
    (h : parseEllipsis s p st = .ok (q, st')) : q.length < p.length := by
  have hdots := skipSpaces_length (p.drop 3)
  rw [List.length_drop] at hdots
  simp only [parseEllipsis] at h
  split at h
  · cases h
  · split at h
    next => cases h
    next mask r htyped =>
      have hr : r.length ≤ (skipSpaces (p.drop 3)).length := by
        split at htyped
        · have hmask := parseTypeMask_length (parseTypeMaskAt_eq.mp htyped)
          have hskip := skipSpaces_tail_length (skipSpaces (p.drop 3))
          omega
        · cases htyped
          exact Nat.le_refl _
      have hlast := skipSpaces_length r
      split at h
      · cases h
      · cases h
        omega

theorem argTurn_length {s p q : Text} {st st' : ArgState}
    (h : argTurn s p st = .ok (q, st')) : q.length < p.length := by
  have hskip := skipSpaces_length p
  have htail := skipSpaces_tail_length (skipSpaces p)
  simp only [argTurn] at h
  split at h
  · cases h
  · rename_i hne
    have hpos := List.length_pos_iff.mpr hne
    split at h
    · rw [openOptional] at h
      split at h
      · cases h
      · split at h
        · cases h
        · cases h
          omega
    · split at h
      · rw [closeOptional] at h
        split at h
        · cases h
        · cases h
          omega
      · split at h
        · rw [parseComma] at h
          split at h
          · cases h
          · cases h
            omega
        · split at h
          · exact Nat.lt_of_lt_of_le (parseEllipsis_length hpos h) hskip
          · exact Nat.lt_of_lt_of_le (parseArgument_length h) hskip

/-- The loop over the arguments, up to the `)`. -/
def argLoop (s p : Text) (st : ArgState) : Except ParseError (Text × ArgState) :=
  if p.head? = some ')' then .ok (p, st)
  else
    match _h : argTurn s p st with
    | .error e => .error e
    | .ok (q, st') => argLoop s q st'
termination_by p.length
decreasing_by exact argTurn_length _h

/-! ## The whole declaration -/

/-- The arguments at the position `p` of the `(`, up to the position behind the `)`. -/
def parseArgs (s p : Text) (res : FunctionType) : Except ParseError (Text × FunctionType) :=
  if p.head? ≠ some '(' then failAt s p "Expected '(' after function name"
  else
    match argLoop s (skipSpaces p.tail) ⟨res, false, false, false, false⟩ with
    | .error e => .error e
    | .ok (q, st) =>
      if st.insideOptional then failAt s q "Unmatched '['"
      else if st.insideString then failAt s q "Unterminated string in function type"
      else .ok (skipSpaces q.tail, st.res)

/-- The return type at the position `p`, and the end of the string. -/
def parseReturn (s p : Text) (res : FunctionType) : Except ParseError FunctionType :=
  let typed : Except ParseError (Mask × Text) :=
    if p.head? = some ':' then parseTypeMaskAt s (skipSpaces p.tail) else .ok (RT_NULL, p)
  match typed with
  | .error e => .error e
  | .ok (returnTypeMask, q) =>
    let q := skipSpaces q
    if q ≠ [] then failAt s q "Unexpected characters after function type string"
    else .ok { res with returnTypeMask := returnTypeMask }

/-- The function type in front of the arguments. -/
def startType (functionName : Text) (objectTypeMask : Mask) (pureFlag nodiscard : Bool) :
    FunctionType where
  functionName := some functionName
  returnTypeMask := RT_NULL
  objectTypeMask := objectTypeMask
  argNames := []
  argTypeMask := []
  defaultValues := []
  requiredArgs := 0
  ellipsisArgTypeMask := 0
  pure := pureFlag
  nodiscard := nodiscard

/-- `sq_parse_function_type_string`. -/
def parseFunctionTypeString (s : Text) : Except ParseError FunctionType :=
  if s = [] then .error ⟨1, "Empty function type string"⟩
  else
    match parseFlags (skipSpaces s) false false with
    | (pureFlag, nodiscard, p) =>
      match parseObject s p with
      | .error e => .error e
      | .ok (objectTypeMask, functionName, p) =>
        let res := startType functionName objectTypeMask pureFlag nodiscard
        match parseArgs s (skipSpaces p) res with
        | .error e => .error e
        | .ok (p, res) => parseReturn s p res

end Quirrel.TypeDecl
