import Mathlib.Tactic.Basic
import Quirrel.Lib.MaskCover

/-!
# Type names and type masks

A C string is the list of its characters; the terminating zero is the end of the list. A position
`p` in a string `s` is the rest of the string, so `p - s` is the difference of the lengths.
-/

set_option autoImplicit false

namespace Quirrel.TypeDecl

open Quirrel.Lib

/-- A C string without its end. -/
abbrev Text := List Char

/-- `SQUnsignedInteger32` as a set of types. -/
abbrev Mask := BitVec 32

/-- `error_pos` and `error_string`. -/
structure ParseError where
  pos : Nat
  text : String
  deriving Repr, DecidableEq

/-! ## Characters -/

/-- `isspace` in the C locale. -/
def isSpace (c : Char) : Bool :=
  c == ' ' || c == '\t' || c == '\n' || c == '\x0b' || c == '\x0c' || c == '\x0d'

/-- `isalpha` in the C locale. -/
def isAlpha (c : Char) : Bool :=
  (decide ('A' ≤ c) && decide (c ≤ 'Z')) || (decide ('a' ≤ c) && decide (c ≤ 'z'))

/-- `isalnum` in the C locale. -/
def isAlnum (c : Char) : Bool :=
  isAlpha c || (decide ('0' ≤ c) && decide (c ≤ '9'))

/-- `tolower` in the C locale. -/
def toLower (c : Char) : Char :=
  if 'A' ≤ c ∧ c ≤ 'Z' then Char.ofNat (c.toNat + 'a'.toNat - 'A'.toNat) else c

/-- The first character of an identifier. -/
def isIdentStart (c : Char) : Bool := isAlpha c || c == '_'

/-- A later character of an identifier. -/
def isIdentChar (c : Char) : Bool := isAlnum c || c == '_'

/-- `skip_spaces` -/
def skipSpaces (s : Text) : Text := s.dropWhile isSpace

/-- `is_str_equal_ignore_case` -/
def isStrEqualIgnoreCase : Text → Text → Bool
  | [], [] => true
  | a :: as, b :: bs => if toLower a = toLower b then isStrEqualIgnoreCase as bs else a == b
  | _, _ => false

/-- The characters from the position `s` to the position `p`. -/
def dist (s p : Text) : Nat := s.length - p.length

/-! ## The table of types -/

/-- `_RT_NULL` -/
def RT_NULL : Mask := 0x1
/-- `_RT_INTEGER` -/
def RT_INTEGER : Mask := 0x2
/-- `_RT_FLOAT` -/
def RT_FLOAT : Mask := 0x4
/-- `_RT_BOOL` -/
def RT_BOOL : Mask := 0x8
/-- `_RT_STRING` -/
def RT_STRING : Mask := 0x10
/-- `_RT_TABLE` -/
def RT_TABLE : Mask := 0x20
/-- `_RT_ARRAY` -/
def RT_ARRAY : Mask := 0x40
/-- `_RT_USERDATA` -/
def RT_USERDATA : Mask := 0x80
/-- `_RT_CLOSURE` -/
def RT_CLOSURE : Mask := 0x100
/-- `_RT_NATIVECLOSURE` -/
def RT_NATIVECLOSURE : Mask := 0x200
/-- `_RT_GENERATOR` -/
def RT_GENERATOR : Mask := 0x400
/-- `_RT_USERPOINTER` -/
def RT_USERPOINTER : Mask := 0x800
/-- `_RT_THREAD` -/
def RT_THREAD : Mask := 0x1000
/-- `_RT_CLASS` -/
def RT_CLASS : Mask := 0x4000
/-- `_RT_INSTANCE` -/
def RT_INSTANCE : Mask := 0x8000
/-- `_RT_WEAKREF` -/
def RT_WEAKREF : Mask := 0x10000

/-- `~0u`. -/
def anyMask : Mask := BitVec.allOnes 32

/-- A type with its name and the synonyms that only lead to a suggestion. -/
structure RawTypeDecl where
  name : Text
  synonyms : List Text
  typeMask : Mask

/-- The names of types and their aliases, in the order in which they are looked up. -/
def rawTypeDecls : List RawTypeDecl :=
  [⟨"bool".toList, ["boolean".toList], RT_BOOL⟩,
   ⟨"number".toList, ["num".toList], RT_FLOAT ||| RT_INTEGER⟩,
   ⟨"int".toList, ["integer".toList], RT_INTEGER⟩,
   ⟨"float".toList, ["double".toList, "real".toList], RT_FLOAT⟩,
   ⟨"string".toList, ["str".toList], RT_STRING⟩,
   ⟨"table".toList, ["dict".toList, "map".toList], RT_TABLE⟩,
   ⟨"array".toList, ["list".toList, "vector".toList], RT_ARRAY⟩,
   ⟨"userdata".toList, ["user".toList, "object".toList], RT_USERDATA⟩,
   ⟨"function".toList, ["func".toList, "closure".toList], RT_CLOSURE ||| RT_NATIVECLOSURE⟩,
   ⟨"generator".toList, ["gen".toList, "yield".toList], RT_GENERATOR⟩,
   ⟨"userpointer".toList, ["ptr".toList, "pointer".toList], RT_USERPOINTER⟩,
   ⟨"thread".toList, ["coroutine".toList, "fiber".toList], RT_THREAD⟩,
   ⟨"instance".toList, ["inst".toList, "object".toList], RT_INSTANCE⟩,
   ⟨"class".toList, [], RT_CLASS⟩,
   ⟨"weakref".toList, ["reference".toList, "ref".toList], RT_WEAKREF⟩,
   ⟨"null".toList, ["nil".toList, "none".toList], RT_NULL⟩,
   ⟨"any".toList, [], anyMask⟩]

/-- The search of `typeStringToMask` in the rest of the table; a type that is not found comes with
the suggestion. -/
def findDecl (typeName : Text) :
    List RawTypeDecl → Option Text → Except (Option Text) Mask
  | [], suggestion => .error suggestion
  | decl :: decls, suggestion =>
    if typeName = decl.name then .ok decl.typeMask
    else if (decl.name :: decl.synonyms).any (isStrEqualIgnoreCase typeName) then
      findDecl typeName decls (some decl.name)
    else findDecl typeName decls suggestion

/-- `sq_type_string_to_mask`; the error may carry a suggestion. -/
def typeStringToMask (typeName : Text) : Except (Option Text) Mask :=
  findDecl typeName rawTypeDecls none

/-! ## Parsing -/

/-- The identifier at the position and the position behind it. -/
def parseIdentifier : Text → Option (Text × Text)
  | [] => none
  | c :: s =>
    if isIdentStart c then some (c :: s.takeWhile isIdentChar, s.dropWhile isIdentChar) else none

/-- The text for a name that is no type; `scsprintf` keeps what fits 256 bytes. -/
def invalidTypeName (typeName : Text) : Option Text → String
  | some suggestion =>
    String.ofList (("Invalid type name \x27".toList ++ typeName ++ "\x27, did you mean \x27".toList
      ++ suggestion ++ "\x27?".toList).take 255)
  | none => String.ofList (("Invalid type name \x27".toList ++ typeName ++ "\x27".toList).take 255)

theorem skipSpaces_length (s : Text) : (skipSpaces s).length ≤ s.length :=
  (List.dropWhile_sublist isSpace).length_le

theorem parseIdentifier_length {p name q : Text} (h : parseIdentifier p = some (name, q)) :
    q.length < p.length := by
  cases p with
  | nil => cases h
  | cons c s =>
    simp only [parseIdentifier] at h
    split at h
    · cases h
      exact Nat.lt_succ_of_le (List.dropWhile_sublist isIdentChar).length_le
    · cases h

/-- The loop over the names of a type mask. The masks of the names before the position are in
`mask`; the result is the mask and the position behind the last name and the spaces after it. -/
def parseTypeList (s p : Text) (mask : Mask) : Except ParseError (Mask × Text) :=
  match _hname : parseIdentifier p with
  | none => .error ⟨dist s p, "Expected type name"⟩
  | some (typeName, q) =>
    match typeStringToMask typeName with
    | .error suggestion => .error ⟨dist s q, invalidTypeName typeName suggestion⟩
    | .ok currentTypeMask =>
      if (skipSpaces q).head? = some '|' then
        parseTypeList s (skipSpaces (skipSpaces q).tail) (mask ||| currentTypeMask)
      else .ok (mask ||| currentTypeMask, skipSpaces q)
termination_by p.length
decreasing_by
  have hlt := parseIdentifier_length _hname
  have hskip := skipSpaces_length q
  have htail := skipSpaces_length (skipSpaces q).tail
  rw [List.length_tail] at htail
  omega

/-- `parse_type_mask`: a list of types, in parentheses or not. -/
def parseTypeMask (s : Text) : Except ParseError (Mask × Text) :=
  let p := skipSpaces s
  if p.head? = some '(' then
    match parseTypeList s (skipSpaces p.tail) 0 with
    | .error e => .error e
    | .ok (mask, q) =>
      if q.head? = some ')' then .ok (mask, skipSpaces q.tail)
      else .error ⟨dist s q, "Expected ')' after type list"⟩
  else parseTypeList s p 0

/-! ## Printing -/

/-- The loop of `appendTypeMask` over the rest of the table. -/
def appendTypeNames : List RawTypeDecl → Bool → Mask → Text
  | [], _, _ => []
  | decl :: decls, first, typeMask =>
    if typeMask &&& decl.typeMask = decl.typeMask then
      (if first then [] else "|".toList) ++ decl.name
        ++ appendTypeNames decls false (typeMask &&& ~~~ decl.typeMask)
    else appendTypeNames decls first typeMask

/-- What `appendTypeMask` appends. -/
def appendTypeMask (typeMask : Mask) : Text :=
  if typeMask = anyMask then "any".toList else appendTypeNames rawTypeDecls true typeMask

end Quirrel.TypeDecl
