import Quirrel.Strings.Basic
import Quirrel.Table.Basic

/-!
# `subst`

`string_substitute`: a scan for groups in braces over a buffer that is edited in place, and next to it
the one pass over the format string that it stands for. Both leave the list of the groups that were
replaced, each with its place (the number of characters from its brace to the end of the format
string) and with what replaced it. An index is computed in `int`, and an overflow there is undefined:
it ends the scan with an error of its own. Positions are `int`s as well; they are numbers here, which
is the same for buffers shorter than 2^31, and `int(len)` is converted as the source does it.
-/

set_option autoImplicit false

namespace Quirrel.Strings

open Quirrel.Lib Quirrel.Vm Quirrel.Table

/-- The byte of `{`. -/
def openBrace : UInt8 := 123

/-- The byte of `}`. -/
def closeBrace : UInt8 := 125

/-- The conversion of an `SQInteger` to `int`. -/
def int32 (n : Int) : Int := n.bmod (2 ^ 32)

/-- What a group is replaced by: an argument, or the value in a node of a table argument. -/
inductive Source where
  | argument (n : Nat)
  | key (arg node : Nat)
  deriving DecidableEq

/-- Why no string comes out. -/
inductive SubstError where
  /-- The stack is read outside the arguments. -/
  | outside
  /-- `"subst: Failed to convert value to string"` -/
  | conversion
  /-- An `int` overflows, which is undefined. -/
  | overflow
  deriving DecidableEq

/-- The result and the groups that were replaced. -/
structure Substituted where
  result : Except SubstError (List UInt8)
  groups : List (Nat × Source)

/-- A group in front of the others. -/
def Substituted.cons (g : Nat × Source) (r : Substituted) : Substituted :=
  { r with groups := g :: r.groups }

/-- The virtual machine and the heap. Converting a value may run a `_tostring` of the script, so both
may change with the number of conversions that were made. -/
structure World where
  ops : ObjectOps SQObject SQObject
  tableAt : Nat → Nat → SQTable SQObject SQObject
  convert : Nat → SQObject → Option (List UInt8)

section

variable (world : World) (args : List SQObject)

/-! ## The source of a group -/

/-- `isdigit` -/
def isDigit (c : UInt8) : Bool := 48 ≤ c && c ≤ 57

/-- The loop that parses an index, in `int`: `index * 10 + s[k]` is computed before `'0'` is taken
away. `none` stands for -1. -/
def parseIndex : List UInt8 → Nat → Except SubstError (Option Nat)
  | [], index => .ok (some index)
  | c :: cs, index =>
    if isDigit c then
      if index * 10 + c.toNat < 2 ^ 31 then parseIndex cs (index * 10 + c.toNat - 48)
      else .error .overflow
    else .ok none

/-- The comparison of `GetStr`. -/
def sameStr (key : List UInt8) : Option SQObject → Bool
  | some (.string s) => key.length = s.length && strncmp key.length s key = 0
  | _ => false

/-- The loop of `GetStr`. -/
def getStrLoop (t : SQTable SQObject SQObject) (key : List UInt8) : Nat → Nat → Option (Option Nat)
  | 0, _ => none
  | fuel + 1, n =>
    if sameStr key (t.nodes n).key then some (some n)
    else
      match (t.nodes n).next with
      | none => some none
      | some n' => getStrLoop t key fuel n'

/-- `SQTable::GetStr`: the node it finds. -/
def getStr (o : ObjectOps SQObject SQObject) (t : SQTable SQObject SQObject) (key : List UInt8) :
    Option (Option Nat) :=
  getStrLoop t key t.size (mainPosition o t (.string key))

/-- The loop over the arguments: the leftmost table in which `lookup` finds a node. -/
def findKey (lookup : SQTable SQObject SQObject → Option (Option Nat)) (w : Nat) :
    List SQObject → Nat → Option Source
  | [], _ => none
  | .ref .table addr :: rest, a =>
    match lookup (world.tableAt w addr) with
    | some (some node) => some (.key a node)
    | _ => findKey lookup w rest (a + 1)
  | _ :: rest, a => findKey lookup w rest (a + 1)

/-- The table argument that `subst` takes a key from. -/
def keySource (w : Nat) (content : List UInt8) : Option Source :=
  findKey world (fun t => getStr world.ops t content) w args 0

/-- What `subst` replaces a group by. The arguments have the stack indices from 2 on; an index that
was parsed is far enough below 2^31 to add 2. -/
def groupSource (w : Nat) (content : List UInt8) : Except SubstError (Option Source) :=
  match parseIndex content 0 with
  | .error e => .error e
  | .ok none => .ok (keySource world args w content)
  | .ok (some index) =>
    if index + 2 ≤ args.length + 1 then .ok (some (.argument index))
    else .ok (keySource world args w content)

/-- The value of a source, if it is inside the arguments. -/
def sourceValue (w : Nat) : Source → Option SQObject
  | .argument n => args[n]?
  | .key a node =>
    match args[a]? with
    | some (.ref .table addr) =>
      some (world.ops.realval ((world.tableAt w addr).nodes node).val)
    | _ => none

/-- The text of a source. -/
def sourceText (w : Nat) (src : Source) : Except SubstError (List UInt8) :=
  match sourceValue world args w src with
  | none => .error .outside
  | some val =>
    match world.convert w val with
    | none => .error .conversion
    | some text => .ok text

/-! ## The loop over the buffer -/

/-- The loop over `j`: the brace that closes a group. -/
def findClose (s : List UInt8) (j : Nat) (depth : Int) : Option Nat :=
  if j < s.length then
    if s.getD j 0 = closeBrace then
      if depth - 1 < 0 then some j else findClose s (j + 1) (depth - 1)
    else if s.getD j 0 = openBrace then findClose s (j + 1) (depth + 1)
    else findClose s (j + 1) depth
  else none
termination_by s.length - j

theorem int32_le {n : Nat} : int32 n ≤ n := by
  have := Int.bmod_le (x := (n : Int)) (m := 2 ^ 32) (by decide)
  rcases Nat.lt_or_ge n (2 ^ 31) with h | h
  · rw [int32, Int.bmod_eq_of_le (by omega) (by omega)]
  · rw [int32]
    omega

theorem le_findClose {s : List UInt8} {j j' : Nat} {depth : Int}
    (h : findClose s j depth = some j') : j ≤ j' ∧ j' < s.length := by
  fun_induction findClose s j depth with
  | case1 j depth hj hc hd =>
    obtain rfl := Option.some.inj h
    exact ⟨Nat.le_refl _, hj⟩
  | case2 j depth hj hc hd ih =>
    have := ih h
    omega
  | case3 j depth hj hc ho ih =>
    have := ih h
    omega
  | case4 j depth hj hc ho ih =>
    have := ih h
    omega
  | case5 => cases h

theorem length_replaceBytes {s text : List UInt8} {pos len : Nat} (h : pos + len ≤ s.length) :
    (replaceBytes s pos len text).length = s.length - len + text.length := by
  rw [replaceBytes, List.length_append, List.length_append, List.length_take, List.length_drop]
  omega

/-- The loop over `i`, after `w` conversions. -/
def substLoop (w : Nat) (s : List UInt8) (i : Nat) : Substituted :=
  if hi : (i : Int) < int32 s.length - 2 then
    if s.getD i 0 = openBrace then
      match hj : findClose s (i + 1) 0 with
      | none => substLoop w s (i + 1)
      | some j =>
        if i + 1 = j then substLoop w s (i + 1)
        else
          match groupSource world args w ((s.drop (i + 1)).take (j - (i + 1))) with
          | .error e => ⟨.error e, []⟩
          | .ok none => substLoop w s (i + 1)
          | .ok (some src) =>
            match sourceText world args w src with
            | .error e => ⟨.error e, [(s.length - i, src)]⟩
            | .ok text =>
              (substLoop (w + 1) (replaceBytes s i (j + 1 - i) text) (i + text.length)).cons
                (s.length - i, src)
    else substLoop w s (i + 1)
  else ⟨.ok s, []⟩
termination_by s.length - i
decreasing_by
  all_goals have hlen := @int32_le s.length
  · omega
  · omega
  · omega
  · have hjj := le_findClose hj
    rw [length_replaceBytes (by omega)]
    omega
  · omega

/-- `string_substitute` -/
def stringSubstitute (fmt : List UInt8) : Substituted := substLoop world args 0 fmt 0

/-! ## One pass over the format string -/

/-- The characters up to the brace that closes a group, and those behind it. -/
def matchBrace : Nat → List UInt8 → Option (List UInt8 × List UInt8)
  | _, [] => none
  | depth, c :: cs =>
    if c = closeBrace then
      if depth = 0 then some ([], cs)
      else (matchBrace (depth - 1) cs).map fun p => (c :: p.1, p.2)
    else if c = openBrace then (matchBrace (depth + 1) cs).map fun p => (c :: p.1, p.2)
    else (matchBrace depth cs).map fun p => (c :: p.1, p.2)

/-- The value of decimal digits. -/
def decimalValue (digits : List UInt8) : Nat :=
  digits.foldl (fun v c => v * 10 + (c.toNat - 48)) 0

/-- The leftmost table argument that has the key. -/
def exactKey (w : Nat) (content : List UInt8) : Option Source :=
  findKey world (fun t => getNode world.ops t (.string content)) w args 0

/-- What a group stands for: an argument by its index, or a key by its value in the leftmost table. -/
def exactSource (w : Nat) (content : List UInt8) : Option Source :=
  if content.all isDigit ∧ decimalValue content < args.length then
    some (.argument (decimalValue content))
  else exactKey world args w content

/-- A piece of the format string: a character, the opening brace of a group that stands for nothing, a
group with its text, or a group whose value has none. -/
inductive Piece where
  | plain (c : UInt8)
  | opened (w : Nat) (content : List UInt8)
  | replaced (w place : Nat) (content : List UInt8) (src : Source) (text : List UInt8)
  | failed (w place : Nat) (content : List UInt8) (src : Source) (e : SubstError)
  deriving DecidableEq

theorem length_matchBrace {depth : Nat} {cs content after : List UInt8}
    (h : matchBrace depth cs = some (content, after)) :
    cs.length = content.length + 1 + after.length := by
  induction cs generalizing depth content with
  | nil => cases h
  | cons c cs ih =>
    have hrec {d : Nat} (hr : (matchBrace d cs).map (fun p => (c :: p.1, p.2)) =
        some (content, after)) : (c :: cs).length = content.length + 1 + after.length := by
      obtain ⟨p, hm, heq⟩ := Option.map_eq_some_iff.1 hr
      obtain ⟨hcontent, hafter⟩ := Prod.mk.inj heq
      have hlen := ih (show matchBrace d cs = some (p.1, after) by rw [hm, ← hafter])
      rw [← hcontent, List.length_cons, List.length_cons, hlen]
      omega
    rw [matchBrace] at h
    split at h
    · split at h
      · cases h
        simp only [List.length_cons, List.length_nil]
        omega
      · exact hrec h
    · split at h
      · exact hrec h
      · exact hrec h

/-- One pass over the format string, after `w` conversions. -/
def onePass (w : Nat) : List UInt8 → List Piece
  | [] => []
  | c :: cs =>
    if c = openBrace then
      match _ : matchBrace 0 cs with
      | none => .plain c :: onePass w cs
      | some (content, after) =>
        if content = [] then .plain c :: onePass w cs
        else
          match exactSource world args w content with
          | none => .opened w content :: onePass w cs
          | some src =>
            match sourceText world args w src with
            | .error e => [.failed w (cs.length + 1) content src e]
            | .ok text => .replaced w (cs.length + 1) content src text :: onePass (w + 1) after
    else .plain c :: onePass w cs
termination_by rest => rest.length
decreasing_by
  all_goals simp only [List.length_cons]
  · omega
  · omega
  · omega
  · have := length_matchBrace ‹_›
    omega
  · omega

end

/-- The characters that a piece leaves. -/
def Piece.text : Piece → List UInt8
  | .plain c => [c]
  | .opened _ _ => [openBrace]
  | .replaced _ _ _ _ text => text
  | .failed _ _ _ _ _ => []

/-- What the pieces make of the string in front of them. -/
def assemble (out : List UInt8) : List Piece → Substituted
  | [] => ⟨.ok out, []⟩
  | .failed _ place _ src e :: _ => ⟨.error e, [(place, src)]⟩
  | .replaced _ place _ src text :: ps => (assemble (out ++ text) ps).cons (place, src)
  | p :: ps => assemble (out ++ p.text) ps

end Quirrel.Strings
