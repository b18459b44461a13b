import Quirrel.TypeDecl.Parser

/-!
# The printer of type declarations

`sq_stringify_function_type`. The text is written by parts; `append` stops at the end of the buffer,
so that the result is the beginning of the whole text.
-/

set_option autoImplicit false

namespace Quirrel.TypeDecl

/-- `bufferSize`, with room for the terminating zero. -/
def bufferSize : Nat := 2048

/-- The words `pure` and `nodiscard`. -/
def flagsText (ft : FunctionType) : Text :=
  (if ft.pure then "pure ".toList else []) ++ (if ft.nodiscard then "nodiscard ".toList else [])

/-- The object type is not the type of one name. -/
def isComplexType (mask : Mask) : Bool := !rawTypeDecls.any fun decl => mask == decl.typeMask

/-- The type of `this`, when it is restricted. -/
def objectText (mask : Mask) : Text :=
  if mask = anyMask then []
  else if isComplexType mask then '(' :: appendTypeMask mask ++ [')', '.']
  else appendTypeMask mask ++ ['.']

/-- `: ` and the type, left out if it is the given one. -/
def typeText (omitted mask : Mask) : Text :=
  if mask = omitted then [] else ": ".toList ++ appendTypeMask mask

/-- The default value of an argument. -/
def defaultText : Option Text → Text
  | none => []
  | some t => " = ".toList ++ t

/-- The argument with the number `i`. -/
def argText (ft : FunctionType) (i : Nat) : Text :=
  ft.argNames.getD i [] ++ typeText anyMask (ft.argTypeMask.getD i 0)
    ++ defaultText (ft.defaultValues.getD i none)

/-- What the turn `i` of the loop over the arguments appends. -/
def argPiece (ft : FunctionType) (i : Nat) : Text :=
  (if 0 < i then ", ".toList else []) ++ (if i = ft.requiredArgs then "[".toList else [])
    ++ argText ft i

/-- The arguments, in order. -/
def argsText (ft : FunctionType) : Text := (List.range ft.argNames.length).flatMap (argPiece ft)

/-- The type of further arguments. -/
def ellipsisText (ft : FunctionType) : Text :=
  if ft.ellipsisArgTypeMask = 0 then []
  else (if 0 < ft.argNames.length then ", ".toList else []) ++ "...".toList
    ++ typeText anyMask ft.ellipsisArgTypeMask

/-- The whole text of a function with the name. -/
def functionTypeText (ft : FunctionType) (name : Text) : Text :=
  flagsText ft ++ objectText ft.objectTypeMask ++ name ++ ['('] ++ argsText ft
    ++ (if ft.requiredArgs < ft.argNames.length then [']'] else []) ++ ellipsisText ft ++ [')']
    ++ typeText RT_NULL ft.returnTypeMask

/-- `sq_stringify_function_type`; null without a name. -/
def stringifyFunctionType (ft : FunctionType) : Option Text :=
  ft.functionName.map fun name => (functionTypeText ft name).take (bufferSize - 1)

end Quirrel.TypeDecl
