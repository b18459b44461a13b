import Mathlib.Tactic.Basic

/-!
# `NodeEqualChecker`

The comparison of syntax trees in `node_equal_checker.h`, on the nodes of `ast.h`. A node is its
address, its span, its operator and its fields: attributes and child pointers by name. The fields
that a class has are its `shape`; the comparison of a class is the list of the fields that it looks
at. A vector of children is a list of pointers, a single child a list of one.

Left out of the nodes is what other passes store in them (the type that the inference finds, the
hoisting level, the source name) and the targets of `break` and `continue`, which nothing uses.
-/

set_option autoImplicit false

namespace Quirrel.NodeEqualChecker

/-- `TreeOp` -/
inductive TreeOp where
  | block | ifStmt | whileStmt | dowhile | forStmt | foreach | switch | returnStmt | yield | throw
  | tryStmt | breakStmt | continueStmt | exprStmt | empty | directive | importStmt
  | id | comma | nullc | assign | oror | andand | or | xor | and | ne | eq | cmp3 | ge | gt | le | lt
  | in_ | instanceof | ushr | shr | shl | mul | div | mod | add | sub | newslot | pluseq | minuseq
  | muleq | diveq | modeq | not | bnot | neg | typeof | staticMemo | inlineConst | resume | clone
  | paren | codeBlockExpr | delete | literal | base | rootTableAccess | inc | array | table | class_
  | function | getField | setField | getSlot | setSlot | call | ternary | externalValue
  | var_ | param | const_ | declGroup | destructure | enum_
  deriving DecidableEq

/-! ## Attributes -/

/-- The bytes of a string before its terminator. -/
abbrev CString : Type := List UInt8

/-- What the word of a `LiteralExpr` that is no string stands for. -/
inductive WordKind where
  | int
  | float
  | bool
  | null
  deriving DecidableEq

/-- `LiteralKind` with the union `_v`. A value that is not a string is in the word `raw()`; of a
`bool` or a `float` the constructor writes the low bytes only, and the others are what was in the
memory. -/
inductive Literal where
  | string (s : CString)
  | word (kind : WordKind) (raw : UInt64)
  deriving DecidableEq

/-- The literal with the bytes that do not belong to the value cleared. -/
def Literal.meaning : Literal → Literal
  | .string s => .string s
  | .word .bool raw => .word .bool (if raw &&& 0xff ≠ 0 then 1 else 0)
  | .word .float raw => .word .float (raw &&& 0xffffffff)
  | .word .int raw => .word .int raw
  | .word .null _ => .word .null 0

/-- The fields of the node classes that are no nodes themselves. -/
inductive Attr where
  | isRoot | isBody | isExprBlock | isLambda | isVararg | isPure | isNodiscard | isNullable
  | isTypeMethod | isAssignable | isDestructured | isGlobal | applyToDefault
  | name | fieldName | docString | moduleName | moduleAlias | importSlots
  | typeMask | resultTypeMask | memberFlags | setFlags | clearFlags
  | literal | consts | form | diff | destructuringType | externalValue
  deriving DecidableEq

/-- A value of such a field. -/
inductive Value where
  | flag (b : Bool)
  | text (s : CString)
  /-- A pointer to a string that may be null. -/
  | optionalText (s : Option CString)
  | number (n : Int)
  | masks (ms : List UInt32)
  | literal (l : Literal)
  /-- The names and values of an enumeration. -/
  | consts (cs : List (CString × Literal))
  /-- The names of an import with their aliases. -/
  | slots (ss : List (CString × CString))
  deriving DecidableEq

/-- The value with literals replaced by what they mean to the program. -/
def Value.meaning : Value → Value
  | .literal l => .literal l.meaning
  | .consts cs => .consts (cs.map fun c => (c.1, c.2.meaning))
  | v => v

/-! ## Nodes -/

/-- The fields of the node classes that hold nodes or vectors of nodes. -/
inductive Slot where
  | statements | condition | thenBranch | elseBranch | body | initializer | modifier | idx | val
  | container | expression | caseVals | caseStmts | defaultStmt | argument | tryStatement
  | exceptionId | catchStatement | lhs | rhs | a | b | c | expressions | block | initializers
  | memberKeys | memberValues | classKey | classBase | parameters | receiver | key | value | callee
  | arguments | destructuring | declarations | initExpression
  deriving DecidableEq

/-- `SourceSpan` -/
structure SourceSpan where
  lineStart : Int
  columnStart : Int
  lineEnd : Int
  columnEnd : Int

/-- A node at its address, with its place in the text, its operation, its fields and its children;
a child that is a null pointer is `none`. -/
inductive Node where
  | mk (addr : Nat) (span : SourceSpan) (op : TreeOp) (attrs : Attr → Value)
      (kids : Slot → List (Option Node))

namespace Node

/-- The address of the node. -/
def addr : Node → Nat
  | mk addr _ _ _ _ => addr

/-- `Node::op` -/
def op : Node → TreeOp
  | mk _ _ op _ _ => op

/-- The fields that are no nodes. -/
def attrs : Node → Attr → Value
  | mk _ _ _ attrs _ => attrs

/-- The children, slot by slot. -/
def kids : Node → Slot → List (Option Node)
  | mk _ _ _ _ kids => kids

variable (a : Nat) (span : SourceSpan) (o : TreeOp) (f : Attr → Value)
  (g : Slot → List (Option Node))

@[simp] theorem addr_mk : (mk a span o f g).addr = a := rfl

@[simp] theorem op_mk : (mk a span o f g).op = o := rfl

@[simp] theorem attrs_mk : (mk a span o f g).attrs = f := rfl

@[simp] theorem kids_mk : (mk a span o f g).kids = g := rfl

end Node

/-- Fields of a class. -/
structure Fields where
  attrs : List Attr
  slots : List Slot

/-- All fields of the class of an operator. -/
def shape : TreeOp → Fields
  | .block => ⟨[.isRoot, .isBody, .isExprBlock], [.statements]⟩
  | .ifStmt => ⟨[], [.condition, .thenBranch, .elseBranch]⟩
  | .whileStmt => ⟨[], [.condition, .body]⟩
  | .dowhile => ⟨[], [.body, .condition]⟩
  | .forStmt => ⟨[], [.initializer, .condition, .modifier, .body]⟩
  | .foreach => ⟨[], [.idx, .val, .container, .body]⟩
  | .switch => ⟨[], [.expression, .caseVals, .caseStmts, .defaultStmt]⟩
  | .returnStmt => ⟨[.isLambda], [.argument]⟩
  | .yield | .throw => ⟨[], [.argument]⟩
  | .tryStmt => ⟨[], [.tryStatement, .exceptionId, .catchStatement]⟩
  | .breakStmt | .continueStmt | .empty | .base | .rootTableAccess => ⟨[], []⟩
  | .exprStmt => ⟨[], [.expression]⟩
  | .directive => ⟨[.setFlags, .clearFlags, .applyToDefault], []⟩
  | .importStmt => ⟨[.moduleName, .moduleAlias, .importSlots], []⟩
  | .id => ⟨[.name], []⟩
  | .comma => ⟨[], [.expressions]⟩
  | .nullc | .assign | .oror | .andand | .or | .xor | .and | .ne | .eq | .cmp3 | .ge | .gt | .le
  | .lt | .in_ | .instanceof | .ushr | .shr | .shl | .mul | .div | .mod | .add | .sub | .newslot
  | .pluseq | .minuseq | .muleq | .diveq | .modeq => ⟨[], [.lhs, .rhs]⟩
  | .not | .bnot | .neg | .typeof | .staticMemo | .inlineConst | .resume | .clone | .paren
  | .delete => ⟨[], [.argument]⟩
  | .codeBlockExpr => ⟨[], [.block]⟩
  | .literal => ⟨[.literal], []⟩
  | .inc => ⟨[.form, .diff], [.argument]⟩
  | .array => ⟨[], [.initializers]⟩
  | .table => ⟨[.memberFlags, .docString], [.memberKeys, .memberValues]⟩
  | .class_ => ⟨[.memberFlags, .docString], [.classBase, .classKey, .memberKeys, .memberValues]⟩
  | .function => ⟨[.isVararg, .isLambda, .name, .isPure, .isNodiscard, .resultTypeMask, .docString],
      [.parameters, .body]⟩
  | .getField => ⟨[.isNullable, .fieldName, .isTypeMethod], [.receiver]⟩
  | .setField => ⟨[.isNullable, .fieldName], [.receiver, .value]⟩
  | .getSlot => ⟨[.isNullable], [.key, .receiver]⟩
  | .setSlot => ⟨[.isNullable], [.key, .receiver, .value]⟩
  | .call => ⟨[.isNullable], [.callee, .arguments]⟩
  | .ternary => ⟨[], [.a, .b, .c]⟩
  | .externalValue => ⟨[.externalValue], []⟩
  | .var_ => ⟨[.isAssignable, .name, .isDestructured, .typeMask], [.expression]⟩
  | .param => ⟨[.name, .isVararg, .typeMask], [.expression, .destructuring]⟩
  | .const_ => ⟨[.isGlobal, .name], [.value]⟩
  | .declGroup => ⟨[], [.declarations]⟩
  | .destructure => ⟨[.destructuringType], [.initExpression, .declarations]⟩
  | .enum_ => ⟨[.isGlobal, .name, .consts], []⟩

/-! ## The comparison of each class -/

/-- An identifier is compared by its name. -/
def cmpId : Fields := ⟨[.name], []⟩

/-- A literal is compared by its kind and its value. -/
def cmpLiterals : Fields := ⟨[.literal], []⟩

/-- Both operands. -/
def cmpBinary : Fields := ⟨[], [.lhs, .rhs]⟩

/-- The operand. -/
def cmpUnary : Fields := ⟨[], [.argument]⟩

/-- The condition and the two branches, which the source calls `a`, `b` and `c`. -/
def cmpTernary : Fields := ⟨[], [.a, .b, .c]⟩

/-- Whether the block is a root or a body, and its statements. -/
def cmpBlock : Fields := ⟨[.isRoot, .isBody], [.statements]⟩

/-- The condition and both branches, of which the second may be null. -/
def cmpIf : Fields := ⟨[], [.condition, .thenBranch, .elseBranch]⟩

/-- The condition, then the body. -/
def cmpWhile : Fields := ⟨[], [.condition, .body]⟩

/-- The body, then the condition. -/
def cmpDoWhile : Fields := ⟨[], [.body, .condition]⟩

/-- The three parts of the head, each of which may be null, and the body. -/
def cmpFor : Fields := ⟨[], [.initializer, .condition, .modifier, .body]⟩

/-- The names of index and value, the container and the body. -/
def cmpForeach : Fields := ⟨[], [.idx, .val, .container, .body]⟩

/-- The expression, the cases and the default. -/
def cmpSwitch : Fields := ⟨[], [.expression, .caseVals, .caseStmts, .defaultStmt]⟩

/-- Both statements and the name of the caught error. -/
def cmpTry : Fields := ⟨[], [.tryStatement, .exceptionId, .catchStatement]⟩

/-- The argument that `return`, `yield` and `throw` share. -/
def cmpTerminate : Fields := ⟨[], [.argument]⟩

/-- As for every terminator, and whether it is the body of a lambda. -/
def cmpReturn : Fields := ⟨[.isLambda], cmpTerminate.slots⟩

/-- The expression of the statement. -/
def cmpExprStmt : Fields := ⟨[], [.expression]⟩

/-- The expressions in their order. -/
def cmpComma : Fields := ⟨[], [.expressions]⟩

/-- Prefix or postfix, the increment, and the operand. -/
def cmpIncExpr : Fields := ⟨[.form, .diff], [.argument]⟩

/-- Whether the call is nullable, the callee and the arguments. -/
def cmpCallExpr : Fields := ⟨[.isNullable], [.callee, .arguments]⟩

/-- The initializers in their order. -/
def cmpArrayExpr : Fields := ⟨[], [.initializers]⟩

/-- Whether the access is nullable, the name of the field and the receiver. -/
def cmpGetField : Fields := ⟨[.isNullable, .fieldName], [.receiver]⟩

/-- Whether the access is nullable, the key and the receiver. -/
def cmpGetSlot : Fields := ⟨[.isNullable], [.key, .receiver]⟩

/-- The name and the initial value. -/
def cmpValueDecl : Fields := ⟨[.name], [.expression]⟩

/-- As for every value declaration, and whether the variable is assignable. -/
def cmpVarDecl : Fields := ⟨.isAssignable :: cmpValueDecl.attrs, cmpValueDecl.slots⟩

/-- Whether the constant is global, its name and its value. -/
def cmpConst : Fields := ⟨[.isGlobal, .name], [.value]⟩

/-- The declarations in their order. -/
def cmpDeclGroup : Fields := ⟨[], [.declarations]⟩

/-- The type of the destructuring and what is taken apart. -/
def cmpDestructDecl : Fields := ⟨[.destructuringType], [.initExpression]⟩

/-- The name, whether it is vararg and a lambda, the parameters and the body. -/
def cmpFunction : Fields := ⟨[.isVararg, .isLambda, .name], [.parameters, .body]⟩

/-- The flags, keys and values of the members. -/
def cmpTable : Fields := ⟨[.memberFlags], [.memberKeys, .memberValues]⟩

/-- As for a table, with the base and the key of the class. -/
def cmpClass : Fields := ⟨cmpTable.attrs, [.classBase, .classKey] ++ cmpTable.slots⟩

/-- Whether the enumeration is global, its name, and its constants in their order. -/
def cmpEnumDecl : Fields := ⟨[.isGlobal, .name, .consts], []⟩

/-- The `switch` of `check`: the fields that it compares, `none` where it asserts and returns
`false`. -/
def compared : TreeOp → Option Fields
  | .block => some cmpBlock
  | .ifStmt => some cmpIf
  | .whileStmt => some cmpWhile
  | .dowhile => some cmpDoWhile
  | .forStmt => some cmpFor
  | .foreach => some cmpForeach
  | .switch => some cmpSwitch
  | .returnStmt => some cmpReturn
  | .yield | .throw => some cmpTerminate
  | .tryStmt => some cmpTry
  | .breakStmt | .continueStmt | .empty | .base | .rootTableAccess => some ⟨[], []⟩
  | .exprStmt => some cmpExprStmt
  | .id => some cmpId
  | .comma => some cmpComma
  | .nullc | .assign | .oror | .andand | .or | .xor | .and | .ne | .eq | .cmp3 | .ge | .gt | .le
  | .lt | .in_ | .instanceof | .ushr | .shr | .shl | .mul | .div | .mod | .add | .sub | .newslot
  | .pluseq | .minuseq | .muleq | .diveq | .modeq => some cmpBinary
  | .not | .bnot | .neg | .typeof | .staticMemo | .inlineConst | .resume | .clone | .paren
  | .delete => some cmpUnary
  | .literal => some cmpLiterals
  | .inc => some cmpIncExpr
  | .table => some cmpTable
  | .class_ => some cmpClass
  | .function => some cmpFunction
  | .array => some cmpArrayExpr
  | .getField => some cmpGetField
  | .getSlot => some cmpGetSlot
  | .call => some cmpCallExpr
  | .ternary => some cmpTernary
  | .var_ => some cmpVarDecl
  | .param => some cmpValueDecl
  | .const_ => some cmpConst
  | .declGroup => some cmpDeclGroup
  | .destructure => some cmpDestructDecl
  | .enum_ => some cmpEnumDecl
  | .directive | .importStmt | .codeBlockExpr | .externalValue | .setField | .setSlot => none

/-! ## The check -/

/-- Two attributes as the comparisons compare them: by `strcmp`, `==`, and for literals by kind and
then by `strcmp` or by `raw()`. -/
def sameValue (v w : Value) : Bool := v == w

mutual

/-- `check` on pointers that are not null. -/
def checkNode : Node → Node → Bool
  | .mk addr _ op attrs kids, r =>
    if addr = r.addr then true
    else if op ≠ r.op then false
    else
      match compared op with
      | none => false
      | some fields =>
        (fields.attrs.all fun a => sameValue (attrs a) (r.attrs a)) &&
          fields.slots.all fun s => cmpNodeVector (kids s) (r.kids s)

/-- `check` on two pointers: two nulls are equal, a null and a node are not. -/
def check : Option Node → Option Node → Bool
  | none, none => true
  | some l, some r => checkNode l r
  | none, some _ => false
  | some _, none => false

/-- `cmpNodeVector`: equal lengths and equal elements, in order. -/
def cmpNodeVector : List (Option Node) → List (Option Node) → Bool
  | [], [] => true
  | l :: ls, r :: rs => check l r && cmpNodeVector ls rs
  | [], _ :: _ => false
  | _ :: _, [] => false

end

/-! ## Syntax -/

/-- A tree without addresses and positions. -/
inductive Syntax where
  | mk (op : TreeOp) (attrs : List Value) (kids : List (List (Option Syntax)))

section View

variable (fields : TreeOp → Fields) (m : Value → Value)

mutual

/-- The tree that some fields of the nodes show. -/
def viewNode : Node → Syntax
  | .mk _ _ op attrs kids =>
    .mk op ((fields op).attrs.map fun a => m (attrs a)) ((fields op).slots.map fun s => viewVec (kids s))

/-- What a pointer to a node means. -/
def view : Option Node → Option Syntax
  | none => none
  | some n => some (viewNode n)

/-- What a vector of nodes means, element by element. -/
def viewVec : List (Option Node) → List (Option Syntax)
  | [] => []
  | n :: ns => view n :: viewVec ns

end

end View

/-- The tree as syntax: all fields, with the meaning of each literal. -/
def erase (n : Option Node) : Option Syntax := view shape Value.meaning n

/-- The fields that `check` looks at, with the words of literals. -/
def looked (n : Option Node) : Option Syntax :=
  view (fun op => (compared op).getD ⟨[], []⟩) id n

mutual

/-- The nodes that `check` compares are each the same object or of a kind that it knows. -/
def KnownNode : Node → Node → Prop
  | .mk addr _ op _ kids, r =>
    addr = r.addr ∨ ∃ fields, compared op = some fields ∧
      ∀ s ∈ fields.slots, KnownVec (kids s) (r.kids s)

/-- `KnownNode` for two pointers; there is nothing to know about a null. -/
def Known : Option Node → Option Node → Prop
  | some l, some r => KnownNode l r
  | none, _ => True
  | some _, none => True

/-- `KnownNode` for the elements that the comparison comes to. -/
def KnownVec : List (Option Node) → List (Option Node) → Prop
  | l :: ls, r :: rs => Known l r ∧ KnownVec ls rs
  | [], _ => True
  | _ :: _, [] => True

end

mutual

/-- The node is in the memory, with everything below it: at each address is one node. -/
def StoredNode (heap : Nat → Option Node) : Node → Prop
  | .mk addr span op attrs kids =>
    heap addr = some (.mk addr span op attrs kids) ∧ ∀ s, StoredVec heap (kids s)

/-- `StoredNode` for a pointer. -/
def Stored (heap : Nat → Option Node) : Option Node → Prop
  | none => True
  | some n => StoredNode heap n

/-- `StoredNode` for every element. -/
def StoredVec (heap : Nat → Option Node) : List (Option Node) → Prop
  | [] => True
  | n :: ns => Stored heap n ∧ StoredVec heap ns

end

end Quirrel.NodeEqualChecker
