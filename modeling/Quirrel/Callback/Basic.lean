import Quirrel.Lib.Loop

/-!
# Calling a callback

The frame of a native method that calls a function which it got as its second argument: the stack of
the VM with the base of the frame, `SQVM::Call` as far as the arguments go (`StartCall` and
`CallNative` check their number), and `get_allowed_args_count`. What the callee does is a parameter:
it may change the heap and the cells of its own arguments, and its frames may make `EnterFrame` move
the stack. The methods bind references to the cells of the container and of the callback once, so these
are read from freed memory when the stack has moved.

Each iteration of a loop leaves a record of the call, from which the later modules read whether the
callback got what the method promises.
-/

set_option autoImplicit false

namespace Quirrel.Callback

variable {ω σ : Type}

/-- `MAX_NATIVE_CALLS` -/
def maxNativeCalls : Nat := 100

/-- The loops look at null and at integers; `ω` are the other objects. -/
inductive Value (ω : Type) where
  | null
  | integer (n : Int)
  | object (o : ω)

/-- The parameters of a script function. -/
structure FunctionProto where
  nparameters : Nat
  varparams : Bool
  ndefaultparams : Nat
  /-- `this` comes first, and `vargv` last where the number of arguments is variable. -/
  implicit_le : (if varparams then 2 else 1) ≤ nparameters

/-- A callback: a closure with its prototype, or a native one. -/
inductive Closure where
  | closure (function : FunctionProto)
  | nativeclosure (nparamscheck : Int)

/-- `get_allowed_args_count` -/
def getAllowedArgsCount (closure : Closure) (numSupported : Nat) : Nat :=
  match closure with
  | .closure f => f.nparameters
  | .nativeclosure nParamsCheck => if 0 < nParamsCheck then nParamsCheck.toNat else numSupported

/-- The number of arguments passes the check of `StartCall` or of `CallNative`. -/
def Closure.accepts (nargs : Nat) : Closure → Bool
  | .closure f =>
    if f.varparams then f.nparameters - 1 ≤ nargs
    else
      f.nparameters = nargs ∨
        f.ndefaultparams ≠ 0 ∧ nargs < f.nparameters ∧ f.nparameters - nargs ≤ f.ndefaultparams
  | .nativeclosure nparamscheck =>
    nparamscheck = 0 ∨ 0 < nparamscheck ∧ nparamscheck = nargs ∨
      nparamscheck < 0 ∧ -nparamscheck ≤ nargs

/-- An error is the value `_lasterror`; a callback may raise null. -/
inductive Raised where
  | null
  | other
  deriving DecidableEq

/-- What a callee leaves behind; `cells` are those of its arguments. -/
structure Ran (ω σ : Type) where
  heap : σ
  cells : Nat → Value ω
  /-- `EnterFrame` has resized the stack, for the callee or for a call inside of it. -/
  moved : Bool
  result : Except Raised (Value ω)

/-- The rest of the VM. Arrays and tables are seen as `Get` and `Next` deliver them, that is, with
weak references resolved; a table is its vector of nodes. -/
structure Vm (ω σ : Type) where
  callee : ω → Option Closure
  /-- The object that a closure is bound to. -/
  env : ω → Option (Value ω)
  /-- `_nnativecalls` in the method -/
  nativeCalls : Nat
  /-- The check of the argument types. -/
  typesOk : ω → List (Value ω) → Bool
  /-- `EnterFrame` finds room for the frame. -/
  hasRoom : ω → List (Value ω) → σ → Bool
  run : ω → List (Value ω) → σ → Ran ω σ
  /-- `IsFalse` of an object that is neither null nor an integer. -/
  falsy : ω → Bool
  isArray : ω → Bool
  arrays : σ → ω → List (Value ω)
  tables : σ → ω → List (Option (Value ω × Value ω))
  /-- `SQArray::Set` -/
  set : σ → ω → Nat → Value ω → σ

/-- `SQVM::IsFalse` -/
def Vm.isFalse (vm : Vm ω σ) : Value ω → Bool
  | .null => true
  | .integer n => n = 0
  | .object o => vm.falsy o

/-- One iteration of a loop. -/
structure Iteration (ω : Type) where
  /-- `this` and the arguments that the method promises, if there is an element for them. -/
  documented : Option (List (Value ω))
  /-- `this` and the arguments that the callee was run with. -/
  passed : Option (List (Value ω))
  /-- The check of the arguments failed. -/
  refused : Bool
  /-- Neither the limit of native calls nor `EnterFrame` stopped the call. -/
  entered : Bool
  /-- No earlier call of the method has moved the stack. -/
  bound : Bool
  before : Nat
  /-- `none` where the stack is lost. -/
  after : Option Nat

/-- The VM in the frame of the method. -/
structure Frame (ω σ : Type) where
  stack : List (Value ω)
  stackbase : Nat
  heap : σ
  /-- The references to the cells of the arguments are valid. -/
  bound : Bool
  log : List (Iteration ω)

namespace Frame

/-- The number of cells in use. -/
def top (f : Frame ω σ) : Nat := f.stack.length

/-- `stack_get` of a positive index -/
def stackGet (f : Frame ω σ) (idx : Nat) : Value ω :=
  (f.stack[f.stackbase + idx - 1]?).getD .null

/-- Values onto the stack. -/
def push (vals : List (Value ω)) (f : Frame ω σ) : Frame ω σ :=
  { f with stack := f.stack ++ vals }

/-- `Pop(n)` -/
def pop (n : Nat) (f : Frame ω σ) : Frame ω σ :=
  { f with stack := f.stack.take (f.top - n) }

/-- The iteration ends on the stack as it is. -/
def finish (it : Iteration ω) (f : Frame ω σ) : Frame ω σ :=
  { f with log := f.log ++ [{ it with after := some f.top }] }

/-- The method returns from within the iteration: `LeaveFrame` restores the stack. -/
def leave (it : Iteration ω) (f : Frame ω σ) : Frame ω σ :=
  { f with log := f.log ++ [{ it with after := some it.before }] }

end Frame

/-- A closure that is bound to an object has it for `this`. -/
def withEnv (env : Option (Value ω)) (args : List (Value ω)) : List (Value ω) :=
  match env with
  | some this => this :: args.tail
  | none => args

/-- The cases of `SQVM::Call`. -/
inductive Called (ω σ : Type) where
  /-- The arguments begin below the stack. -/
  | below
  | noRoom
  /-- "Native stack overflow" -/
  | tooDeep
  /-- The check of the arguments failed. -/
  | refused
  | ran (args : List (Value ω)) (r : Ran ω σ)

/-- `SQVM::Call` of a closure with the topmost `nparams` cells. -/
def call (vm : Vm ω σ) (closure : Value ω) (nparams : Nat) (f : Frame ω σ) : Called ω σ :=
  match closure with
  | .object c =>
    match vm.callee c with
    | some callee =>
      if maxNativeCalls < vm.nativeCalls + 1 then .tooDeep
      else if f.top < nparams then .below
      else
        let args := f.stack.drop (f.top - nparams)
        if callee.accepts nparams && vm.typesOk c args then
          if vm.hasRoom c args f.heap then
            .ran (withEnv (vm.env c) args) (vm.run c (withEnv (vm.env c) args) f.heap)
          else .noRoom
        else .refused
    | none => .refused
  | _ => .refused

/-- The cells of the callee's arguments keep what it left in them, wherever the stack is now. -/
def Frame.returned (nparams : Nat) (r : Ran ω σ) (f : Frame ω σ) : Frame ω σ :=
  { f with
    stack := f.stack.take (f.top - nparams) ++ (List.range nparams).map r.cells
    heap := r.heap
    bound := f.bound && !r.moved }

/-- The arguments that a loop pushes. -/
def pushedArgs (nArgs : Nat) (always : List (Value ω)) (key o : Value ω) : List (Value ω) :=
  always ++ (if always.length + 1 ≤ nArgs then [key] else []) ++
    (if always.length + 2 ≤ nArgs then [o] else [])

/-- The call in an iteration: the stack is lost, or the call came back with the arguments still on
the stack. -/
inductive Invoked (ω σ : Type) where
  | lost (f : Frame ω σ)
  | back (f : Frame ω σ) (it : Iteration ω) (res : Except Raised (Value ω))

/-- The pushes of an iteration and its call. The callback is the second argument of the method. A
reference to a cell of a stack that has moved is not read here: the stack is lost. -/
def invoke (vm : Vm ω σ) (nArgs : Nat) (always : List (Value ω)) (key o : Value ω)
    (documented : Option (List (Value ω))) (before : Nat) (f : Frame ω σ) : Invoked ω σ :=
  let f' := f.push (pushedArgs nArgs always key o)
  let it (passed : Option (List (Value ω))) (refused entered : Bool) : Iteration ω :=
    { documented, passed, refused, entered, bound := f.bound, before, after := none }
  if f.bound then
    match call vm (f.stackGet 2) nArgs f' with
    | .below => .lost { f with log := f.log ++ [it none false true] }
    | .noRoom => .lost { f with log := f.log ++ [it none false false] }
    | .tooDeep => .back f' (it none false false) (.error .other)
    | .refused => .back f' (it none true true) (.error .other)
    | .ran args r => .back (f'.returned nArgs r) (it (some args) false true) r.result
  else .lost { f with log := f.log ++ [it none false true] }

end Quirrel.Callback
