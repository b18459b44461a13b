import Mathlib.Tactic.Basic
import Quirrel.Lib.Runs

/-!
# Loading of modules

`SqModules` with the calls of `requireModule`, `importModules`, `reloadModule` and `reloadAll` under
way as frames. Scripts are arbitrary: a script that runs may call `require`, end or fail at any time,
and may catch the error of a failed `require`. Script code also runs while a file is compiled: a constant
initializer calls functions that are declared pure, and nothing checks that they are; so do callbacks of
the host. The file system is given anew for each load.
-/

set_option autoImplicit false

namespace Quirrel.Modules

/-- What `readFile` and the parser make of a file; the imports of a script are the names of its
modules. -/
inductive FileContents where
  | missing
  | unparsable
  | script (imports : List String)

/-- The file access of the host, its import callback and its native modules. -/
structure Host (φ Value : Type) where
  resolveFileName : φ → String → Option String → String
  readFile : φ → String → String → FileContents
  /-- `search_native` and `search_script` -/
  getSearchTargets : String → Bool × Bool
  beforeImportModuleCb : Option (String → Bool)
  nativeModules : String → Option Value
  nativeModuleNames : Value

variable {φ Value : Type}

/-- The callback of the host denies the module. -/
def Host.forbids (host : Host φ Value) (name : String) : Bool :=
  match host.beforeImportModuleCb with
  | none => false
  | some cb => !cb name

/-- What `requireModule` returns: an error, or the exports, which are null for an optional module
without a file. -/
inductive LoadResult (Value : Type) where
  | failed
  | exports (value : Option Value)
  deriving DecidableEq

/-- What is reloaded after the unload handlers. -/
inductive Reload where
  | module (fn : String) (mustExist : Bool)
  | all

/-- A call under way. -/
inductive Frame where
  /-- `importModules` of a script with the imports that are left -/
  | importing (fn : String) (imports : List String)
  /-- code runs while a file with the imports that are left is compiled -/
  | compiling (fn : String) (imports : List String)
  /-- the body of a module runs -/
  | body (fn : String)
  /-- the unload handlers run -/
  | unloading (target : Reload)
  | reloadModule
  /-- the loop of `reloadAll` with the modules that are left -/
  | reloadAll (rest : List String)

/-- What happens next. -/
inductive Control (Value : Type) where
  /-- code of a script, of a constant initializer, of an unload handler or of the host runs -/
  | script
  /-- `requireModule` is called -/
  | calling (requested : String) (mustExist : Bool)
  /-- the loop of `importModules` goes on -/
  | importing
  /-- the script with the imports that are left is compiled -/
  | compiling (fn : String) (imports : List String)
  /-- `requireModule` returns -/
  | returning (result : LoadResult Value)
  /-- the loop of `reloadAll` goes on -/
  | reloading

/-- The module manager and the machine: what runs, what is loaded, and where control is. -/
structure State (Value : Type) where
  /-- `runningScripts`, the innermost last -/
  running : List String
  modules : List (String × Value)
  prevModules : List (String × Value)
  frames : List Frame
  control : Control Value

/-- No module is loaded and no script runs. -/
def State.init : State Value := ⟨[], [], [], [], .script⟩

/-- What a step shows. -/
inductive Label (Value : Type) where
  | silent
  /-- `require` finds a native module -/
  | native (name : String) (value : Value)
  /-- `require` fails, or returns null, before any file is looked for -/
  | refused (name : String)
  /-- `requireModule` returns for the resolved file without loading it -/
  | answer (name fn : String) (result : LoadResult Value)
  /-- `requireModule` begins to load the resolved file -/
  | begin (name fn : String)
  | start (fn : String)
  | finish (fn : String) (exports : Value)
  | abort (fn : String)
  | reload

/-! ## `require` -/

/-- What the native `require` does. -/
inductive RequireAnswer (Value : Type) where
  | value (v : Value)
  | null
  | error
  /-- `requireModule` is called -/
  | call

/-- The native `require` up to the call of `requireModule`. -/
def sqRequire (host : Host φ Value) (fileName : String) (mustExist : Bool) : RequireAnswer Value :=
  if fileName = "quirrel.native_modules" then .value host.nativeModuleNames
  else if host.forbids fileName then .error
  else
    match if (host.getSearchTargets fileName).1 then host.nativeModules fileName else none with
    | some v => .value v
    | none =>
      if (host.getSearchTargets fileName).2 then .call else if mustExist then .error else .null

/-! ## `requireModule` and `importModules` -/

/-- `findModule` -/
def findModule (modules : List (String × Value)) (fn : String) : Option Value := modules.lookup fn

/-- `requireModule` up to the import of modules or the compilation. -/
def requireModule (host : Host φ Value) (fs : φ) (requested : String) (mustExist : Bool)
    (s : State Value) : Label Value × State Value :=
  let fn := host.resolveFileName fs requested s.running.getLast?
  let answer (r : LoadResult Value) : Label Value × State Value :=
    (.answer requested fn r, { s with control := .returning r })
  -- `checkCircularReferences`
  if fn ∈ s.running then answer .failed
  else if host.forbids requested then answer .failed
  else
    match findModule s.modules fn with
    | some v => answer (.exports (some v))
    | none =>
      match host.readFile fs fn requested with
      | .missing => answer (if mustExist then .failed else .exports none)
      | .unparsable => answer .failed
      | .script imports => (.begin requested fn, { s with control := .compiling fn imports })

/-- The call of `importModules`, where there are imports. -/
def beginImports (fn : String) (imports : List String) (s : State Value) : State Value :=
  { s with
    running := s.running ++ [fn], frames := .importing fn imports :: s.frames, control := .importing }

/-- The return of `importModules` with an error: the load of the script fails. -/
def importFailed (s : State Value) (below : List Frame) : State Value :=
  { s with running := s.running.dropLast, frames := below, control := .returning .failed }

/-- The next turn of the loop of `importModules`. -/
def importModule (host : Host φ Value) (fn : String) (imports : List String) (below : List Frame)
    (s : State Value) : State Value :=
  match imports with
  | [] => { s with running := s.running.dropLast, frames := below, control := .compiling fn [] }
  | name :: _ =>
    if host.forbids name then importFailed s below
    else
      match host.nativeModules name with
      | some v => { s with control := .returning (.exports (some v)) }
      | none => { s with control := .calling name true }

/-- The call of the compiled script. -/
def startBody (fn : String) (s : State Value) : State Value :=
  { s with
    running := s.running ++ [fn], frames := .body fn :: s.frames, control := .script }

/-- The return of the script with its exports. -/
def finishBody (fn : String) (exports : Value) (below : List Frame) (s : State Value) :
    State Value :=
  { s with
    running := s.running.dropLast
    modules := s.modules ++ [(fn, exports)]
    frames := below
    control := .returning (.exports (some exports)) }

/-- The return of the script with an error. -/
def abortBody (below : List Frame) (s : State Value) : State Value :=
  { s with running := s.running.dropLast, frames := below, control := .returning .failed }

/-! ## Steps -/

/-- Code of a script, of an unload handler or of the host can run. -/
def runsScript : List Frame → Bool
  | [] => true
  | .body _ :: _ => true
  | .compiling _ _ :: _ => true
  | .unloading _ :: _ => true
  | _ => false

/-- One step of the loader or of the code that it runs. -/
inductive Step (host : Host φ Value) : State Value → Label Value → State Value → Prop
  | native {s : State Value} {name : String} {mustExist : Bool} {v : Value}
      (hs : s.control = .script) (hruns : runsScript s.frames = true)
      (h : sqRequire host name mustExist = .value v) : Step host s (.native name v) s
  | refused {s : State Value} {name : String} {mustExist : Bool}
      (hs : s.control = .script) (hruns : runsScript s.frames = true)
      (h : sqRequire host name mustExist = .error ∨ sqRequire host name mustExist = .null) :
      Step host s (.refused name) s
  | require {s : State Value} {name : String} {mustExist : Bool}
      (hs : s.control = .script) (hruns : runsScript s.frames = true)
      (h : sqRequire host name mustExist = .call) :
      Step host s .silent { s with control := .calling name mustExist }
  /-- the host calls `requireModule` itself -/
  | hostRequire {s : State Value} {name : String} {mustExist : Bool}
      (hs : s.control = .script) (hruns : runsScript s.frames = true) :
      Step host s .silent { s with control := .calling name mustExist }
  | load {s : State Value} {name : String} {mustExist : Bool} (fs : φ)
      (hs : s.control = .calling name mustExist) :
      Step host s (requireModule host fs name mustExist s).1 (requireModule host fs name mustExist s).2
  | importNext {s : State Value} {fn : String} {imports : List String} {below : List Frame}
      (hs : s.control = .importing) (hframes : s.frames = .importing fn imports :: below) :
      Step host s .silent (importModule host fn imports below s)
  /-- the exports of an import are bound -/
  | merged {s : State Value} {fn name : String} {imports : List String} {below : List Frame}
      {v : Option Value} (hs : s.control = .returning (.exports v))
      (hframes : s.frames = .importing fn (name :: imports) :: below) :
      Step host s .silent
        { s with frames := .importing fn imports :: below, control := .importing }
  /-- an import fails, or its exports cannot be bound -/
  | importFailed {s : State Value} {fn : String} {imports : List String} {below : List Frame}
      {r : LoadResult Value} (hs : s.control = .returning r)
      (hframes : s.frames = .importing fn imports :: below) :
      Step host s .silent (importFailed s below)
  /-- a constant initializer, or a callback of the host, calls a function -/
  | evaluate {s : State Value} {fn : String} {imports : List String}
      (hs : s.control = .compiling fn imports) :
      Step host s .silent { s with frames := .compiling fn imports :: s.frames, control := .script }
  | evaluated {s : State Value} {fn : String} {imports : List String} {below : List Frame}
      (hs : s.control = .script) (hframes : s.frames = .compiling fn imports :: below) :
      Step host s .silent { s with frames := below, control := .compiling fn imports }
  | beginImports {s : State Value} {fn name : String} {imports : List String}
      (hs : s.control = .compiling fn (name :: imports)) :
      Step host s .silent (beginImports fn (name :: imports) s)
  | compileFailed {s : State Value} {fn : String} {imports : List String}
      (hs : s.control = .compiling fn imports) :
      Step host s .silent { s with control := .returning .failed }
  | start {s : State Value} {fn : String} (hs : s.control = .compiling fn []) :
      Step host s (.start fn) (startBody fn s)
  | finish {s : State Value} {fn : String} {below : List Frame} (v : Value)
      (hs : s.control = .script) (hframes : s.frames = .body fn :: below) :
      Step host s (.finish fn v) (finishBody fn v below s)
  | abort {s : State Value} {fn : String} {below : List Frame}
      (hs : s.control = .script) (hframes : s.frames = .body fn :: below) :
      Step host s (.abort fn) (abortBody below s)
  /-- the result of `requireModule` reaches a script, which may catch an error -/
  | resume {s : State Value} {r : LoadResult Value} (hs : s.control = .returning r)
      (hruns : runsScript s.frames = true) : Step host s .silent { s with control := .script }
  | reload {s : State Value} (target : Reload)
      (hs : s.control = .script) (hruns : runsScript s.frames = true) (hprev : s.prevModules = []) :
      Step host s .reload
        { s with
          modules := [], prevModules := s.modules, frames := .unloading target :: s.frames }
  | unloaded {s : State Value} {fn : String} {mustExist : Bool} {below : List Frame}
      (hs : s.control = .script) (hframes : s.frames = .unloading (.module fn mustExist) :: below) :
      Step host s .silent
        { s with frames := .reloadModule :: below, control := .calling fn mustExist }
  | unloadedAll {s : State Value} {below : List Frame}
      (hs : s.control = .script) (hframes : s.frames = .unloading .all :: below) :
      Step host s .silent
        { s with
          frames := .reloadAll (s.prevModules.map Prod.fst) :: below, control := .reloading }
  | reloadedModule {s : State Value} {r : LoadResult Value} {below : List Frame}
      (hs : s.control = .returning r) (hframes : s.frames = .reloadModule :: below) :
      Step host s .silent { s with prevModules := [], frames := below, control := .script }
  | reloadNext {s : State Value} {fn : String} {rest : List String} {below : List Frame}
      (hs : s.control = .reloading) (hframes : s.frames = .reloadAll (fn :: rest) :: below) :
      Step host s .silent
        { s with frames := .reloadAll rest :: below, control := .calling fn true }
  | reloadedOne {s : State Value} {r : LoadResult Value} {rest : List String} {below : List Frame}
      (hs : s.control = .returning r) (hframes : s.frames = .reloadAll rest :: below) :
      Step host s .silent { s with control := .reloading }
  | reloadedAll {s : State Value} {below : List Frame}
      (hs : s.control = .reloading) (hframes : s.frames = .reloadAll [] :: below) :
      Step host s .silent { s with prevModules := [], frames := below, control := .script }

/-- The runs from the beginning, of steps that meet a condition; the last label comes first. -/
inductive History (host : Host φ Value) (ok : State Value → Label Value → Prop) :
    State Value → List (Label Value) → Prop
  | init : History host ok State.init []
  | step {s s' : State Value} {log : List (Label Value)} {l : Label Value}
      (h : History host ok s log) (hok : ok s l) (hstep : Step host s l s') :
      History host ok s' (l :: log)

end Quirrel.Modules
