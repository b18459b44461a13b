import Quirrel.Modules.Machine

/-!
# Module loading is consistent

The list of running scripts is the list of the scripts under way in the frames, and no script is under
way twice. While a file is compiled its name is not in the list, so code that runs meanwhile can load the
same file. In a run without such a load no file under way is a loaded module. What a load, a script or a
reload may do follows from these.
-/

set_option autoImplicit false

namespace Quirrel.Modules

open Quirrel.Lib

variable {φ Value : Type} {host : Host φ Value} {ok : State Value → Label Value → Prop}

/-! ## The invariant -/

/-- The script of the frame, if it is in the list of running scripts. -/
def Frame.script? : Frame → Option String
  | .importing fn _ => some fn
  | .body fn => some fn
  | _ => none

/-- The file that the frame loads. -/
def Frame.file? : Frame → Option String
  | .importing fn _ => some fn
  | .compiling fn _ => some fn
  | .body fn => some fn
  | _ => none

/-- The file that is compiled. -/
def Frame.compiled? : Frame → Option String
  | .compiling fn _ => some fn
  | _ => none

/-- The scripts under way, the innermost first. -/
def scripts (frames : List Frame) : List String := frames.filterMap Frame.script?

/-- The files that are loaded at the moment. -/
def files (frames : List Frame) : List String := frames.filterMap Frame.file?

/-- The files under compilation while code runs. -/
def compiled (frames : List Frame) : List String := frames.filterMap Frame.compiled?

/-- The scripts whose bodies run. -/
def bodies : List Frame → List String
  | [] => []
  | .body fn :: frames => fn :: bodies frames
  | _ :: frames => bodies frames

/-- No file begins to be loaded while its script is under way. -/
def Proper : List Frame → Prop
  | [] => True
  | f :: frames => (∀ fn, f.file? = some fn → fn ∉ scripts frames) ∧ Proper frames

/-- What holds in every state of every run. -/
structure Inv (s : State Value) : Prop where
  running : s.running = (scripts s.frames).reverse
  proper : Proper s.frames
  compiling : ∀ fn imports, s.control = .compiling fn imports → fn ∉ scripts s.frames

/-- What holds besides where no file is loaded again while it is compiled. -/
structure Fresh (s : State Value) : Prop where
  files : (files s.frames).Nodup
  /-- no file under way is a loaded module -/
  apart : ∀ fn ∈ Modules.files s.frames, findModule s.modules fn = none
  compiling : ∀ fn imports, s.control = .compiling fn imports →
    fn ∉ Modules.files s.frames ∧ findModule s.modules fn = none

theorem Inv.init : Inv (State.init : State Value) := ⟨rfl, trivial, nofun⟩

theorem Fresh.init : Fresh (State.init : State Value) := ⟨List.nodup_nil, nofun, nofun⟩

theorem Frame.file?_of_script? {f : Frame} {fn : String} (h : f.script? = some fn) :
    f.file? = some fn := by
  cases f <;> first | exact h | cases h

theorem Proper.nodup {frames : List Frame} (h : Proper frames) : (scripts frames).Nodup := by
  induction frames with
  | nil => exact List.nodup_nil
  | cons f frames ih =>
    rw [scripts, List.filterMap_cons]
    cases hf : f.script? with
    | none => exact ih h.2
    | some fn => exact List.nodup_cons.mpr ⟨h.1 fn (Frame.file?_of_script? hf), ih h.2⟩

/-- A file under way is a script in the list or is compiled. -/
theorem mem_files {frames : List Frame} {fn : String} (h : fn ∈ files frames) :
    fn ∈ scripts frames ∨ fn ∈ compiled frames := by
  obtain ⟨f, hf, hfile⟩ := List.mem_filterMap.mp h
  cases f with
  | compiling q imports => exact .inr (List.mem_filterMap.mpr ⟨_, hf, hfile⟩)
  | importing q imports => exact .inl (List.mem_filterMap.mpr ⟨_, hf, hfile⟩)
  | body q => exact .inl (List.mem_filterMap.mpr ⟨_, hf, hfile⟩)
  | _ => cases hfile

theorem scripts_subset_files {frames : List Frame} : scripts frames ⊆ files frames := by
  intro fn h
  obtain ⟨f, hf, hscript⟩ := List.mem_filterMap.mp h
  exact List.mem_filterMap.mpr ⟨f, hf, Frame.file?_of_script? hscript⟩

theorem bodies_sublist (frames : List Frame) : (bodies frames).Sublist (scripts frames) := by
  induction frames with
  | nil => exact List.Sublist.refl _
  | cons f frames ih =>
    cases f with
    | body fn => exact ih.cons_cons fn
    | importing fn imports => exact ih.cons fn
    | compiling fn imports => exact ih
    | unloading target => exact ih
    | reloadModule => exact ih
    | reloadAll rest => exact ih

theorem Inv.mem_running {s : State Value} (h : Inv s) {fn : String} :
    fn ∈ s.running ↔ fn ∈ scripts s.frames := by
  rw [h.running, List.mem_reverse]

/-- Frames without files do not matter. -/
theorem Inv.goOn {s : State Value} (h : Inv s) {frames : List Frame} {control : Control Value}
    {modules prev : List (String × Value)} (hscripts : scripts frames = scripts s.frames)
    (hproper : Proper frames) (hcontrol : ∀ fn imports, control ≠ .compiling fn imports) :
    Inv { s with modules := modules, prevModules := prev, frames := frames, control := control } where
  running := h.running.trans (by rw [hscripts])
  proper := hproper
  compiling fn imports hc := absurd hc (hcontrol fn imports)

theorem Fresh.goOn {s : State Value} (h : Fresh s) {frames : List Frame} {control : Control Value}
    {prev : List (String × Value)} (hfiles : Modules.files frames = Modules.files s.frames)
    (hcontrol : ∀ fn imports, control ≠ .compiling fn imports) :
    Fresh { s with prevModules := prev, frames := frames, control := control } where
  files := by
    rw [hfiles]
    exact h.files
  apart := by
    rw [hfiles]
    exact h.apart
  compiling fn imports hc := absurd hc (hcontrol fn imports)

/-- The innermost script leaves the list. -/
theorem Inv.popScript {s : State Value} (h : Inv s) {f : Frame} {fn : String} {below : List Frame}
    (hframes : s.frames = f :: below) (hf : f.script? = some fn) :
    s.running.dropLast = (scripts below).reverse ∧ Proper below ∧ fn ∉ scripts below := by
  have hproper := h.proper
  have hrunning := h.running
  rw [hframes] at hproper hrunning
  rw [scripts, List.filterMap_cons, hf, List.reverse_cons] at hrunning
  refine ⟨?_, hproper.2, hproper.1 fn (Frame.file?_of_script? hf)⟩
  rw [hrunning, List.dropLast_concat]
  rfl

/-- The innermost file is no longer under way. -/
theorem Fresh.popFile {s : State Value} (h : Fresh s) {f : Frame} {fn : String} {below : List Frame}
    (hframes : s.frames = f :: below) (hf : f.file? = some fn) :
    (Modules.files below).Nodup ∧ fn ∉ Modules.files below ∧ findModule s.modules fn = none
      ∧ ∀ q ∈ Modules.files below, findModule s.modules q = none := by
  have hfiles : Modules.files s.frames = fn :: Modules.files below := by
    rw [hframes, Modules.files, List.filterMap_cons, hf]
    rfl
  have hnodup := h.files
  have hapart := h.apart
  rw [hfiles] at hnodup hapart
  obtain ⟨hfn, hbelow⟩ := List.nodup_cons.mp hnodup
  exact ⟨hbelow, hfn, hapart fn (List.mem_cons_self ..), fun q hq =>
    hapart q (List.mem_cons_of_mem _ hq)⟩

/-- A file that was compiled joins the list. -/
theorem Inv.pushScript {s : State Value} (h : Inv s) {fn : String} {imports : List String}
    (hs : s.control = .compiling fn imports) {f : Frame} {control : Control Value}
    (hf : f.script? = some fn) (hcontrol : ∀ q imports, control ≠ .compiling q imports) :
    Inv { s with running := s.running ++ [fn], frames := f :: s.frames, control := control } where
  running := by
    rw [scripts, List.filterMap_cons, hf, List.reverse_cons, h.running]
    rfl
  proper := by
    refine ⟨fun q hq => ?_, h.proper⟩
    obtain rfl : fn = q := Option.some.inj ((Frame.file?_of_script? hf).symm.trans hq)
    exact h.compiling fn imports hs
  compiling q imports hq := absurd hq (hcontrol q imports)

theorem Fresh.pushFile {s : State Value} (h : Fresh s) {fn : String} {imports : List String}
    (hs : s.control = .compiling fn imports) {f : Frame} {control : Control Value}
    {running : List String} (hf : f.file? = some fn)
    (hcontrol : ∀ q imports, control ≠ .compiling q imports) :
    Fresh { s with running := running, frames := f :: s.frames, control := control } := by
  obtain ⟨hfn, hmodule⟩ := h.compiling fn imports hs
  have hfiles : Modules.files (f :: s.frames) = fn :: Modules.files s.frames := by
    rw [Modules.files, List.filterMap_cons, hf]
    rfl
  constructor
  · rw [hfiles]
    exact List.nodup_cons.mpr ⟨hfn, h.files⟩
  · intro q hq
    rw [hfiles] at hq
    rcases List.mem_cons.mp hq with rfl | hq
    · exact hmodule
    · exact h.apart q hq
  · intro q imports hq
    exact absurd hq (hcontrol q imports)

theorem Inv.failImport {s : State Value} (h : Inv s) {fn : String} {imports : List String}
    {below : List Frame} (hframes : s.frames = .importing fn imports :: below) :
    Inv (importFailed s below) := by
  obtain ⟨hrunning, hproper, _⟩ := h.popScript hframes rfl
  exact ⟨hrunning, hproper, nofun⟩

theorem Fresh.failImport {s : State Value} (h : Fresh s) {fn : String} {imports : List String}
    {below : List Frame} (hframes : s.frames = .importing fn imports :: below) :
    Fresh (importFailed s below) := by
  obtain ⟨hnodup, _, _, hapart⟩ := h.popFile hframes rfl
  exact ⟨hnodup, hapart, nofun⟩

theorem findModule_append {modules : List (String × Value)} {fn q : String} {v : Value}
    (hq : q ≠ fn) : findModule (modules ++ [(fn, v)]) q = findModule modules q := by
  rw [findModule, List.lookup_append]
  cases hlookup : modules.lookup q with
  | some w => rw [findModule, hlookup]; rfl
  | none =>
    rw [findModule, hlookup]
    simp [hq]

/-- What `requireModule` does at once. -/
theorem requireModule_cases (host : Host φ Value) (fs : φ) (name : String) (mustExist : Bool)
    (s : State Value) :
    (∃ r, requireModule host fs name mustExist s
        = (.answer name (host.resolveFileName fs name s.running.getLast?) r,
            { s with control := .returning r })
      ∧ (host.forbids name = true ∧ r = .failed
        ∨ host.resolveFileName fs name s.running.getLast? ∈ s.running
        ∨ r = .exports (findModule s.modules (host.resolveFileName fs name s.running.getLast?))
        ∨ findModule s.modules (host.resolveFileName fs name s.running.getLast?) = none))
      ∨ host.resolveFileName fs name s.running.getLast? ∉ s.running
        ∧ findModule s.modules (host.resolveFileName fs name s.running.getLast?) = none
        ∧ ∃ imports, requireModule host fs name mustExist s
            = (.begin name (host.resolveFileName fs name s.running.getLast?),
              { s with
                control := .compiling (host.resolveFileName fs name s.running.getLast?) imports }) := by
  rw [requireModule]
  generalize host.resolveFileName fs name s.running.getLast? = fn
  dsimp only
  split
  next hrunning => exact .inl ⟨_, rfl, .inr (.inl hrunning)⟩
  next hrunning =>
    split
    next hforbidden => exact .inl ⟨_, rfl, .inl ⟨hforbidden, rfl⟩⟩
    next =>
      split
      next v hfound => exact .inl ⟨_, rfl, .inr (.inr (.inl (by rw [hfound])))⟩
      next hfound =>
        split
        next => exact .inl ⟨_, rfl, .inr (.inr (.inr hfound))⟩
        next => exact .inl ⟨_, rfl, .inr (.inr (.inr hfound))⟩
        next imports _ => exact .inr ⟨hrunning, hfound, imports, rfl⟩

/-- The file of a load is not loaded while it is compiled. -/
def NotCompiled (s : State Value) (l : Label Value) : Prop :=
  ∀ name fn, l = .begin name fn → fn ∉ compiled s.frames

theorem Inv.load {s : State Value} (h : Inv s) (fs : φ) (name : String) (mustExist : Bool) :
    Inv (requireModule host fs name mustExist s).2 := by
  rcases requireModule_cases host fs name mustExist s with ⟨r, heq, _⟩ | ⟨hrunning, _, imports, heq⟩
  · rw [heq]
    exact h.goOn rfl h.proper nofun
  · rw [heq]
    refine ⟨h.running, h.proper, ?_⟩
    rintro fn imports ⟨rfl⟩
    exact fun hmem => hrunning (h.mem_running.mpr hmem)

theorem Fresh.load {s : State Value} (h : Fresh s) (hinv : Inv s) {fs : φ} {name : String}
    {mustExist : Bool} (hok : NotCompiled s (requireModule host fs name mustExist s).1) :
    Fresh (requireModule host fs name mustExist s).2 := by
  rcases requireModule_cases host fs name mustExist s with
    ⟨r, heq, _⟩ | ⟨hrunning, hmodule, imports, heq⟩
  · rw [heq]
    exact h.goOn rfl nofun
  · rw [heq] at hok ⊢
    refine ⟨h.files, h.apart, ?_⟩
    rintro fn imports ⟨rfl⟩
    refine ⟨fun hmem => ?_, hmodule⟩
    rcases mem_files hmem with hscript | hcompiled
    · exact hrunning (hinv.mem_running.mpr hscript)
    · exact hok name _ rfl hcompiled

theorem Inv.importNext {s : State Value} (h : Inv s) {fn : String} {imports : List String}
    {below : List Frame} (hframes : s.frames = .importing fn imports :: below) :
    Inv (importModule host fn imports below s) := by
  cases imports with
  | nil =>
    obtain ⟨hrunning, hproper, hfn⟩ := h.popScript hframes rfl
    refine ⟨hrunning, hproper, ?_⟩
    rintro q imports ⟨rfl⟩
    exact hfn
  | cons name imports =>
    rw [importModule]
    split
    · exact h.failImport hframes
    · split
      · exact h.goOn rfl h.proper nofun
      · exact h.goOn rfl h.proper nofun

theorem Fresh.importNext {s : State Value} (h : Fresh s) {fn : String} {imports : List String}
    {below : List Frame} (hframes : s.frames = .importing fn imports :: below) :
    Fresh (importModule host fn imports below s) := by
  cases imports with
  | nil =>
    obtain ⟨hnodup, hfn, hmodule, hapart⟩ := h.popFile hframes rfl
    refine ⟨hnodup, hapart, ?_⟩
    rintro q imports ⟨rfl⟩
    exact ⟨hfn, hmodule⟩
  | cons name imports =>
    rw [importModule]
    split
    · exact h.failImport hframes
    · split
      · exact h.goOn rfl nofun
      · exact h.goOn rfl nofun

theorem Fresh.finish {s : State Value} (h : Fresh s) {fn : String} {below : List Frame} (v : Value)
    (hframes : s.frames = .body fn :: below) : Fresh (finishBody fn v below s) := by
  obtain ⟨hnodup, hfn, _, hapart⟩ := h.popFile hframes rfl
  refine ⟨hnodup, ?_, nofun⟩
  intro q hq
  have hne : q ≠ fn := by
    rintro rfl
    exact hfn hq
  exact (findModule_append hne).trans (hapart q hq)

/-- Every step keeps the invariant. -/
theorem Inv.step {s s' : State Value} {l : Label Value} (h : Inv s) (hstep : Step host s l s') :
    Inv s' := by
  -- a frame without a file is replaced, or leaves
  have hreplace : ∀ {f : Frame} {below : List Frame}, s.frames = f :: below → Proper below := by
    intro f below hframes
    have hproper := h.proper
    rw [hframes] at hproper
    exact hproper.2
  cases hstep with
  | native hs hruns hv => exact h
  | refused hs hruns hr => exact h
  | require hs hruns hc => exact h.goOn rfl h.proper nofun
  | hostRequire hs hruns => exact h.goOn rfl h.proper nofun
  | load fs hs => exact h.load fs _ _
  | importNext hs hframes => exact h.importNext hframes
  | @merged fn name imports below v hs hframes =>
    obtain ⟨_, hproper, hfn⟩ := h.popScript hframes rfl
    refine h.goOn (by rw [hframes]; rfl) ⟨?_, hproper⟩ nofun
    rintro q ⟨rfl⟩
    exact hfn
  | importFailed hs hframes => exact h.failImport hframes
  | @evaluate fn imports hs =>
    refine h.goOn rfl ⟨?_, h.proper⟩ nofun
    rintro q ⟨rfl⟩
    exact h.compiling fn imports hs
  | @evaluated fn imports below hs hframes =>
    have hrunning := h.running
    have hproper := h.proper
    rw [hframes] at hrunning hproper
    refine ⟨hrunning, hproper.2, ?_⟩
    rintro q imports ⟨rfl⟩
    exact hproper.1 fn rfl
  | beginImports hs => exact h.pushScript hs rfl nofun
  | compileFailed hs => exact h.goOn rfl h.proper nofun
  | start hs => exact h.pushScript hs rfl nofun
  | finish v hs hframes =>
    obtain ⟨hrunning, hproper, _⟩ := h.popScript hframes rfl
    exact ⟨hrunning, hproper, nofun⟩
  | abort hs hframes =>
    obtain ⟨hrunning, hproper, _⟩ := h.popScript hframes rfl
    exact ⟨hrunning, hproper, nofun⟩
  | resume hs hruns => exact h.goOn rfl h.proper nofun
  | reload target hs hruns hprev =>
    refine ⟨h.running, ⟨nofun, h.proper⟩, ?_⟩
    intro fn imports hc
    exact absurd (hs.symm.trans hc) nofun
  | unloaded hs hframes =>
    exact h.goOn (by rw [hframes]; rfl) ⟨nofun, hreplace hframes⟩ nofun
  | unloadedAll hs hframes =>
    exact h.goOn (by rw [hframes]; rfl) ⟨nofun, hreplace hframes⟩ nofun
  | reloadedModule hs hframes => exact h.goOn (by rw [hframes]; rfl) (hreplace hframes) nofun
  | reloadNext hs hframes =>
    exact h.goOn (by rw [hframes]; rfl) ⟨nofun, hreplace hframes⟩ nofun
  | reloadedOne hs hframes => exact h.goOn rfl h.proper nofun
  | reloadedAll hs hframes => exact h.goOn (by rw [hframes]; rfl) (hreplace hframes) nofun

/-- A step that loads no file that is compiled keeps the files under way apart from the modules. -/
theorem Fresh.step {s s' : State Value} {l : Label Value} (h : Fresh s) (hinv : Inv s)
    (hok : NotCompiled s l) (hstep : Step host s l s') : Fresh s' := by
  cases hstep with
  | native hs hruns hv => exact h
  | refused hs hruns hr => exact h
  | require hs hruns hc => exact h.goOn rfl nofun
  | hostRequire hs hruns => exact h.goOn rfl nofun
  | load fs hs => exact h.load hinv hok
  | importNext hs hframes => exact h.importNext hframes
  | merged hs hframes => exact h.goOn (by rw [hframes]; rfl) nofun
  | importFailed hs hframes => exact h.failImport hframes
  | evaluate hs => exact h.pushFile hs rfl nofun
  | @evaluated fn imports below hs hframes =>
    obtain ⟨hnodup, hfn, hmodule, hapart⟩ := h.popFile hframes rfl
    refine ⟨hnodup, hapart, ?_⟩
    rintro q imports ⟨rfl⟩
    exact ⟨hfn, hmodule⟩
  | beginImports hs => exact h.pushFile hs rfl nofun
  | compileFailed hs => exact h.goOn rfl nofun
  | start hs => exact h.pushFile hs rfl nofun
  | finish v hs hframes => exact h.finish v hframes
  | abort hs hframes =>
    obtain ⟨hnodup, _, _, hapart⟩ := h.popFile hframes rfl
    exact ⟨hnodup, hapart, nofun⟩
  | resume hs hruns => exact h.goOn rfl nofun
  | reload target hs hruns hprev =>
    refine ⟨h.files, fun _ _ => rfl, ?_⟩
    intro fn imports hc
    exact absurd (hs.symm.trans hc) nofun
  | unloaded hs hframes => exact h.goOn (by rw [hframes]; rfl) nofun
  | unloadedAll hs hframes => exact h.goOn (by rw [hframes]; rfl) nofun
  | reloadedModule hs hframes => exact h.goOn (by rw [hframes]; rfl) nofun
  | reloadNext hs hframes => exact h.goOn (by rw [hframes]; rfl) nofun
  | reloadedOne hs hframes => exact h.goOn rfl nofun
  | reloadedAll hs hframes => exact h.goOn (by rw [hframes]; rfl) nofun

theorem History.inv {s : State Value} {log : List (Label Value)} (h : History host ok s log) :
    Inv s := by
  induction h with
  | init => exact Inv.init
  | step _ _ hstep ih => exact ih.step hstep

theorem History.fresh {s : State Value} {log : List (Label Value)}
    (h : History host NotCompiled s log) : Fresh s := by
  induction h with
  | init => exact Fresh.init
  | step h hok hstep ih => exact ih.step h.inv hok hstep

/-! ## The list of running scripts is restored -/

/-- A load that was called over `n` frames has returned. -/
def Returned (n : Nat) (s : State Value) : Prop :=
  s.frames.length = n ∧ ∃ r, s.control = .returning r

/-- The load that is called in `s` returns in `t`, for the first time at its depth. -/
structure LoadRun (host : Host φ Value) (s : State Value) (ls : List (Label Value))
    (t : State Value) : Prop where
  call : ∃ name mustExist, s.control = .calling name mustExist
  run : Steps (Step host) (fun u _ => ¬ Returned s.frames.length u) s ls t
  returned : Returned s.frames.length t

/-- The frame of a load. -/
def Frame.isLoad : Frame → Prop
  | .importing _ _ => True
  | .compiling _ _ => True
  | .body _ => True
  | _ => False

/-- A load over the frames `below` is under way. -/
inductive Loading (below : List Frame) (s : State Value) : Prop
  | calling (name : String) (mustExist : Bool) (hframes : s.frames = below)
      (hs : s.control = .calling name mustExist)
  | compiling (fn : String) (imports : List String) (hframes : s.frames = below)
      (hs : s.control = .compiling fn imports)
  | inside (above : List Frame) (f : Frame) (hload : f.isLoad)
      (hframes : s.frames = above ++ f :: below)
  | returned (r : LoadResult Value) (hframes : s.frames = below) (hs : s.control = .returning r)

/-- The innermost frame of the load is that of the load itself or lies above it. -/
theorem split_above {f g : Frame} {above below frames : List Frame}
    (h : above ++ g :: below = f :: frames) :
    above = [] ∧ f = g ∧ frames = below ∨ ∃ above', above = f :: above'
      ∧ frames = above' ++ g :: below := by
  cases above with
  | nil =>
    cases h
    exact .inl ⟨rfl, rfl, rfl⟩
  | cons e above =>
    cases h
    exact .inr ⟨above, rfl, rfl⟩

section Loading

variable {below : List Frame} {s s' : State Value} {l : Label Value}

/-- A call that starts over the frames of a load under way stays inside the load. -/
theorem Loading.push {above : List Frame} {f : Frame} (hload : f.isLoad)
    (hframes : s.frames = above ++ f :: below) (g : Frame) (hs : s'.frames = g :: s.frames) :
    Loading below s' :=
  .inside (g :: above) f hload (by rw [hs, hframes]; rfl)

theorem Loading.load {fs : φ} {name : String} {mustExist : Bool} (h : Loading below s)
    (hs : s.control = .calling name mustExist) :
    Loading below (requireModule host fs name mustExist s).2 := by
  rcases requireModule_cases host fs name mustExist s with ⟨r, heq, _⟩ | ⟨_, _, imports, heq⟩
  · rw [heq]
    cases h with
    | calling n m hframes hc => exact .returned r hframes rfl
    | compiling fn imports hframes hc => exact absurd (hs.symm.trans hc) nofun
    | inside above f hload hframes => exact .inside above f hload hframes
    | returned r' hframes hc => exact absurd (hs.symm.trans hc) nofun
  · rw [heq]
    cases h with
    | calling n m hframes hc => exact .compiling _ imports hframes rfl
    | compiling fn imports hframes hc => exact absurd (hs.symm.trans hc) nofun
    | inside above f hload hframes => exact .inside above f hload hframes
    | returned r' hframes hc => exact absurd (hs.symm.trans hc) nofun

variable {above : List Frame} {f g g' : Frame} {rest : List Frame}

/-- The innermost call ends. If it is the load itself, the load goes on or returns. -/
theorem Loading.pop (hload : f.isLoad) (hinside : s.frames = above ++ f :: below)
    (htop : s.frames = g :: rest) (hs : s'.frames = rest)
    (hnext : g.isLoad →
      (∃ fn imports, s'.control = .compiling fn imports) ∨ ∃ r, s'.control = .returning r) :
    Loading below s' := by
  rcases split_above (hinside.symm.trans htop) with ⟨_, rfl, rfl⟩ | ⟨above', _, rfl⟩
  · rcases hnext hload with ⟨fn, imports, hc⟩ | ⟨r, hc⟩
    · exact .compiling fn imports hs hc
    · exact .returned r hs hc
  · exact .inside above' f hload hs

/-- The innermost call goes on with another frame. -/
theorem Loading.replace (hload : f.isLoad) (hinside : s.frames = above ++ f :: below)
    (htop : s.frames = g :: rest) (hs : s'.frames = g' :: rest) (hsame : g.isLoad → g'.isLoad) :
    Loading below s' := by
  rcases split_above (hinside.symm.trans htop) with ⟨_, rfl, rfl⟩ | ⟨above', _, rfl⟩
  · exact .inside [] g' (hsame hload) hs
  · exact .inside (g' :: above') f hload hs

theorem Loading.importNext {fn : String} {imports : List String} (hload : f.isLoad)
    (hinside : s.frames = above ++ f :: below) (htop : s.frames = .importing fn imports :: rest) :
    Loading below (importModule host fn imports rest s) := by
  cases imports with
  | nil => exact .pop hload hinside htop rfl fun _ => .inl ⟨fn, [], rfl⟩
  | cons name imports =>
    rw [importModule]
    split
    · exact .pop hload hinside htop rfl fun _ => .inr ⟨_, rfl⟩
    · split
      · exact .inside above f hload hinside
      · exact .inside above f hload hinside

/-- A step inside a load stays inside, or the load goes on or returns. -/
theorem Loading.step_inside (hload : f.isLoad) (hinside : s.frames = above ++ f :: below)
    (hstep : Step host s l s') : Loading below s' := by
  cases hstep with
  | native hs hruns hv => exact .inside above f hload hinside
  | refused hs hruns hr => exact .inside above f hload hinside
  | require hs hruns hc => exact .inside above f hload hinside
  | hostRequire hs hruns => exact .inside above f hload hinside
  | load fs hs => exact Loading.load (.inside above f hload hinside) hs
  | importNext hs htop => exact .importNext hload hinside htop
  | merged hs htop => exact .replace hload hinside htop rfl fun _ => trivial
  | importFailed hs htop => exact .pop hload hinside htop rfl fun _ => .inr ⟨_, rfl⟩
  | evaluate hs => exact .push hload hinside _ rfl
  | evaluated hs htop => exact .pop hload hinside htop rfl fun _ => .inl ⟨_, _, rfl⟩
  | beginImports hs => exact .push hload hinside _ rfl
  | compileFailed hs => exact .inside above f hload hinside
  | start hs => exact .push hload hinside _ rfl
  | finish v hs htop => exact .pop hload hinside htop rfl fun _ => .inr ⟨_, rfl⟩
  | abort hs htop => exact .pop hload hinside htop rfl fun _ => .inr ⟨_, rfl⟩
  | resume hs hruns => exact .inside above f hload hinside
  | reload target hs hruns hprev => exact .push hload hinside _ rfl
  | unloaded hs htop => exact .replace hload hinside htop rfl nofun
  | unloadedAll hs htop => exact .replace hload hinside htop rfl nofun
  | reloadedModule hs htop => exact .pop hload hinside htop rfl nofun
  | reloadNext hs htop => exact .replace hload hinside htop rfl nofun
  | reloadedOne hs htop => exact .inside above f hload hinside
  | reloadedAll hs htop => exact .pop hload hinside htop rfl nofun

/-- A call of `requireModule` is followed by what it does at once. -/
theorem Step.of_calling {name : String} {mustExist : Bool} (hstep : Step host s l s')
    (hs : s.control = .calling name mustExist) :
    ∃ fs, (l, s') = requireModule host fs name mustExist s := by
  cases hstep with
  | load fs h =>
    cases hs.symm.trans h
    exact ⟨fs, rfl⟩
  | _ => simp_all only [reduceCtorEq]

/-- What may follow while a script is compiled. -/
theorem Step.of_compiling {fn : String} {imports : List String} (hstep : Step host s l s')
    (hs : s.control = .compiling fn imports) :
    s' = { s with control := .returning .failed }
      ∨ ∃ f : Frame, f.isLoad ∧ s'.frames = f :: s.frames := by
  cases hstep with
  | evaluate h => exact .inr ⟨.compiling _ _, trivial, rfl⟩
  | beginImports h => exact .inr ⟨.importing _ _, trivial, rfl⟩
  | compileFailed h => exact .inl rfl
  | start h => exact .inr ⟨.body _, trivial, rfl⟩
  | _ => simp_all only [reduceCtorEq]

/-- Each step of a load that has not returned keeps the frames below it. -/
theorem Loading.step (h : Loading below s) (hrun : ¬ Returned below.length s)
    (hstep : Step host s l s') : Loading below s' := by
  cases h with
  | calling name mustExist hframes hs =>
    obtain ⟨fs, heq⟩ := hstep.of_calling hs
    have hnext : Loading below (requireModule host fs name mustExist s).2 :=
      Loading.load (.calling name mustExist hframes hs) hs
    rw [← heq] at hnext
    exact hnext
  | compiling fn imports hframes hs =>
    rcases hstep.of_compiling hs with rfl | ⟨f, hload, heq⟩
    · exact .returned .failed hframes rfl
    · refine .inside [] f hload ?_
      rw [heq, hframes]
      rfl
  | inside above f hload hframes => exact .step_inside hload hframes hstep
  | returned r hframes hs => exact absurd ⟨by rw [hframes], r, hs⟩ hrun

end Loading

/-- A load returns with the frames and the list of running scripts of its call. -/
theorem LoadRun.restores {s t : State Value} {log ls : List (Label Value)}
    (h : History host ok s log) (hload : LoadRun host s ls t) :
    t.frames = s.frames ∧ t.running = s.running := by
  obtain ⟨⟨name, mustExist, hcall⟩, hrun, hreturned⟩ := hload
  have hinv : Inv t := Steps.invariant (I := Inv) (fun _ _ _ hu _ hstep => hu.step hstep) hrun h.inv
  have hloading : Loading s.frames t :=
    Steps.invariant (I := Loading s.frames) (fun _ _ _ hu hnot hstep => hu.step hnot hstep) hrun
      (.calling name mustExist rfl hcall)
  have hframes : t.frames = s.frames := by
    cases hloading with
    | calling n m hframes hs => exact hframes
    | compiling fn imports hframes hs => exact hframes
    | returned r hframes hs => exact hframes
    | inside above f hl hframes =>
      have hlen := hreturned.1
      rw [hframes, List.length_append, List.length_cons] at hlen
      omega
  exact ⟨hframes, by rw [hinv.running, h.inv.running, hframes]⟩

/-! ## What the log of a run says -/

/-- The label is about the body of the module. -/
def Label.About (fn : String) : Label Value → Prop
  | .start q => q = fn
  | .finish q _ => q = fn
  | .abort q => q = fn
  | _ => False

section Log

variable {s s' : State Value} {l : Label Value} {fn name : String}

/-- A body runs from its start to its end. -/
theorem Step.bodies (hstep : Step host s l s') :
    (∃ q, l = .start q ∧ bodies s'.frames = q :: bodies s.frames)
      ∨ (∃ q, l.About q ∧ bodies s.frames = q :: bodies s'.frames)
      ∨ (∀ q, ¬ l.About q) ∧ bodies s'.frames = bodies s.frames := by
  cases hstep with
  | native hs hruns hv => exact .inr (.inr ⟨fun _ h => h, rfl⟩)
  | refused hs hruns hr => exact .inr (.inr ⟨fun _ h => h, rfl⟩)
  | require hs hruns hc => exact .inr (.inr ⟨fun _ h => h, rfl⟩)
  | hostRequire hs hruns => exact .inr (.inr ⟨fun _ h => h, rfl⟩)
  | @load name mustExist fs hs =>
    rcases requireModule_cases host fs name mustExist s with
      ⟨r, heq, _⟩ | ⟨_, _, imports, heq⟩ <;> rw [heq] <;>
        exact .inr (.inr ⟨fun _ h => h, rfl⟩)
  | @importNext q imports below hs hframes =>
    refine .inr (.inr ⟨fun _ h => h, ?_⟩)
    cases imports with
    | nil => rw [hframes]; rfl
    | cons name imports =>
      rw [importModule]
      split
      · rw [hframes]; rfl
      · split <;> rfl
  | merged hs hframes => exact .inr (.inr ⟨fun _ h => h, by rw [hframes]; rfl⟩)
  | importFailed hs hframes => exact .inr (.inr ⟨fun _ h => h, by rw [hframes]; rfl⟩)
  | evaluate hs => exact .inr (.inr ⟨fun _ h => h, rfl⟩)
  | evaluated hs hframes => exact .inr (.inr ⟨fun _ h => h, by rw [hframes]; rfl⟩)
  | beginImports hs => exact .inr (.inr ⟨fun _ h => h, rfl⟩)
  | compileFailed hs => exact .inr (.inr ⟨fun _ h => h, rfl⟩)
  | @start q hs => exact .inl ⟨q, rfl, rfl⟩
  | @finish q below v hs hframes => exact .inr (.inl ⟨q, rfl, by rw [hframes]; rfl⟩)
  | @abort q below hs hframes => exact .inr (.inl ⟨q, rfl, by rw [hframes]; rfl⟩)
  | resume hs hruns => exact .inr (.inr ⟨fun _ h => h, rfl⟩)
  | reload target hs hruns hprev => exact .inr (.inr ⟨fun _ h => h, rfl⟩)
  | unloaded hs hframes => exact .inr (.inr ⟨fun _ h => h, by rw [hframes]; rfl⟩)
  | unloadedAll hs hframes => exact .inr (.inr ⟨fun _ h => h, by rw [hframes]; rfl⟩)
  | reloadedModule hs hframes => exact .inr (.inr ⟨fun _ h => h, by rw [hframes]; rfl⟩)
  | reloadNext hs hframes => exact .inr (.inr ⟨fun _ h => h, by rw [hframes]; rfl⟩)
  | reloadedOne hs hframes => exact .inr (.inr ⟨fun _ h => h, rfl⟩)
  | reloadedAll hs hframes => exact .inr (.inr ⟨fun _ h => h, by rw [hframes]; rfl⟩)

/-- The body starts in the state in which its script has been compiled. -/
theorem Step.of_start (hstep : Step host s l s') (hl : l = .start fn) :
    s.control = .compiling fn [] ∧ s' = startBody fn s := by
  cases hstep with
  | start hs =>
    cases hl
    exact ⟨hs, rfl⟩
  | @load name mustExist fs hs =>
    rcases requireModule_cases host fs name mustExist s with
      ⟨r, heq, _⟩ | ⟨_, _, imports, heq⟩ <;> rw [heq] at hl <;> cases hl
  | _ => cases hl

theorem Step.of_finish {v : Value} (hstep : Step host s l s') (hl : l = .finish fn v) :
    ∃ below, s.frames = .body fn :: below ∧ s' = finishBody fn v below s := by
  cases hstep with
  | finish v hs hframes =>
    cases hl
    exact ⟨_, hframes, rfl⟩
  | @load name mustExist fs hs =>
    rcases requireModule_cases host fs name mustExist s with
      ⟨r, heq, _⟩ | ⟨_, _, imports, heq⟩ <;> rw [heq] at hl <;> cases hl
  | _ => cases hl

/-- The label of a load of the file. -/
inductive Label.Loads (name fn : String) : Label Value → Prop
  | answer (r : LoadResult Value) : Label.Loads name fn (.answer name fn r)
  | begin : Label.Loads name fn (.begin name fn)

/-- A load of the file is what `requireModule` does at once. -/
theorem Step.of_loads (hstep : Step host s l s') (hl : l.Loads name fn) :
    ∃ fs mustExist, host.resolveFileName fs name s.running.getLast? = fn
      ∧ l = (requireModule host fs name mustExist s).1 := by
  cases hstep with
  | @load name' mustExist fs hs =>
    rcases requireModule_cases host fs name' mustExist s with
      ⟨r, heq, _⟩ | ⟨_, _, imports, heq⟩ <;> rw [heq] at hl <;> cases hl <;>
        exact ⟨fs, mustExist, rfl, rfl⟩
  | _ => cases hl

theorem findModule_append_some {modules : List (String × Value)} {q : String} {v w : Value}
    (h : findModule modules fn = some v) : findModule (modules ++ [(q, w)]) fn = some v := by
  rw [findModule] at h
  rw [findModule, List.lookup_append, h]
  rfl

theorem findModule_append_new {modules : List (String × Value)} {v : Value}
    (h : findModule modules fn = none) : findModule (modules ++ [(fn, v)]) fn = some v := by
  rw [findModule] at h
  rw [findModule, List.lookup_append, h]
  simp

/-- A loaded module stays loaded until a reload. -/
theorem Step.loaded {v : Value} (hstep : Step host s l s') (hl : l ≠ .reload)
    (h : findModule s.modules fn = some v) : findModule s'.modules fn = some v := by
  cases hstep with
  | finish w hs hframes => exact findModule_append_some h
  | reload target hs hruns hprev => exact absurd rfl hl
  | @load name mustExist fs hs =>
    rcases requireModule_cases host fs name mustExist s with
      ⟨r, heq, _⟩ | ⟨_, _, imports, heq⟩ <;> rw [heq] <;> exact h
  | @importNext q imports below hs hframes =>
    cases imports with
    | nil => exact h
    | cons name imports =>
      rw [importModule]
      split
      · exact h
      · split <;> exact h
  | _ => exact h

/-- What is known behind the successful end of a body, up to a reload. -/
theorem History.loaded {v : Value} {newer older : List (Label Value)}
    (h : History host NotCompiled s (newer ++ .finish fn v :: older)) (hnew : .reload ∉ newer) :
    findModule s.modules fn = some v := by
  induction newer generalizing s with
  | nil =>
    obtain _ | ⟨h, _, hstep⟩ := h
    obtain ⟨below, hframes, rfl⟩ := hstep.of_finish rfl
    apply findModule_append_new
    apply h.fresh.apart
    rw [hframes]
    exact List.mem_cons_self ..
  | cons l newer ih =>
    obtain ⟨hl, hrest⟩ := not_or.mp (mt List.mem_cons.mpr hnew)
    obtain _ | ⟨h, _, hstep⟩ := h
    exact hstep.loaded (fun heq => hl heq.symm) (ih h hrest)

/-- A body that runs has been started, and nothing else has happened to it since. -/
theorem History.started {log : List (Label Value)} (h : History host ok s log)
    (hfn : fn ∈ bodies s.frames) :
    ∃ newer older, log = newer ++ .start fn :: older ∧ ∀ l ∈ newer, ¬ l.About fn := by
  induction h with
  | init => cases hfn
  | @step s s' log l h _ hstep ih =>
    -- a step that is not about the body only makes the log longer
    have hkeep : ¬ l.About fn → fn ∈ bodies s.frames →
        ∃ newer older, l :: log = newer ++ .start fn :: older ∧ ∀ k ∈ newer, ¬ k.About fn := by
      intro hl hmem
      obtain ⟨newer, older, rfl, hnewer⟩ := ih hmem
      refine ⟨l :: newer, older, rfl, ?_⟩
      intro k hk
      rcases List.mem_cons.mp hk with rfl | hk
      · exact hl
      · exact hnewer k hk
    rcases hstep.bodies with ⟨q, rfl, heq⟩ | ⟨q, habout, heq⟩ | ⟨hnone, heq⟩
    · rw [heq] at hfn
      rcases List.mem_cons.mp hfn with rfl | hmem
      · exact ⟨[], log, rfl, nofun⟩
      · by_cases hq : q = fn
        · rw [hq]
          exact ⟨[], log, rfl, nofun⟩
        · exact hkeep hq hmem
    · have hnodup := (bodies_sublist s.frames).nodup h.inv.proper.nodup
      rw [heq] at hnodup
      have hq : q ≠ fn := by
        rintro rfl
        exact (List.nodup_cons.mp hnodup).1 hfn
      refine hkeep ?_ (by rw [heq]; exact List.mem_cons_of_mem _ hfn)
      intro hl
      cases l with
      | start p => exact hq (habout.symm.trans hl)
      | finish p v => exact hq (habout.symm.trans hl)
      | abort p => exact hq (habout.symm.trans hl)
      | _ => exact hl
    · exact hkeep (hnone fn) (by rw [← heq]; exact hfn)

end Log

/-! ## Consistent loading -/

/-- What every run of the module loader keeps to. A loaded module stays the same in the runs in which no
file is loaded again while it is compiled. -/
structure Consistent (host : Host φ Value) : Prop where
  /-- each load restores the list of running scripts -/
  restores : ∀ {ok : State Value → Label Value → Prop} {s t : State Value}
    {log ls : List (Label Value)}, History host ok s log → LoadRun host s ls t →
      t.running = s.running
  /-- no body starts while the same file is running -/
  apart : ∀ {ok : State Value → Label Value → Prop} {s s' : State Value}
    {log : List (Label Value)} {fn : String}, History host ok s log → Step host s (.start fn) s' →
      fn ∉ s.running ∧ fn ∉ bodies s.frames
  /-- a body that ends successfully has run from a start of its own -/
  started : ∀ {ok : State Value → Label Value → Prop} {s : State Value} {log : List (Label Value)}
    {fn : String} {v : Value}, History host ok s (.finish fn v :: log) →
      ∃ newer older, log = newer ++ .start fn :: older ∧ ∀ l ∈ newer, ¬ l.About fn
  /-- the body of a loaded module does not run again until a reload -/
  once : ∀ {s : State Value} {newer older : List (Label Value)} {fn : String} {v : Value},
    History host NotCompiled s (newer ++ .finish fn v :: older) → .reload ∉ newer →
      .start fn ∉ newer
  /-- a load of a loaded module returns its exports, unless the host forbids the name -/
  same : ∀ {s : State Value} {newer older : List (Label Value)} {name fn : String} {v : Value}
    {l : Label Value}, History host NotCompiled s (l :: newer ++ .finish fn v :: older) →
      .reload ∉ newer → l.Loads name fn → l = .answer name fn (.exports (some v))
        ∨ host.forbids name = true ∧ l = .answer name fn .failed

/-- What `requireModule` answers for a loaded module. -/
theorem requireModule_loaded {s : State Value} (hinv : Inv s) (h : Fresh s) {fs : φ} {name fn : String}
    {mustExist : Bool} {v : Value} (hfn : host.resolveFileName fs name s.running.getLast? = fn)
    (hmodule : findModule s.modules fn = some v) :
    (requireModule host fs name mustExist s).1 = .answer name fn (.exports (some v))
      ∨ host.forbids name = true
        ∧ (requireModule host fs name mustExist s).1 = .answer name fn .failed := by
  have hrunning : fn ∉ s.running := by
    intro hmem
    rw [h.apart fn (scripts_subset_files (hinv.mem_running.mp hmem))] at hmodule
    cases hmodule
  rcases requireModule_cases host fs name mustExist s with
    ⟨r, heq, hr⟩ | ⟨_, hnone, _⟩
  · rw [hfn] at heq hr
    rw [heq]
    rcases hr with ⟨hforbids, rfl⟩ | hmem | rfl | hnone
    · exact .inr ⟨hforbids, rfl⟩
    · exact absurd hmem hrunning
    · exact .inl (by rw [hmodule])
    · rw [hmodule] at hnone
      cases hnone
  · rw [hfn, hmodule] at hnone
    cases hnone

/-- No module that stays loaded is started again. -/
theorem History.not_started {s : State Value} {newer older : List (Label Value)} {fn : String}
    {v : Value} (h : History host NotCompiled s (newer ++ .finish fn v :: older))
    (hnew : .reload ∉ newer) : .start fn ∉ newer := by
  induction newer generalizing s with
  | nil => exact nofun
  | cons l newer ih =>
    obtain ⟨_, hrest⟩ := not_or.mp (mt List.mem_cons.mpr hnew)
    obtain _ | ⟨h, _, hstep⟩ := h
    intro hmem
    rcases List.mem_cons.mp hmem with heq | hmem
    · obtain ⟨hc, _⟩ := hstep.of_start heq.symm
      have hloaded := h.loaded hrest
      rw [(h.fresh.compiling fn [] hc).2] at hloaded
      cases hloaded
    · exact ih h hrest hmem

/-- Runs in which anything may happen. -/
abbrev AnyHistory (host : Host φ Value) : State Value → List (Label Value) → Prop :=
  History host fun _ _ => True

/-- Every `require` of a name of a loaded module, whatever answers it, returns the exports of the
module. -/
def EveryRequireSame (host : Host φ Value) : Prop :=
  ∀ {s : State Value} {newer older : List (Label Value)} {name fn : String} {v : Value} {fs : φ}
    {l : Label Value}, AnyHistory host s (l :: newer ++ .finish fn v :: older) → .reload ∉ newer →
      host.resolveFileName fs name s.running.getLast? = fn →
      (∀ w, l = .native name w → w = v) ∧ l ≠ .refused name

/-- The body of a loaded module never runs again before a reload. -/
def EveryBodyOnce (host : Host φ Value) : Prop :=
  ∀ {s : State Value} {newer older : List (Label Value)} {fn : String} {v : Value},
    AnyHistory host s (newer ++ .finish fn v :: older) → .reload ∉ newer → .start fn ∉ newer

/-- A host with a file `math`, whose other spelling is `./math`. -/
def mathHost (cb : Option (String → Bool)) (native : String → Option Nat) : Host Unit Nat where
  resolveFileName _ name _ := if name = "./math" then "math" else name
  readFile _ _ _ := .script []
  getSearchTargets _ := (true, true)
  beforeImportModuleCb := cb
  nativeModules := native
  nativeModuleNames := 7

/-- The file is found by the other spelling. -/
theorem mathHost_begin {cb : Option (String → Bool)} {native : String → Option Nat} {s : State Nat}
    (hallowed : (mathHost cb native).forbids "./math" = false) (hrunning : "math" ∉ s.running)
    (hmodule : findModule s.modules "math" = none) :
    requireModule (mathHost cb native) () "./math" true s
      = (.begin "./math" "math", { s with control := .compiling "math" [] }) := by
  have hresolve : ∀ r, (mathHost cb native).resolveFileName () "./math" r = "math" :=
    fun _ => by simp [mathHost]
  have hread : ∀ name, (mathHost cb native).readFile () "math" name = .script [] := fun _ => rfl
  simp [requireModule, hallowed, hresolve, hread, hrunning, hmodule]

/-- A load of the file up to its compilation. -/
theorem mathHost_compiling {cb : Option (String → Bool)} {native : String → Option Nat}
    {s : State Nat} {log : List (Label Nat)} (h : AnyHistory (mathHost cb native) s log)
    (hs : s.control = .script) (hruns : runsScript s.frames = true)
    (hallowed : (mathHost cb native).forbids "./math" = false) (hrunning : "math" ∉ s.running)
    (hmodule : findModule s.modules "math" = none) :
    AnyHistory (mathHost cb native) { s with control := .compiling "math" [] }
      (.begin "./math" "math" :: .silent :: log) := by
  have hcall : AnyHistory (mathHost cb native) { s with control := .calling "./math" true }
      (.silent :: log) := .step h trivial (.hostRequire hs hruns)
  have hload := mathHost_begin (s := { s with control := .calling "./math" true }) hallowed hrunning
    hmodule
  have hstep : Step (mathHost cb native) { s with control := .calling "./math" true } _ _ :=
    Step.load () rfl
  rw [hload] at hstep
  exact .step hcall trivial hstep

/-- The file is loaded with the exports `1`. -/
theorem mathHost_loaded {cb : Option (String → Bool)} {native : String → Option Nat}
    (hallowed : (mathHost cb native).forbids "./math" = false) :
    AnyHistory (mathHost cb native) ⟨[], [("math", 1)], [], [], .script⟩
      [.silent, .finish "math" 1, .start "math", .begin "./math" "math", .silent] := by
  have hbegin := mathHost_compiling .init rfl rfl hallowed List.not_mem_nil rfl
  have hfinish := History.step (.step hbegin trivial (.start rfl)) trivial (.finish 1 rfl rfl)
  exact .step hfinish trivial (.resume rfl rfl)

/-- The file and a native module `math`. -/
def nativeHost : Host Unit Nat := mathHost none fun name => if name = "math" then some 0 else none

/-- The host allows only the other spelling. -/
def guardedHost : Host Unit Nat := mathHost (some fun name => name == "./math") fun _ => none

/-- The native module is found in place of the loaded file. -/
theorem nativeHost_not_same : ¬ EveryRequireSame nativeHost := by
  intro hsame
  have hloaded : AnyHistory nativeHost _ _ := mathHost_loaded rfl
  have hrequire : sqRequire nativeHost "math" true = .value 0 := by
    simp [sqRequire, nativeHost, mathHost, Host.forbids]
  have hlog : AnyHistory nativeHost _ ([.native "math" 0, .silent] ++ .finish "math" 1
      :: [.start "math", .begin "./math" "math", .silent]) :=
    .step hloaded trivial (.native rfl rfl hrequire)
  have hresolve : nativeHost.resolveFileName () "math" none = "math" := by
    simp [nativeHost, mathHost]
  obtain ⟨hvalue, _⟩ := @hsame _ [.silent] _ _ _ _ () _ hlog (by simp) hresolve
  exact absurd (hvalue 0 rfl) (by decide)

/-- The callback of the host refuses the loaded file under another name. -/
theorem guardedHost_not_same : ¬ EveryRequireSame guardedHost := by
  intro hsame
  have hloaded : AnyHistory guardedHost _ _ :=
    mathHost_loaded (by simp [mathHost, Host.forbids])
  have hrequire : sqRequire guardedHost "math" true = .error := by
    simp [sqRequire, guardedHost, mathHost, Host.forbids]
  have hlog : AnyHistory guardedHost _ ([.refused "math", .silent] ++ .finish "math" 1
      :: [.start "math", .begin "./math" "math", .silent]) :=
    .step hloaded trivial (.refused rfl rfl (.inl hrequire))
  have hresolve : guardedHost.resolveFileName () "math" none = "math" := by
    simp [guardedHost, mathHost]
  obtain ⟨_, hrefused⟩ := @hsame _ [.silent] _ _ _ _ () _ hlog (by simp) hresolve
  exact hrefused rfl

/-- A constant initializer of the file loads the file, before its own script starts. -/
theorem mathHost_not_once : ¬ EveryBodyOnce (mathHost none fun _ => none) := by
  intro honce
  have hbegin := @mathHost_compiling none (fun _ => none) _ _ .init rfl rfl rfl
    List.not_mem_nil rfl
  have heval := History.step hbegin trivial (.evaluate rfl)
  have hinner := mathHost_compiling heval rfl rfl rfl List.not_mem_nil rfl
  have hfinish := History.step (.step hinner trivial (.start rfl)) trivial (.finish 1 rfl rfl)
  have hback := History.step (.step hfinish trivial (.resume rfl rfl)) trivial (.evaluated rfl rfl)
  have hagain := History.step hback trivial (.start rfl)
  exact @honce _ [.start "math", .silent, .silent] _ "math" 1 hagain (by simp) (by simp)

end Quirrel.Modules
