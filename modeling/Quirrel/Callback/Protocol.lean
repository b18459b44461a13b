import Quirrel.Callback.Methods

/-!
# The protocol of a callback

In each iteration the callback gets the longest prefix of the promised arguments that it accepts, and
the stack is as high afterwards as it was before. Whether a loop does so depends on the parameters of
the callback alone (`callback_protocol_iff`): it must take as many arguments as the loop pushes in
any case, no more than the loop can push, and with a variable number of them all that it can push.
-/

set_option autoImplicit false

namespace Quirrel.Callback

open Lib

variable {ω σ : Type}

/-! ## The protocol -/

/-- The longest accepted prefix of `n` arguments, `this` included. -/
def Closure.longestAccepted (callee : Closure) : Nat → Option Nat
  | 0 => none
  | n + 1 => if callee.accepts (n + 1) then some (n + 1) else callee.longestAccepted n

/-- What the callback is to be run with: no prefix is accepted, or the types of the longest one are
refused, or it is passed. -/
def expected (vm : Vm ω σ) (c : ω) (callee : Closure) (documented : List (Value ω)) :
    Option (List (Value ω)) :=
  match callee.longestAccepted documented.length with
  | some n =>
    if vm.typesOk c (documented.take n) then some (withEnv (vm.env c) (documented.take n)) else none
  | none => none

/-- The iteration keeps to the protocol. Where the callback is not called, its parameters are wrong. -/
structure Iteration.Follows (vm : Vm ω σ) (c : ω) (callee : Closure) (it : Iteration ω) : Prop where
  args : ∃ documented, it.documented = some documented ∧
    it.passed = expected vm c callee documented
  raised : it.passed = none → it.refused = true
  height : it.after = some it.before

/-- The callback takes any number of further arguments. -/
def Closure.Variadic : Closure → Prop
  | .closure f => f.varparams = true
  | .nativeclosure _ => False

/-- The number of arguments suits a loop that pushes `always` of them and can push two more. -/
structure Closure.Fits (always : Nat) (callee : Closure) : Prop where
  always_le : always ≤ getAllowedArgsCount callee (always + 2)
  le_supported : getAllowedArgsCount callee (always + 2) ≤ always + 2
  variadic : callee.Variadic → getAllowedArgsCount callee (always + 2) = always + 2

/-! ## Callbacks that suit the loop -/

/-- A closure accepts as many arguments as it has parameters. -/
theorem accepts_nparameters (f : FunctionProto) : (Closure.closure f).accepts f.nparameters := by
  rw [Closure.accepts]
  split
  · exact decide_eq_true (Nat.sub_le _ _)
  · exact decide_eq_true (Or.inl rfl)

/-- When all arguments are accepted all are passed. -/
theorem longestAccepted_of_accepts {callee : Closure} {n : Nat} (hpos : 0 < n)
    (h : callee.accepts n) : callee.longestAccepted n = some n := by
  cases n with
  | zero => exact absurd hpos (Nat.lt_irrefl 0)
  | succ n => rw [Closure.longestAccepted, if_pos h]

/-- Numbers of arguments that are not accepted are skipped. -/
theorem longestAccepted_skip {callee : Closure} {n k : Nat} (hpos : 0 < n) (h : callee.accepts n)
    (hnot : ∀ m, n < m → m ≤ n + k → callee.accepts m = false) :
    callee.longestAccepted (n + k) = some n := by
  induction k with
  | zero => exact longestAccepted_of_accepts hpos h
  | succ k ih =>
    have hlast := hnot (n + k + 1) (by omega) (Nat.le_refl _)
    rw [← Nat.add_assoc, Closure.longestAccepted, hlast]
    exact ih fun m hlt hle => hnot m hlt (Nat.le_succ_of_le hle)

/-- A callback that accepts none of the numbers. -/
theorem longestAccepted_none {callee : Closure} {n : Nat}
    (h : ∀ m, 0 < m → m ≤ n → callee.accepts m = false) : callee.longestAccepted n = none := by
  induction n with
  | zero => rfl
  | succ n ih =>
    rw [Closure.longestAccepted, h (n + 1) (Nat.succ_pos n) (Nat.le_refl _)]
    exact ih fun m hpos hle => h m hpos (Nat.le_succ_of_le hle)

/-- The loop calls a callback that suits it with the longest prefix, if there is one. -/
theorem longestAccepted_of_fits {always : Nat} {callee : Closure} (h : callee.Fits always)
    (hpos : 0 < always) :
    callee.longestAccepted (always + 2) =
      if callee.accepts (getAllowedArgsCount callee (always + 2)) then
        some (getAllowedArgsCount callee (always + 2)) else none := by
  have hle := h.always_le
  have hge := h.le_supported
  have hvar := h.variadic
  cases callee with
  | closure f =>
    rw [getAllowedArgsCount] at hle hge hvar ⊢
    rw [if_pos (accepts_nparameters f)]
    obtain ⟨k, hk⟩ := Nat.exists_eq_add_of_le hge
    rw [hk]
    apply longestAccepted_skip (by omega) (accepts_nparameters f)
    intro m hlt hlem
    rw [Closure.accepts]
    by_cases hv : f.varparams = true
    · -- all arguments are passed already
      have hall := hvar hv
      omega
    · rw [if_neg hv]
      exact decide_eq_false (by omega)
  | nativeclosure p =>
    rw [getAllowedArgsCount] at hle hge ⊢
    by_cases hp : 0 < p
    · rw [if_pos hp] at hle hge ⊢
      have hacc : (Closure.nativeclosure p).accepts p.toNat = true :=
        decide_eq_true (Or.inr (Or.inl ⟨hp, by omega⟩))
      rw [if_pos hacc]
      obtain ⟨k, hk⟩ := Nat.exists_eq_add_of_le hge
      rw [hk]
      apply longestAccepted_skip (by omega) hacc
      intro m hlt hlem
      exact decide_eq_false (by omega)
    · rw [if_neg hp]
      by_cases hacc : (Closure.nativeclosure p).accepts (always + 2) = true
      · rw [if_pos hacc]
        exact longestAccepted_of_accepts (by omega) hacc
      · rw [if_neg hacc]
        apply longestAccepted_none
        intro m hm hlem
        rw [Closure.accepts, decide_eq_true_iff] at hacc
        exact decide_eq_false (by omega)

/-- As many arguments are pushed as the call takes. -/
theorem pushedArgs_of_fits {nArgs : Nat} {always : List (Value ω)} (key o : Value ω)
    (h1 : always.length ≤ nArgs) (h2 : nArgs ≤ always.length + 2) :
    pushedArgs nArgs always key o = (always ++ [key, o]).take nArgs := by
  rcases Nat.lt_trichotomy nArgs (always.length + 1) with hlt | heq | hgt
  · have hn : nArgs = always.length := by omega
    rw [pushedArgs, if_neg (by omega), if_neg (by omega), hn]
    simp
  · rw [pushedArgs, if_pos (by omega), if_neg (by omega), heq, List.append_nil,
      List.take_length_add_append]
    rfl
  · have hn : nArgs = always.length + 2 := by omega
    rw [pushedArgs, if_pos (by omega), if_pos (by omega), hn, List.take_length_add_append]
    simp

/-- A call that comes back has left the stack below its arguments alone, and unless it was stopped by
the limit of native calls it got what the protocol says. -/
structure Invoked.Back (vm : Vm ω σ) (c : ω) (callee : Closure) (nArgs : Nat)
    (promised : Option (List (Value ω))) (before : Nat) (f g : Frame ω σ) (it : Iteration ω) :
    Prop where
  stack : g.stack.take f.top = f.stack
  top : g.top = f.top + nArgs
  stackbase : g.stackbase = f.stackbase
  log : g.log = f.log
  documented : it.documented = promised
  bound : it.bound = true
  before : it.before = before
  passed : it.entered = true → ∀ doc, promised = some doc → it.passed = expected vm c callee doc
  raised : it.passed = none → it.refused = it.entered
  entered : ∀ args, it.passed = some args → it.entered = true

/-- The call does not come back: the frame of the callee found no room, or an earlier call has moved the
stack. -/
structure Invoked.Lost (f g : Frame ω σ) (it : Iteration ω) : Prop where
  log : g.log = f.log ++ [it]
  stopped : ¬ (it.entered = true ∧ it.bound = true)
  after : it.after = none

/-- A call with arguments that fit comes back to the native or is lost. -/
theorem invoke_of_fits {vm : Vm ω σ} {c : ω} {callee : Closure} {always : List (Value ω)}
    {documented : Option (List (Value ω))} {f : Frame ω σ} (key o : Value ω) (before : Nat)
    (hc : f.stackGet 2 = .object c) (hcallee : vm.callee c = some callee)
    (hfits : callee.Fits always.length) (hpos : 0 < always.length)
    (hdoc : ∀ doc, documented = some doc → doc = always ++ [key, o]) :
    match invoke vm (getAllowedArgsCount callee (always.length + 2)) always key o documented before
        f with
    | .lost g => ∃ it, Invoked.Lost f g it
    | .back g it _ =>
      Invoked.Back vm c callee (getAllowedArgsCount callee (always.length + 2)) documented before
        f g it := by
  have hpushed := pushedArgs_of_fits key o hfits.always_le hfits.le_supported
  have hlongest := longestAccepted_of_fits hfits hpos
  generalize hn : getAllowedArgsCount callee (always.length + 2) = nArgs at hpushed hlongest ⊢
  have hle : nArgs ≤ always.length + 2 := hn ▸ hfits.le_supported
  have hlen : (pushedArgs nArgs always key o).length = nArgs := by
    rw [hpushed, List.length_take, List.length_append]
    exact Nat.min_eq_left hle
  have htop : (f.push (pushedArgs nArgs always key o)).top = f.top + nArgs := by
    rw [Frame.top, Frame.push, List.length_append, hlen]
    rfl
  have hargs : (f.push (pushedArgs nArgs always key o)).stack.drop
      ((f.push (pushedArgs nArgs always key o)).top - nArgs) = pushedArgs nArgs always key o := by
    rw [htop, Nat.add_sub_cancel]
    exact List.drop_left
  -- what the protocol says about the arguments of this loop
  have hexp : ∀ doc, documented = some doc → expected vm c callee doc =
      if callee.accepts nArgs = true ∧ vm.typesOk c (pushedArgs nArgs always key o) = true then
        some (withEnv (vm.env c) (pushedArgs nArgs always key o)) else none := by
    intro doc hd
    rw [hdoc doc hd, expected, List.length_append]
    show (match callee.longestAccepted (always.length + 2) with
      | some n => _
      | none => _) = _
    rw [hlongest]
    by_cases hacc : callee.accepts nArgs = true
    · rw [if_pos hacc]
      simp only [hacc, true_and, hpushed]
    · rw [if_neg hacc, if_neg fun h => hacc h.1]
  rw [invoke]
  by_cases hbound : f.bound = true
  · rw [if_pos hbound, hc, call]
    simp only [hcallee]
    by_cases hdeep : maxNativeCalls < vm.nativeCalls + 1
    · rw [if_pos hdeep]
      exact ⟨List.take_left, htop, rfl, rfl, rfl, hbound, rfl, nofun, fun _ => rfl, nofun⟩
    rw [if_neg hdeep, if_neg (by omega), hargs]
    by_cases hok : callee.accepts nArgs = true ∧
        vm.typesOk c (pushedArgs nArgs always key o) = true
    · rw [if_pos ((Bool.and_eq_true _ _).mpr hok)]
      by_cases hroom : vm.hasRoom c (pushedArgs nArgs always key o)
          (f.push (pushedArgs nArgs always key o)).heap = true
      · rw [if_pos hroom]
        refine ⟨?_, ?_, rfl, rfl, rfl, hbound, rfl, fun _ doc hd => ?_, nofun, fun _ _ => rfl⟩
        · rw [Frame.returned, htop, Nat.add_sub_cancel, List.take_append_of_le_length]
          · rw [List.take_take, Nat.min_self]
            exact List.take_left
          · rw [List.length_take, ← Frame.top, htop]
            omega
        · rw [Frame.top, Frame.returned, List.length_append, List.length_take, List.length_map,
            List.length_range, ← Frame.top, htop]
          omega
        · rw [hexp doc hd, if_pos hok]
      · rw [if_neg hroom]
        exact ⟨_, rfl, fun h => (nomatch h.1), rfl⟩
    · rw [if_neg (fun h => hok ((Bool.and_eq_true _ _).mp h))]
      refine ⟨List.take_left, htop, rfl, rfl, rfl, hbound, rfl, fun _ doc hd => ?_, fun _ => rfl, nofun⟩
      rw [hexp doc hd, if_neg hok]
  · rw [if_neg hbound]
    exact ⟨_, rfl, fun h => hbound h.2, rfl⟩

/-! ## Runs -/

/-- The protocol is kept exactly where there is an element for the promise, the callee can be entered and
the references are valid. -/
def Iteration.Good (vm : Vm ω σ) (c : ω) (callee : Closure) (it : Iteration ω) : Prop :=
  it.Follows vm c callee ↔ it.documented.isSome ∧ it.entered = true ∧ it.bound = true

/-- The frame of a method as it is between two iterations. -/
structure Kept (vm : Vm ω σ) (c : ω) (callee : Closure) (stack : List (Value ω)) (base : Nat)
    (f : Frame ω σ) : Prop where
  stack : f.stack = stack
  stackbase : f.stackbase = base
  log : ∀ it ∈ f.log, it.Good vm c callee

/-- The arguments of the method in its frame. -/
structure Arguments (vm : Vm ω σ) (o c : ω) (callee : Closure) (stack : List (Value ω))
    (base : Nat) : Prop where
  container : stack[base]? = some (.object o)
  callback : stack[base + 1]? = some (.object c)
  callee : vm.callee c = some callee

section Run

variable {vm : Vm ω σ} {o c : ω} {callee : Closure} {stack : List (Value ω)} {base : Nat}

theorem stackGet_of_getElem? {f : Frame ω σ} {rest : List (Value ω)} {i : Nat} {v : Value ω}
    (hstack : f.stack = stack ++ rest) (hbase : f.stackbase = base)
    (h : stack[base + i]? = some v) : f.stackGet (i + 1) = v := by
  have hlt := (List.getElem?_eq_some_iff.mp h).1
  rw [Frame.stackGet, hstack, hbase, ← Nat.add_assoc, Nat.add_sub_cancel,
    List.getElem?_append_left hlt, h]
  rfl

/-- The native reads its arguments from the stack. -/
theorem Arguments.stackGet (h : Arguments vm o c callee stack base) {f : Frame ω σ}
    {rest : List (Value ω)} (hstack : f.stack = stack ++ rest) (hbase : f.stackbase = base) :
    f.stackGet 1 = .object o ∧ f.stackGet 2 = .object c :=
  ⟨stackGet_of_getElem? hstack hbase (i := 0) h.container,
    stackGet_of_getElem? hstack hbase (i := 1) h.callback⟩

/-- A call that comes back is good. -/
theorem good_of_back {nArgs before : Nat} {promised : Option (List (Value ω))} {f g : Frame ω σ}
    {it : Iteration ω} (h : Invoked.Back vm c callee nArgs promised before f g it) :
    Iteration.Good vm c callee { it with after := some before } := by
  constructor
  · rintro ⟨⟨doc, hdoc, -⟩, hraised, -⟩
    refine ⟨Option.isSome_iff_exists.mpr ⟨doc, hdoc⟩, ?_, h.bound⟩
    cases hpassed : it.passed with
    | none => exact (h.raised hpassed).symm.trans (hraised hpassed)
    | some args => exact h.entered args hpassed
  · rintro ⟨hsome, hentered, -⟩
    obtain ⟨doc, hdoc⟩ := Option.isSome_iff_exists.mp hsome
    exact ⟨⟨doc, hdoc, h.passed hentered doc (h.documented ▸ hdoc)⟩,
      fun hpassed => (h.raised hpassed).trans hentered, congrArg some h.before.symm⟩

/-- A call that does not come back is good. -/
theorem good_of_lost {f g : Frame ω σ} {it : Iteration ω} (h : Invoked.Lost f g it) :
    it.Good vm c callee := by
  constructor
  · intro hf
    exact absurd (h.after.symm.trans hf.height) (by simp)
  · rintro ⟨-, hgood⟩
    exact absurd hgood h.stopped

/-- Good iterations and one more. -/
theorem forall_good_append {log : List (Iteration ω)} {it : Iteration ω}
    (hlog : ∀ it ∈ log, it.Good vm c callee) (h : it.Good vm c callee) :
    ∀ it' ∈ log ++ [it], it'.Good vm c callee := by
  intro it' hmem
  rcases List.mem_append.mp hmem with hold | hnew
  · exact hlog it' hold
  · exact List.mem_singleton.mp hnew ▸ h

/-- The end of an iteration that began on `stack`, with `extra` cells of its own below the arguments.
The heap may have changed. -/
theorem Kept.finish {nArgs extra : Nat} {promised : Option (List (Value ω))} {f g : Frame ω σ}
    {it : Iteration ω} (h : Invoked.Back vm c callee nArgs promised stack.length f g it)
    (hstack : f.stack.take stack.length = stack) (htop : f.top = stack.length + extra)
    (hbase : f.stackbase = base) (hlog : ∀ it ∈ f.log, it.Good vm c callee) (heap : σ) :
    Kept vm c callee stack base
      ((({ g with heap := heap } : Frame ω σ).pop (extra + nArgs)).finish it) := by
  have hcells : g.stack.take (g.top - (extra + nArgs)) = stack := by
    have hheight : g.top - (extra + nArgs) = min stack.length f.top := by
      rw [h.top, htop]
      omega
    rw [hheight, ← List.take_take, h.stack, hstack]
  refine ⟨hcells, h.stackbase.trans hbase, ?_⟩
  have hafter : (({ g with heap := heap } : Frame ω σ).pop (extra + nArgs)).top = stack.length :=
    congrArg List.length hcells
  show ∀ it' ∈ g.log ++ [_], _
  rw [hafter, h.log]
  exact forall_good_append hlog (good_of_back h)

/-- The method returns from within an iteration. -/
theorem good_leave {nArgs before : Nat} {promised : Option (List (Value ω))} {f g : Frame ω σ}
    {it : Iteration ω} (h : Invoked.Back vm c callee nArgs promised before f g it)
    (hlog : ∀ it ∈ f.log, it.Good vm c callee) :
    ∀ it' ∈ (g.leave it).log, it'.Good vm c callee := by
  have hgood := good_of_back h
  rw [← h.before] at hgood
  show ∀ it' ∈ g.log ++ [_], _
  rw [h.log]
  exact forall_good_append hlog hgood

/-- The call of an iteration, by what follows on it. -/
theorem satisfies_andThen {L : Type} {always : List (Value ω)}
    {promised : Option (List (Value ω))} {f : Frame ω σ} {key container : Value ω} {before : Nat}
    {Inv : Frame ω σ × L → Prop} {k : Frame ω σ → Iteration ω → Except Raised (Value ω) →
      LoopStep ω σ L}
    (hc : f.stackGet 2 = .object c) (hcallee : vm.callee c = some callee)
    (hfits : callee.Fits always.length) (hpos : 0 < always.length)
    (hdoc : ∀ doc, promised = some doc → doc = always ++ [key, container])
    (hlog : ∀ it ∈ f.log, it.Good vm c callee)
    (hk : ∀ g it res, Invoked.Back vm c callee (getAllowedArgsCount callee (always.length + 2))
      promised before f g it →
      (k g it res).Satisfies Inv fun r => ∀ it ∈ r.1.log, it.Good vm c callee) :
    ((invoke vm (getAllowedArgsCount callee (always.length + 2)) always key container promised
      before f).andThen k).Satisfies Inv fun r => ∀ it ∈ r.1.log, it.Good vm c callee := by
  have hcall := invoke_of_fits key container before hc hcallee hfits hpos hdoc
  cases hx : invoke vm (getAllowedArgsCount callee (always.length + 2)) always key container
      promised before f with
  | lost g =>
    rw [hx] at hcall
    obtain ⟨it, hlost⟩ := hcall
    show ∀ it ∈ g.log, _
    rw [hlost.log]
    exact forall_good_append hlog (good_of_lost hlost)
  | back g it res =>
    rw [hx] at hcall
    exact hk g it res hcall

/-! ### The iterations of each loop -/

variable (hargs : Arguments vm o c callee stack base)

include hargs in
/-- An iteration of a loop that begins on the arguments of the method. -/
theorem satisfies_of_kept {L : Type} {always : List (Value ω)}
    {promised : Option (List (Value ω))} {f : Frame ω σ} {key : Value ω}
    {k : Frame ω σ → Iteration ω → Except Raised (Value ω) → LoopStep ω σ L}
    (hf : Kept vm c callee stack base f) (hfits : callee.Fits always.length)
    (hpos : 0 < always.length)
    (hdoc : ∀ doc, promised = some doc → doc = always ++ [key, .object o])
    (hk : ∀ g it res,
      (∀ heap, Kept vm c callee stack base ((({ g with heap := heap } : Frame ω σ).pop
        (getAllowedArgsCount callee (always.length + 2))).finish it)) →
      (k g it res).Satisfies (fun s => Kept vm c callee stack base s.1)
        fun r => ∀ it ∈ r.1.log, it.Good vm c callee) :
    ((invoke vm (getAllowedArgsCount callee (always.length + 2)) always key (.object o) promised
      f.top f).andThen k).Satisfies (fun s => Kept vm c callee stack base s.1)
        fun r => ∀ it ∈ r.1.log, it.Good vm c callee := by
  have hstack : f.stack = stack ++ [] := by rw [hf.stack, List.append_nil]
  have htop : f.top = stack.length + 0 := by rw [Frame.top, hf.stack, Nat.add_zero]
  apply satisfies_andThen (hargs.stackGet hstack hf.stackbase).2 hargs.callee hfits hpos hdoc hf.log
  intro g it res hback
  apply hk g it res
  intro heap
  rw [htop] at hback
  have hkept := Kept.finish hback (by rw [hf.stack, List.take_length]) htop
    hf.stackbase hf.log heap
  rwa [Nat.zero_add] at hkept

include hargs in
/-- One iteration of `map` on an array. -/
theorem mapArrayStep_kept (hfits : callee.Fits 2) (size : Nat) (append : Bool)
    (s : Frame ω σ × MapLocals ω) (hs : Kept vm c callee stack base s.1) :
    (mapArrayStep vm o size (getAllowedArgsCount callee 4) append s).Satisfies
      (fun s => Kept vm c callee stack base s.1) fun r => ∀ it ∈ r.1.log, it.Good vm c callee := by
  obtain ⟨f, n, temp, dest⟩ := s
  rw [mapArrayStep]
  split
  · refine satisfies_of_kept hargs hs hfits (Nat.succ_pos _) ?_ ?_
    · intro doc hdoc
      obtain ⟨v, hv, rfl⟩ := Option.map_eq_some_iff.mp hdoc
      rw [hv]
      rfl
    · intro g it res hkept
      cases res with
      | error e =>
        simp only
        split
        · exact hkept g.heap
        · exact (hkept g.heap).log
      | ok r =>
        simp only
        split
        · exact hkept g.heap
        · exact hkept _
  · exact hs.log

include hargs in
/-- One iteration of `reduce` on an array. -/
theorem arrayReduceStep_kept (hfits : callee.Fits 3) (size : Nat)
    (s : Frame ω σ × ReduceLocals ω) (hs : Kept vm c callee stack base s.1) :
    (arrayReduceStep vm o size (getAllowedArgsCount callee 5) s).Satisfies
      (fun s => Kept vm c callee stack base s.1) fun r => ∀ it ∈ r.1.log, it.Good vm c callee := by
  obtain ⟨f, n, accum, other⟩ := s
  have hself : f.stackGet 1 = .object o :=
    (hargs.stackGet (hs.stack.trans (List.append_nil stack).symm) hs.stackbase).1
  rw [arrayReduceStep, hself]
  split
  · refine satisfies_of_kept hargs hs hfits (Nat.succ_pos _) ?_ ?_
    · intro doc hdoc
      obtain ⟨v, hv, rfl⟩ := Option.map_eq_some_iff.mp hdoc
      rw [hv]
      rfl
    · intro g it res hkept
      cases res with
      | error e => exact (hkept g.heap).log
      | ok r => exact hkept g.heap
  · exact hs.log

include hargs in
/-- One iteration of `filter` on an array. -/
theorem arrayFilterStep_kept (hfits : callee.Fits 2) (size : Nat)
    (s : Frame ω σ × FilterLocals ω) (hs : Kept vm c callee stack base s.1) :
    (arrayFilterStep vm o size (getAllowedArgsCount callee 4) s).Satisfies
      (fun s => Kept vm c callee stack base s.1) fun r => ∀ it ∈ r.1.log, it.Good vm c callee := by
  obtain ⟨f, n, val, ret⟩ := s
  have hself : f.stackGet 1 = .object o :=
    (hargs.stackGet (hs.stack.trans (List.append_nil stack).symm) hs.stackbase).1
  rw [arrayFilterStep, hself]
  split
  · refine satisfies_of_kept hargs hs hfits (Nat.succ_pos _) ?_ ?_
    · intro doc hdoc
      obtain ⟨v, hv, rfl⟩ := Option.map_eq_some_iff.mp hdoc
      rw [hv]
      rfl
    · intro g it res hkept
      cases res with
      | error e => exact (hkept g.heap).log
      | ok r => exact hkept g.heap
  · exact hs.log

include hargs in
/-- One iteration of `map` on a table. -/
theorem mapTableStep_kept (hfits : callee.Fits 2)
    (s : Frame ω σ × TableLocals ω) (hs : Kept vm c callee stack base s.1) :
    (mapTableStep vm o (getAllowedArgsCount callee 4) s).Satisfies
      (fun s => Kept vm c callee stack base s.1) fun r => ∀ it ∈ r.1.log, it.Good vm c callee := by
  obtain ⟨f, itr, dest⟩ := s
  rw [mapTableStep]
  split
  · exact hs.log
  · refine satisfies_of_kept hargs hs hfits (Nat.succ_pos _) (fun doc hdoc => ?_) ?_
    · exact (Option.some.inj hdoc).symm
    · intro g it res hkept
      cases res with
      | error e =>
        simp only
        split
        · exact hkept g.heap
        · exact (hkept g.heap).log
      | ok r => exact hkept g.heap

include hargs in
/-- One iteration of `filter` on a table. -/
theorem tableFilterStep_kept (hfits : callee.Fits 2)
    (s : Frame ω σ × TableLocals ω) (hs : Kept vm c callee stack base s.1) :
    (tableFilterStep vm o (getAllowedArgsCount callee 4) s).Satisfies
      (fun s => Kept vm c callee stack base s.1) fun r => ∀ it ∈ r.1.log, it.Good vm c callee := by
  obtain ⟨f, itr, ret⟩ := s
  have hself : f.stackGet 1 = .object o :=
    (hargs.stackGet (hs.stack.trans (List.append_nil stack).symm) hs.stackbase).1
  rw [tableFilterStep, hself]
  split
  · exact hs.log
  · refine satisfies_of_kept hargs hs hfits (Nat.succ_pos _) (fun doc hdoc => ?_) ?_
    · exact (Option.some.inj hdoc).symm
    · intro g it res hkept
      cases res with
      | error e => exact (hkept g.heap).log
      | ok r => exact hkept g.heap

include hargs in
/-- One iteration of `reduce` on a table. -/
theorem tableReduceStep_kept (hfits : callee.Fits 3)
    (s : Frame ω σ × TableReduceLocals ω) (hs : Kept vm c callee stack base s.1) :
    (tableReduceStep vm o (getAllowedArgsCount callee 5) s).Satisfies
      (fun s => Kept vm c callee stack base s.1) fun r => ∀ it ∈ r.1.log, it.Good vm c callee := by
  obtain ⟨f, itr, accum⟩ := s
  have hself : f.stackGet 1 = .object o :=
    (hargs.stackGet (hs.stack.trans (List.append_nil stack).symm) hs.stackbase).1
  rw [tableReduceStep.eq_def]
  simp only [hself]
  split
  · exact hs.log
  · cases accum with
    | none => exact hs
    | some accum =>
      refine satisfies_of_kept hargs hs hfits (Nat.succ_pos _) (fun doc hdoc => ?_) ?_
      · exact (Option.some.inj hdoc).symm
      · intro g it res hkept
        cases res with
        | error e => exact (hkept g.heap).log
        | ok r => exact hkept g.heap

/-- `sq_next` changes the iterator and pushes two cells. -/
theorem sqNext_eq_some {f f' : Frame ω σ} {key val : Value ω}
    (h : sqNext vm f = some (key, val, f')) :
    ∃ itr, f'.stack = f.stack.dropLast ++ [itr, key, val] ∧ f'.stackbase = f.stackbase ∧
      f'.log = f.log := by
  rw [sqNext] at h
  split at h
  · split at h
    · cases h
      exact ⟨_, rfl, rfl, rfl⟩
    · exact nomatch h
  · exact nomatch h

/-- The frame between two iterations of a loop with the iterator on the stack. -/
def KeptIterator (vm : Vm ω σ) (c : ω) (callee : Closure) (stack : List (Value ω)) (base : Nat)
    (f : Frame ω σ) : Prop :=
  ∃ itr, Kept vm c callee (stack ++ [itr]) base f

include hargs in
/-- An iteration of a loop that begins on the iterator. -/
theorem satisfies_of_keptIterator {f f' : Frame ω σ} {key val : Value ω}
    {k : Frame ω σ → Iteration ω → Except Raised (Value ω) → LoopStep ω σ Unit}
    (hf : KeptIterator vm c callee stack base f) (hfits : callee.Fits 2)
    (hnext : sqNext vm f = some (key, val, f'))
    (hk : ∀ g it res,
      KeptIterator vm c callee stack base ((g.pop (2 + getAllowedArgsCount callee 4)).finish it) →
      (∀ it' ∈ (g.leave it).log, it'.Good vm c callee) →
      (k g it res).Satisfies (fun s => KeptIterator vm c callee stack base s.1)
        fun r => ∀ it ∈ r.1.log, it.Good vm c callee) :
    ((invoke vm (getAllowedArgsCount callee 4) [.null, val] key (f.stackGet 1)
      (some (elementArgs (.object o) key val)) f.top f').andThen k).Satisfies
        (fun s => KeptIterator vm c callee stack base s.1)
        fun r => ∀ it ∈ r.1.log, it.Good vm c callee := by
  obtain ⟨itr, hkept⟩ := hf
  obtain ⟨itr', hstack', hbase', hlog'⟩ := sqNext_eq_some hnext
  have hself := (hargs.stackGet hkept.stack hkept.stackbase).1
  have htop : f.top = (stack ++ [itr']).length := by
    rw [Frame.top, hkept.stack, List.length_append, List.length_append]
    rfl
  have hcells : f'.stack = (stack ++ [itr']) ++ [key, val] := by
    rw [hstack', hkept.stack, List.dropLast_concat, List.append_assoc]
    rfl
  have hbase : f'.stackbase = base := hbase'.trans hkept.stackbase
  have hlog : ∀ it ∈ f'.log, it.Good vm c callee := hlog' ▸ hkept.log
  have hcall := (hargs.stackGet (hcells.trans (List.append_assoc ..)) hbase).2
  rw [hself]
  refine satisfies_andThen hcall hargs.callee hfits (Nat.succ_pos _) (fun doc hdoc => ?_) hlog ?_
  · exact (Option.some.inj hdoc).symm
  · intro g it res hback
    rw [htop] at hback
    refine hk g it res ⟨itr', ?_⟩ (good_leave hback hlog)
    refine Kept.finish hback ?_ ?_ hbase hlog g.heap
    · rw [hcells, List.take_left]
    · rw [Frame.top, hcells, List.length_append]
      rfl

include hargs in
/-- One iteration of `each`. -/
theorem containerEachStep_kept (hfits : callee.Fits 2) (s : Frame ω σ × Unit)
    (hs : KeptIterator vm c callee stack base s.1) :
    (containerEachStep vm o (getAllowedArgsCount callee 4) s).Satisfies
      (fun s => KeptIterator vm c callee stack base s.1)
      fun r => ∀ it ∈ r.1.log, it.Good vm c callee := by
  obtain ⟨f, u⟩ := s
  rw [containerEachStep]
  split
  · obtain ⟨itr, hkept⟩ := hs
    exact hkept.log
  · rename_i key val f' hnext
    refine satisfies_of_keptIterator hargs hs hfits hnext ?_
    intro g it res hkept hleave
    cases res with
    | error e =>
      obtain ⟨itr, hiter⟩ := hkept
      exact hiter.log
    | ok r => exact hkept

include hargs in
/-- One iteration of the natives that search. -/
theorem findStep_kept (hfits : callee.Fits 2) (offset : Nat) (default : Ret ω)
    (s : Frame ω σ × Unit) (hs : KeptIterator vm c callee stack base s.1) :
    (findStep vm o (getAllowedArgsCount callee 4) offset default s).Satisfies
      (fun s => KeptIterator vm c callee stack base s.1)
      fun r => ∀ it ∈ r.1.log, it.Good vm c callee := by
  obtain ⟨f, u⟩ := s
  rw [findStep]
  split
  · obtain ⟨itr, hkept⟩ := hs
    exact hkept.log
  · rename_i key val f' hnext
    refine satisfies_of_keptIterator hargs hs hfits hnext ?_
    intro g it res hkept hleave
    cases res with
    | error e => exact hleave
    | ok r =>
      simp only
      split
      · exact hkept
      · exact hleave

end Run

/-- The frame of a method when it is entered. -/
structure Frame.Calls (o c : ω) (f : Frame ω σ) : Prop where
  container : f.stack[f.stackbase]? = some (.object o)
  callback : f.stack[f.stackbase + 1]? = some (.object c)
  bound : f.bound = true
  log : f.log = []

theorem Frame.Calls.stackGet {o c : ω} {f : Frame ω σ} (h : f.Calls o c) :
    f.stackGet 1 = .object o ∧ f.stackGet 2 = .object c := by
  have hstack : f.stack = f.stack ++ [] := (List.append_nil _).symm
  exact ⟨stackGet_of_getElem? hstack rfl (i := 0) h.container,
    stackGet_of_getElem? hstack rfl (i := 1) h.callback⟩

/-- A native is its loop, once the callback is read. -/
theorem run_eq_loop {vm : Vm ω σ} {o c : ω} {callee : Closure} {f : Frame ω σ} (h : f.Calls o c)
    (hcallee : vm.callee c = some callee) (fuel : Nat) (m : Method) :
    m.run vm fuel f =
      m.loop vm fuel o (getAllowedArgsCount callee m.supported) f.stack[f.stackbase + 2]? f := by
  rw [Method.run, h.stackGet.1, h.stackGet.2]
  simp only [hcallee]

theorem log_outcome {L : Type} {Inv : Frame ω σ → Prop} {P : Iteration ω → Prop}
    {x : LoopStep ω σ L} (hinv : ∀ f, Inv f → ∀ it ∈ f.log, P it)
    (h : x.Satisfies (fun s => Inv s.1) fun r => ∀ it ∈ r.1.log, P it) :
    ∀ it ∈ (outcome x).1.log, P it := by
  cases x with
  | next s => exact hinv s.1 h
  | done r => exact h

/-- A method whose callback suits it keeps to the protocol wherever it can. -/
theorem run_good {vm : Vm ω σ} {o c : ω} {callee : Closure} {f : Frame ω σ} (h : f.Calls o c)
    (hcallee : vm.callee c = some callee) (m : Method) (hfits : callee.Fits m.always)
    (fuel : Nat) : ∀ it ∈ (m.run vm fuel f).1.log, it.Good vm c callee := by
  have hargs : Arguments vm o c callee f.stack f.stackbase := ⟨h.container, h.callback, hcallee⟩
  have hnone : ∀ it ∈ f.log, it.Good vm c callee := by simp [h.log]
  have hf : Kept vm c callee f.stack f.stackbase f := ⟨rfl, rfl, hnone⟩
  have hiter : KeptIterator vm c callee f.stack f.stackbase (f.push [.null]) :=
    ⟨.null, rfl, rfl, hnone⟩
  have hlog {L : Type} {x : LoopStep ω σ L}
      (hx : x.Satisfies (fun s => Kept vm c callee f.stack f.stackbase s.1)
        fun r => ∀ it ∈ r.1.log, it.Good vm c callee) :
      ∀ it ∈ (outcome x).1.log, it.Good vm c callee :=
    log_outcome (fun _ hk => hk.log) hx
  have hlogIter {x : LoopStep ω σ Unit}
      (hx : x.Satisfies (fun s => KeptIterator vm c callee f.stack f.stackbase s.1)
        fun r => ∀ it ∈ r.1.log, it.Good vm c callee) :
      ∀ it ∈ (outcome x).1.log, it.Good vm c callee :=
    log_outcome (fun _ ⟨_, hk⟩ => hk.log) hx
  rw [run_eq_loop h hcallee]
  cases m with
  | arrayMap =>
    exact hlog (Step.iterate_satisfies (mapArrayStep_kept hargs hfits _ true) fuel hf)
  | arrayApply =>
    exact hlog (Step.iterate_satisfies (mapArrayStep_kept hargs hfits _ false) fuel hf)
  | arrayReduce =>
    have hrun (n : Nat) (accum : Value ω) :=
      hlog (Step.iterate_satisfies (arrayReduceStep_kept hargs hfits (vm.arrays f.heap o).length)
        fuel (show Kept vm c callee f.stack f.stackbase (f, (⟨n, accum, .null⟩ : ReduceLocals ω)).1
          from hf))
    rw [Method.loop.eq_def]
    simp only
    split
    · exact hrun 0 _
    · exact hrun 1 _
    · exact hnone
  | arrayFilter => exact hlog (Step.iterate_satisfies (arrayFilterStep_kept hargs hfits _) fuel hf)
  | tableMap => exact hlog (Step.iterate_satisfies (mapTableStep_kept hargs hfits) fuel hf)
  | tableFilter => exact hlog (Step.iterate_satisfies (tableFilterStep_kept hargs hfits) fuel hf)
  | tableReduce => exact hlog (Step.iterate_satisfies (tableReduceStep_kept hargs hfits) fuel hf)
  | each =>
    exact hlogIter (Step.iterate_satisfies (containerEachStep_kept hargs hfits) fuel hiter)
  | findindex => exact hlogIter (Step.iterate_satisfies (findStep_kept hargs hfits 0 _) fuel hiter)
  | findvalue => exact hlogIter (Step.iterate_satisfies (findStep_kept hargs hfits 1 _) fuel hiter)

/-! ## Callbacks that do not suit the loop -/

/-- A callback that returns null and changes nothing, on a container of two nulls. -/
def quietVm (callee : Closure) : Vm Bool Unit where
  callee c := if c then some callee else none
  env _ := none
  nativeCalls := 0
  typesOk _ _ := true
  hasRoom _ _ _ := true
  run _ _ _ := ⟨(), fun _ => .null, false, .ok .null⟩
  falsy _ := false
  isArray _ := true
  arrays _ _ := [.null, .null]
  tables _ _ := [some (.integer 0, .null), some (.integer 1, .null)]
  set _ _ _ _ := ()

/-- A frame with a container and a callback, bound. -/
def quietFrame : Frame Bool Unit where
  stack := [.object false, .object true]
  stackbase := 0
  heap := ()
  bound := true
  log := []

theorem quietFrame_calls : quietFrame.Calls false true :=
  ⟨rfl, rfl, rfl, rfl⟩

/-- A callback that does not fit is passed more than it is promised. -/
theorem accepts_of_not_fits {callee : Closure} {always : Nat} (h : ¬ callee.Fits always) :
    callee.accepts (getAllowedArgsCount callee (always + 2)) = true := by
  cases callee with
  | closure f => exact accepts_nparameters f
  | nativeclosure p =>
    by_cases hp : 0 < p
    · rw [getAllowedArgsCount, if_pos hp]
      exact decide_eq_true (Or.inr (Or.inl ⟨hp, by omega⟩))
    · refine absurd ⟨?_, ?_, ?_⟩ h
      · rw [getAllowedArgsCount, if_neg hp]
        exact Nat.le_add_right _ _
      · exact Nat.le_of_eq (by rw [getAllowedArgsCount, if_neg hp])
      · exact False.elim

/-- An iteration with a callback that does not suit the loop is not what the protocol says, although
there is an element and the callee has room. -/
def Breaks (callee : Closure) (it : Iteration Bool) : Prop :=
  it.documented.isSome ∧ it.entered = true ∧ it.bound = true ∧
    ¬ it.Follows (quietVm callee) true callee

/-- Either the pops do not match the pushes, or a callback with a variable number of arguments gets
too few. -/
theorem breaks_of_height {callee : Closure} {always : List (Value Bool)}
    (h : ¬ callee.Fits always.length) (key o : Value Bool) {before nArgs : Nat}
    (hpos : 0 < before) (hn : getAllowedArgsCount callee (always.length + 2) = nArgs)
    {it : Iteration Bool} {args : List (Value Bool)} (hpassed : it.passed = some args)
    (hlen : args.length = nArgs) (hdoc : it.documented = some (always ++ [key, o]))
    (hbefore : it.before = before) (hentered : it.entered = true) (hbound : it.bound = true) :
    Breaks callee
      { it with after := some (before + (pushedArgs nArgs always key o).length - nArgs) } := by
  refine ⟨by rw [hdoc]; rfl, hentered, hbound, ?_⟩
  rintro ⟨⟨doc, hdoc', hargs⟩, -, hheight⟩
  have hheights : before + (pushedArgs nArgs always key o).length - nArgs = before :=
    (Option.some.inj hheight).trans hbefore
  have hlow : always.length ≤ nArgs := by
    refine Nat.le_of_not_lt fun hlt => ?_
    rw [pushedArgs, if_neg (by omega), if_neg (by omega), List.append_nil, List.append_nil]
      at hheights
    omega
  have hhigh : nArgs ≤ always.length + 2 := by
    refine Nat.le_of_not_lt fun hlt => ?_
    rw [pushedArgs, if_pos (by omega), if_pos (by omega), List.length_append, List.length_append]
      at hheights
    simp only [List.length_singleton] at hheights
    omega
  refine h ⟨hn ▸ hlow, hn ▸ hhigh, fun hvar => ?_⟩
  -- the callback takes all the promised arguments
  have hacc : callee.accepts (always.length + 2) = true := by
    cases callee with
    | closure f =>
      rw [Closure.accepts, if_pos (show f.varparams = true from hvar)]
      rw [getAllowedArgsCount] at hn
      exact decide_eq_true (by omega)
    | nativeclosure p => exact hvar.elim
  have hdoc'' : always ++ [key, o] = doc := Option.some.inj (hdoc.symm.trans hdoc')
  have hall : expected (quietVm callee) true callee doc = some doc := by
    rw [← hdoc'', expected, List.length_append]
    show (match callee.longestAccepted (always.length + 2) with
      | some n => _
      | none => _) = _
    rw [longestAccepted_of_accepts (Nat.succ_pos _) hacc]
    have htake : (always ++ [key, o]).take (always.length + 2) = always ++ [key, o] :=
      List.take_of_length_le (by simp)
    simp only [htake]
    rfl
  have hsame : some args = some doc := hpassed.symm.trans (hargs.trans hall)
  rw [hn, ← hlen, Option.some.inj hsame, ← hdoc'', List.length_append]
  rfl

theorem call_quietVm {callee : Closure} {nArgs : Nat} (hacc : callee.accepts nArgs = true)
    (f : Frame Bool Unit) :
    call (quietVm callee) (.object true) nArgs f =
      if f.top < nArgs then .below
      else .ran (f.stack.drop (f.top - nArgs)) ⟨(), fun _ => .null, false, .ok .null⟩ := by
  have hdeep : ¬ maxNativeCalls < (quietVm callee).nativeCalls + 1 :=
    Nat.not_lt_of_le (Nat.le_of_ble_eq_true rfl)
  have hcallee : (quietVm callee).callee true = some callee := rfl
  simp only [call, hcallee, if_neg hdeep]
  split
  · rfl
  · simp [quietVm, withEnv, hacc]

/-- The log of a loop that goes on behind such an iteration, or has lost the stack in it. -/
theorem breaks_of_not_fits {L : Type} {callee : Closure} {always : List (Value Bool)}
    {f : Frame Bool Unit} {key o : Value Bool} {extra before nArgs pops : Nat}
    {k : Frame Bool Unit → Iteration Bool → Except Raised (Value Bool) → LoopStep Bool Unit L}
    (h : ¬ callee.Fits always.length) (hc : f.stackGet 2 = .object true) (hbound : f.bound = true)
    (hn : getAllowedArgsCount callee (always.length + 2) = nArgs)
    (hpos : 0 < before) (htop : f.top = before + extra) (hpops : pops = extra + nArgs)
    (hk : ∀ g it, ∃ locals, k g it (.ok .null) = goOn pops it g locals) :
    ∃ it ∈ (outcome ((invoke (quietVm callee) nArgs always key o (some (always ++ [key, o])) before
      f).andThen k)).1.log, Breaks callee it := by
  have hacc := accepts_of_not_fits h
  rw [hn] at hacc
  have hheight : (f.push (pushedArgs nArgs always key o)).top =
      before + extra + (pushedArgs nArgs always key o).length := by
    rw [Frame.top, Frame.push, List.length_append, ← htop]
    rfl
  rw [invoke, if_pos hbound, hc, call_quietVm hacc]
  by_cases hbelow : (f.push (pushedArgs nArgs always key o)).top < nArgs
  · rw [if_pos hbelow]
    refine ⟨_, List.mem_append.mpr (Or.inr (List.mem_singleton.mpr rfl)), rfl, rfl, hbound, ?_⟩
    rintro ⟨-, -, hafter⟩
    exact absurd hafter (by simp)
  · rw [if_neg hbelow]
    simp only [Invoked.andThen]
    generalize hpush : f.push (pushedArgs nArgs always key o) = f' at hheight hbelow
    have hargs : (f'.stack.drop (f'.top - nArgs)).length = nArgs := by
      rw [List.length_drop, ← Frame.top]
      omega
    have hreturned (r : Ran Bool Unit) : (f'.returned nArgs r).top = f'.top := by
      rw [Frame.top, Frame.returned, List.length_append, List.length_take, List.length_map,
        List.length_range, ← Frame.top]
      omega
    obtain ⟨locals, hgoOn⟩ := hk (f'.returned nArgs ⟨(), fun _ => .null, false, .ok .null⟩)
      { documented := some (always ++ [key, o])
        passed := some (f'.stack.drop (f'.top - nArgs))
        refused := false
        entered := true
        bound := f.bound
        before
        after := none }
    rw [hgoOn, hpops]
    refine ⟨_, List.mem_append.mpr (Or.inr (List.mem_singleton.mpr rfl)), ?_⟩
    have hafter : ((f'.returned nArgs ⟨(), fun _ => .null, false, .ok .null⟩).pop (extra + nArgs)).top =
        before + (pushedArgs nArgs always key o).length - nArgs := by
      rw [Frame.top, Frame.pop, List.length_take, ← Frame.top, hreturned, hheight]
      omega
    rw [hafter]
    exact breaks_of_height h key o hpos hn rfl hargs rfl rfl rfl hbound

/-- The first call of a method breaks the protocol where the callback does not suit it. -/
theorem run_breaks {callee : Closure} (m : Method) (h : ¬ callee.Fits m.always) :
    ∃ fuel, ∃ it ∈ (m.run (quietVm callee) fuel quietFrame).1.log, Breaks callee it := by
  have hargs := quietFrame_calls
  have hzero (n : Nat) : n = 0 + n := (Nat.zero_add n).symm
  have hsize : 0 < ((quietVm callee).arrays quietFrame.heap false).length := Nat.zero_lt_two
  cases m with
  | arrayMap =>
    refine ⟨1, ?_⟩
    rw [run_eq_loop hargs rfl, Method.loop, Step.iterate_one, mapArrayStep, if_pos hsize]
    exact breaks_of_not_fits h rfl rfl rfl Nat.zero_lt_two rfl (hzero _) fun g it => ⟨_, rfl⟩
  | arrayApply =>
    refine ⟨1, ?_⟩
    rw [run_eq_loop hargs rfl, Method.loop, Step.iterate_one, mapArrayStep, if_pos hsize]
    exact breaks_of_not_fits h rfl rfl rfl Nat.zero_lt_two rfl (hzero _) fun g it => ⟨_, rfl⟩
  | arrayReduce =>
    refine ⟨1, ?_⟩
    rw [run_eq_loop hargs rfl]
    show ∃ it ∈ (outcome (Step.iterate (arrayReduceStep (quietVm callee) false 2
      (getAllowedArgsCount callee 5)) 1 (quietFrame, ⟨1, .null, .null⟩))).1.log, _
    rw [Step.iterate_one, arrayReduceStep, if_pos Nat.one_lt_two]
    exact breaks_of_not_fits h rfl rfl rfl Nat.zero_lt_two rfl (hzero _) fun g it => ⟨_, rfl⟩
  | arrayFilter =>
    refine ⟨1, ?_⟩
    rw [run_eq_loop hargs rfl, Method.loop, Step.iterate_one, arrayFilterStep, if_pos hsize]
    exact breaks_of_not_fits h rfl rfl rfl Nat.zero_lt_two rfl (hzero _) fun g it => ⟨_, rfl⟩
  | tableMap =>
    refine ⟨1, ?_⟩
    rw [run_eq_loop hargs rfl, Method.loop, Step.iterate_one]
    exact breaks_of_not_fits h rfl rfl rfl Nat.zero_lt_two rfl (hzero _) fun g it => ⟨_, rfl⟩
  | tableFilter =>
    refine ⟨1, ?_⟩
    rw [run_eq_loop hargs rfl, Method.loop, Step.iterate_one]
    exact breaks_of_not_fits h rfl rfl rfl Nat.zero_lt_two rfl (hzero _) fun g it => ⟨_, rfl⟩
  | tableReduce =>
    -- the first element becomes the accumulator
    refine ⟨2, ?_⟩
    rw [run_eq_loop hargs rfl]
    show ∃ it ∈ (outcome (Step.iterate (tableReduceStep (quietVm callee) false
      (getAllowedArgsCount callee 5)) 1 (quietFrame, ⟨1, some .null⟩))).1.log, _
    rw [Step.iterate_one]
    exact breaks_of_not_fits h rfl rfl rfl Nat.zero_lt_two rfl (hzero _) fun g it => ⟨_, rfl⟩
  | each =>
    refine ⟨1, ?_⟩
    rw [run_eq_loop hargs rfl, Method.loop, Step.iterate_one]
    exact breaks_of_not_fits h rfl rfl rfl (Nat.succ_pos 2) rfl rfl fun g it => ⟨_, rfl⟩
  | findindex =>
    refine ⟨1, ?_⟩
    rw [run_eq_loop hargs rfl, Method.loop, Step.iterate_one]
    exact breaks_of_not_fits h rfl rfl rfl (Nat.succ_pos 2) rfl rfl fun g it => ⟨_, rfl⟩
  | findvalue =>
    refine ⟨1, ?_⟩
    rw [run_eq_loop hargs rfl, Method.loop, Step.iterate_one]
    exact breaks_of_not_fits h rfl rfl rfl (Nat.succ_pos 2) rfl rfl fun g it => ⟨_, rfl⟩

/-! ## All callbacks -/

/-- The calls of a method follow the protocol, whatever the container holds and the callback does,
exactly if the parameters of the callback suit its loop. Where they do, an iteration follows it
exactly if there still is an element, the callback can be entered and no earlier call has moved the
stack. -/
theorem callback_protocol_iff (m : Method) (callee : Closure) :
    ((∀ (ω σ : Type) (vm : Vm ω σ) (o c : ω) (f : Frame ω σ) (fuel : Nat), f.Calls o c →
        vm.callee c = some callee → ∀ it ∈ (m.run vm fuel f).1.log,
          it.documented.isSome → it.entered = true → it.bound = true → it.Follows vm c callee) ↔
      callee.Fits m.always) ∧
    (callee.Fits m.always →
      ∀ (ω σ : Type) (vm : Vm ω σ) (o c : ω) (f : Frame ω σ) (fuel : Nat), f.Calls o c →
        vm.callee c = some callee → ∀ it ∈ (m.run vm fuel f).1.log,
          (it.Follows vm c callee ↔
            it.documented.isSome ∧ it.entered = true ∧ it.bound = true)) := by
  have hgood : callee.Fits m.always →
      ∀ (ω σ : Type) (vm : Vm ω σ) (o c : ω) (f : Frame ω σ) (fuel : Nat), f.Calls o c →
        vm.callee c = some callee → ∀ it ∈ (m.run vm fuel f).1.log,
          (it.Follows vm c callee ↔
            it.documented.isSome ∧ it.entered = true ∧ it.bound = true) :=
    fun hfits _ _ _ _ _ _ fuel hf hcallee => run_good hf hcallee m hfits fuel
  refine ⟨⟨fun h => ?_, fun hfits ω σ vm o c f fuel hf hcallee it hit hsome hentered hbound => ?_⟩, hgood⟩
  · by_cases hfits : callee.Fits m.always
    · exact hfits
    · obtain ⟨fuel, it, hit, hsome, hentered, hbound, hnot⟩ := run_breaks m hfits
      exact absurd (h Bool Unit (quietVm callee) false true quietFrame fuel quietFrame_calls rfl it
        hit hsome hentered hbound) hnot
  · exact (hgood hfits ω σ vm o c f fuel hf hcallee it hit).mpr ⟨hsome, hentered, hbound⟩

/-- `array.map` with a function of no parameters: `this` is the element, and each iteration leaves a
cell on the stack. -/
theorem map_without_parameters :
    ∃ it ∈ (Method.arrayMap.run (quietVm (.closure ⟨1, false, 0, Nat.le_refl 1⟩)) 1
      quietFrame).1.log,
      it.documented = some [.null, .null, .integer 0, .object false] ∧ it.entered = true ∧
        it.bound = true ∧ it.before = 2 ∧ it.after = some 3 ∧
        ¬ it.Follows (quietVm (.closure ⟨1, false, 0, Nat.le_refl 1⟩)) true
          (.closure ⟨1, false, 0, Nat.le_refl 1⟩) := by
  refine ⟨_, List.mem_singleton.mpr rfl, rfl, rfl, rfl, rfl, rfl, ?_⟩
  rintro ⟨-, -, hheight⟩
  exact absurd (Option.some.inj hheight) (by decide)

end Quirrel.Callback
