import Quirrel.Lib.Copies
import Quirrel.Generator.Suspend
import Mathlib.Data.List.Basic

set_option autoImplicit false

/-!
# Suspension and captured variables

`Variables` is what a program means whose functions never give up their frames: each variable is one
cell, which a register and the closures that captured it share. `Step` runs the VM and this meaning
side by side. They agree on every local and every captured variable in all states of a run just
when each write finds its variable in one place, or leaves it as it was
(`transparent_iff_written_whole`); a variable that was captured before a `yield` is in two places
after it.
-/

namespace Quirrel.Generator

open Quirrel.Copies

variable {V : Type}

/-- Variables by number. `slot` says which variable lives in a slot of the stack and `saved` which
one lives in a register of a suspended frame; `captured` lists the variables of the captures. -/
structure Variables (V : Type) where
  value : Nat → V
  count : Nat
  slot : Nat → Option Nat
  saved : Nat → Nat → Option Nat
  captured : List Nat

namespace Variables

/-- A register that holds no variable yet becomes one by the first write to it. -/
def write (vars : Variables V) (i : Nat) (v : V) : Variables V :=
  match vars.slot i with
  | some x => { vars with value := Function.update vars.value x v }
  | none =>
    { vars with
      value := Function.update vars.value vars.count v
      count := vars.count + 1
      slot := Function.update vars.slot i (some vars.count) }

/-- The variables from a register on go. -/
def dropFrom (vars : Variables V) (i : Nat) : Variables V :=
  { vars with slot := fun j => if j < i then vars.slot j else none }

/-- The running function captures the variable of a register. -/
def capture (vars : Variables V) (i : Nat) : Option (Variables V) :=
  (vars.slot i).map fun x => { vars with captured := vars.captured ++ [x] }

/-- An outer variable is written. -/
def setOuter (vars : Variables V) (k : Nat) (v : V) : Variables V :=
  match vars.captured[k]? with
  | some x => { vars with value := Function.update vars.value x v }
  | none => vars

/-- Nothing is copied: the variables of a suspended frame stay what they are. Register 0 holds `this`
and no variable. -/
def yield (vars : Variables V) (g base target : Nat) : Variables V :=
  { vars.dropFrom base with
    saved := Function.update vars.saved g fun r =>
      if 0 < r ∧ r < target then vars.slot (base + r) else none }

/-- The saved variables of a generator come back above `base`. -/
def resume (vars : Variables V) (g base : Nat) : Variables V :=
  { vars with
    slot := fun i => if base ≤ i then vars.saved g (i - base) else vars.slot i
    saved := Function.update vars.saved g fun _ => none }

/-- Only a register that has been written is a local that can be captured. -/
def apply (vars : Variables V) : Op V → Option (Variables V)
  | .write i v => some (vars.write i v)
  | .capture i => vars.capture i
  | .setOuter k v => some (vars.setOuter k v)
  | .close i => some (vars.dropFrom i)
  | .enter base => some (vars.dropFrom base)
  | .yield g base _ target => some (vars.yield g base target)
  | .resume g base _ _ => some (vars.resume g base)

end Variables

/-! ## Running both -/

/-- The calls, the machine, and the variables that the source program sees. -/
structure State (V : Type) where
  calls : Calls
  vm : SQVM V
  vars : Variables V

namespace State

/-- A closure was given the outer `o`, and the variable captured there is `x`. -/
def CapturedAs (s : State V) (o x : Nat) : Prop :=
  (o, x) ∈ s.vm.outervalues.zip s.vars.captured

/-- The places of the VM that keep a variable. -/
inductive Keeps (s : State V) (x : Nat) : Place → Prop where
  | slot {i : Nat} (h : s.vars.slot i = some x) : Keeps s x (.slot i)
  | saved {g r : Nat} (h : s.vars.saved g r = some x) : Keeps s x (.saved g r)
  | captured {o : Nat} (h : s.CapturedAs o x) : Keeps s x (s.vm.place o)

/-- Every local, in the running functions and in the suspended ones, and every outer of a closure
holds the value of its variable. -/
def Agrees (s : State V) : Prop :=
  Coherent s.Keeps s.vm.held s.vars.value

/-- The variable written is in one place, or it holds the value already. -/
def WrittenWhole (s : State V) : Op V → Prop
  | .write i v => ∀ x, s.vars.slot i = some x → Whole s.Keeps x ∨ s.vm.stack i = v
  | .setOuter k v => ∀ o x, s.vm.outervalues[k]? = some o → s.vars.captured[k]? = some x →
      Whole s.Keeps x ∨ s.vm.held (s.vm.place o) = v
  | _ => True

/-- One operation, where the calls and the variables allow it. -/
inductive Step [Inhabited V] (s : State V) (op : Op V) : State V → Prop where
  | mk {calls : Calls} {vars : Variables V} (hcalls : s.calls.Next s.vm op calls)
      (hvars : s.vars.apply op = some vars) : Step s op ⟨calls, s.vm.apply op, vars⟩

end State

/-- The main function with `size` registers, before its first instruction. -/
def State.initial [Inhabited V] (size : Nat) : State V where
  calls := ⟨⟨0, size, none⟩, [], fun _ => none⟩
  vm := ⟨fun _ => default, fun _ => ⟨none, default⟩, 0, [], [], fun _ _ => default⟩
  vars := ⟨fun _ => default, 0, fun _ => none, fun _ _ => none, []⟩

/-- A run by the operations given, each step of which meets the condition. -/
inductive Run [Inhabited V] (P : State V → Op V → State V → Prop) (size : Nat) :
    List (Op V) → State V → Prop where
  | initial : Run P size [] (State.initial size)
  | step {ops : List (Op V)} {s s' : State V} {op : Op V} (hrun : Run P size ops s)
      (hstep : s.Step op s') (hp : P s op s') : Run P size (ops ++ [op]) s'

/-! ## What holds in every state -/

/-- The outers are in order, and a place keeps one variable at most. -/
structure Linked (s : State V) : Prop where
  outers : OpenList s.vm.outers s.vm.nouters s.vm.openouters
  captures : s.vm.outervalues.length = s.vars.captured.length
  opened : ∀ {o x i}, s.CapturedAs o x → (s.vm.outers o).valptr = some i → s.vars.slot i = some x
  same : ∀ {o x y}, s.CapturedAs o x → s.CapturedAs o y → x = y
  created : ∀ {o x}, s.CapturedAs o x → o < s.vm.nouters ∧ x < s.vars.count
  slots : ∀ {i j x}, s.vars.slot i = some x → s.vars.slot j = some x → i = j
  saveds : ∀ {g r g' r' x}, s.vars.saved g r = some x → s.vars.saved g' r' = some x →
    g = g' ∧ r = r'
  apart : ∀ {i g r x}, s.vars.slot i = some x → s.vars.saved g r ≠ some x
  slotCount : ∀ {i x}, s.vars.slot i = some x → x < s.vars.count
  savedCount : ∀ {g r x}, s.vars.saved g r = some x → x < s.vars.count

/-- Variables live below the top of the running function, the frames lie above one another, and the
variables of a suspended frame are among the registers it saved. -/
structure Framed (c : Calls) (vars : Variables V) : Prop where
  below : ∀ {i x}, vars.slot i = some x → i < c.ci.top
  kept : ∀ {g r x}, vars.saved g r = some x →
    0 < r ∧ ∀ size, c.generators g = some (.suspended size) → r < size
  stacked : List.IsChain (fun inner outer => inner.stackbase ≤ outer.top) (c.ci :: c.callers)

section Separate

variable {s : State V} {x : Nat}

/-- A variable kept in a register is the variable of that register. -/
theorem Linked.keeps_slot (h : Linked s) {i : Nat} (hk : s.Keeps x (.slot i)) : s.vars.slot i = some x := by
  generalize hp : Place.slot i = p at hk
  cases hk with
  | slot hi =>
    cases hp
    exact hi
  | saved => cases hp
  | captured hc => exact h.opened hc (SQVM.place_eq_slot.1 hp.symm)

/-- A variable kept in a suspended generator is one that was saved there. -/
theorem keeps_saved {g r : Nat} (hk : s.Keeps x (.saved g r)) :
    s.vars.saved g r = some x := by
  generalize hp : Place.saved g r = p at hk
  cases hk with
  | slot => cases hp
  | saved hg =>
    cases hp
    exact hg
  | captured => exact absurd hp.symm SQVM.place_ne_saved

/-- A variable kept in a cell is one that the running function captured. -/
theorem keeps_cell {o : Nat} (hk : s.Keeps x (.cell o)) : s.CapturedAs o x := by
  generalize hp : Place.cell o = p at hk
  cases hk with
  | slot => cases hp
  | saved => cases hp
  | captured hc =>
    obtain ⟨-, rfl⟩ := SQVM.place_eq_cell.1 hp.symm
    exact hc

/-- Two variables are never kept in one place. -/
theorem Linked.separate (h : Linked s) : Separate s.Keeps := by
  intro x y p hx hy
  cases p with
  | slot i => exact Option.some.inj ((h.keeps_slot hx).symm.trans (h.keeps_slot hy))
  | saved g r => exact Option.some.inj ((keeps_saved hx).symm.trans (keeps_saved hy))
  | cell o => exact h.same (keeps_cell hx) (keeps_cell hy)

end Separate

/-- Before the first step nothing is captured and nothing saved. -/
theorem linked_initial [Inhabited V] (size : Nat) : Linked (State.initial size : State V) where
  outers := ⟨List.Pairwise.nil, fun _ hp => absurd hp List.not_mem_nil,
    (fun _ _ hp => nomatch hp), fun _ hp => absurd hp List.not_mem_nil⟩
  captures := rfl
  opened hc := absurd hc List.not_mem_nil
  same hc := absurd hc List.not_mem_nil
  created hc := absurd hc List.not_mem_nil
  slots hs := nomatch hs
  saveds hs := nomatch hs
  apart hs := nomatch hs
  slotCount hs := nomatch hs
  savedCount hs := nomatch hs

/-- Before the first step only the main function runs. -/
theorem framed_initial [Inhabited V] (size : Nat) :
    Framed (State.initial size : State V).calls (State.initial size : State V).vars where
  below hs := nomatch hs
  kept hs := nomatch hs
  stacked := List.IsChain.singleton _

/-! ## What each operation does -/

/-- A write to a register with a variable changes the value of that variable. -/
theorem Variables.write_of_some {vars : Variables V} {i x : Nat} {v : V}
    (h : vars.slot i = some x) :
    vars.write i v = { vars with value := Function.update vars.value x v } := by
  simp only [write, h]

/-- A write to a register without a variable makes a new one. -/
theorem Variables.write_of_none {vars : Variables V} {i : Nat} {v : V} (h : vars.slot i = none) :
    vars.write i v =
      { vars with
        value := Function.update vars.value vars.count v
        count := vars.count + 1
        slot := Function.update vars.slot i (some vars.count) } := by
  simp only [write, h]

/-- The registers below stay as they are. -/
theorem Variables.slot_dropFrom {vars : Variables V} {i j x : Nat} :
    (vars.dropFrom i).slot j = some x ↔ j < i ∧ vars.slot j = some x := by
  unfold dropFrom
  dsimp only
  split
  · rename_i hj
    exact ⟨fun h => ⟨hj, h⟩, fun h => h.2⟩
  · rename_i hj
    exact ⟨fun h => (nomatch h), fun h => absurd h.1 hj⟩

section Steps

variable {s : State V} {c : Calls}

/-- A write to a register keeps the link. -/
theorem Linked.write (h : Linked s) (i : Nat) (v : V) :
    Linked ⟨c, s.vm.put (.slot i) v, s.vars.write i v⟩ := by
  -- a slot that has a variable keeps it, any other gets a new one
  cases hi : s.vars.slot i with
  | some x =>
    rw [Variables.write_of_some hi]
    exact ⟨h.outers, h.captures, h.opened, h.same, h.created, h.slots, h.saveds, h.apart,
      h.slotCount, h.savedCount⟩
  | none =>
    rw [Variables.write_of_none hi]
    have hslot : ∀ {j x}, Function.update s.vars.slot i (some s.vars.count) j = some x →
        (j = i ∧ x = s.vars.count) ∨ (j ≠ i ∧ s.vars.slot j = some x) := by
      intro j x hj
      by_cases hji : j = i
      · subst hji
        rw [Function.update_self] at hj
        exact .inl ⟨rfl, (Option.some.inj hj).symm⟩
      · rw [Function.update_of_ne hji] at hj
        exact .inr ⟨hji, hj⟩
    constructor
    case opened =>
      intro o x j hc hv
      have hj := h.opened hc hv
      have hji : j ≠ i := by
        rintro rfl
        rw [hi] at hj
        cases hj
      exact (Function.update_of_ne hji _ _).trans hj
    case slots =>
      intro j k x hj hk
      rcases hslot hj with ⟨rfl, rfl⟩ | ⟨-, hj⟩
      · rcases hslot hk with ⟨rfl, -⟩ | ⟨-, hk⟩
        · rfl
        · exact absurd (h.slotCount hk) (Nat.lt_irrefl _)
      · rcases hslot hk with ⟨-, rfl⟩ | ⟨-, hk⟩
        · exact absurd (h.slotCount hj) (Nat.lt_irrefl _)
        · exact h.slots hj hk
    case apart =>
      intro j g r x hj hg
      rcases hslot hj with ⟨-, rfl⟩ | ⟨-, hj⟩
      · exact absurd (h.savedCount hg) (Nat.lt_irrefl _)
      · exact h.apart hj hg
    case slotCount =>
      intro j x hj
      rcases hslot hj with ⟨-, rfl⟩ | ⟨-, hj⟩
      · exact Nat.lt_succ_self _
      · exact Nat.lt_succ_of_lt (h.slotCount hj)
    case outers => exact h.outers
    case captures => exact h.captures
    case same => exact h.same
    case created => exact fun hc => ⟨(h.created hc).1, Nat.lt_succ_of_lt (h.created hc).2⟩
    case saveds => exact h.saveds
    case savedCount => exact fun hg => Nat.lt_succ_of_lt (h.savedCount hg)

/-- A write through an outer keeps the link. -/
theorem Linked.setOuter (h : Linked s) (p : Place) (v : V) (x : Nat) :
    Linked ⟨c, s.vm.put p v, { s.vars with value := Function.update s.vars.value x v }⟩ := by
  have houters : (s.vm.put p v).nouters = s.vm.nouters ∧
      (s.vm.put p v).openouters = s.vm.openouters ∧
      (s.vm.put p v).outervalues = s.vm.outervalues := by
    cases p <;> exact ⟨rfl, rfl, rfl⟩
  obtain ⟨hn, hl, ho⟩ := houters
  have hcap : ∀ {o y}, State.CapturedAs ⟨c, s.vm.put p v,
      { s.vars with value := Function.update s.vars.value x v }⟩ o y → s.CapturedAs o y := by
    intro o y hc
    simpa only [State.CapturedAs, ho] using hc
  constructor
  case outers =>
    rw [hn, hl]
    exact h.outers.congr fun q => SQVM.valptr_put q
  case captures => rw [ho]; exact h.captures
  case opened => exact fun hc hv => h.opened (hcap hc) ((SQVM.valptr_put _).symm.trans hv)
  case same => exact fun hc hc' => h.same (hcap hc) (hcap hc')
  case created => rw [hn]; exact fun hc => h.created (hcap hc)
  case slots => exact h.slots
  case saveds => exact h.saveds
  case apart => exact h.apart
  case slotCount => exact h.slotCount
  case savedCount => exact h.savedCount

/-- The end of a scope keeps the link: what was captured moves into its cells. -/
theorem Linked.close (h : Linked s) (i : Nat) :
    Linked ⟨c, s.vm.closeOuters i, s.vars.dropFrom i⟩ := by
  have hslot : ∀ {j x}, (s.vars.dropFrom i).slot j = some x → j < i ∧ s.vars.slot j = some x :=
    Variables.slot_dropFrom.1
  constructor
  case outers => exact h.outers.close
  case captures => exact h.captures
  case opened =>
    intro o x j hc hv
    obtain ⟨hv, hj⟩ := (SQVM.valptr_closeOuters h.outers).1 hv
    exact (if_pos hj).trans (h.opened hc hv)
  case same => exact fun hc hc' => h.same hc hc'
  case created => exact fun hc => h.created hc
  case slots => exact fun hj hk => h.slots (hslot hj).2 (hslot hk).2
  case saveds => exact h.saveds
  case apart => exact fun hj => h.apart (hslot hj).2
  case slotCount => exact fun hj => h.slotCount (hslot hj).2
  case savedCount => exact h.savedCount

/-- Where no outer is open at the registers given up, closing them would change nothing. -/
theorem Linked.enter (h : Linked s) {base : Nat}
    (hargs : ∀ o i, (s.vm.outers o).valptr = some i → i < base) :
    Linked ⟨c, s.vm, s.vars.dropFrom base⟩ := by
  have hd := h.close (c := c) base
  exact ⟨h.outers, h.captures, fun hc hv => (if_pos (hargs _ _ hv)).trans (h.opened hc hv), h.same,
    h.created, hd.slots, hd.saveds, hd.apart, hd.slotCount, hd.savedCount⟩

/-- A yield keeps the link: the registers of the frame are saved. -/
theorem Linked.yield [Inhabited V] (h : Linked s) (g base size target : Nat) :
    Linked ⟨c, s.vm.yield g base size target, s.vars.yield g base target⟩ := by
  have hd := h.close (c := c) base
  have hslot : ∀ {j x}, (s.vars.yield g base target).slot j = some x →
      j < base ∧ s.vars.slot j = some x :=
    Variables.slot_dropFrom.1
  -- A saved register comes from a slot of the frame or was saved before.
  have hsaved : ∀ {g' r x}, (s.vars.yield g base target).saved g' r = some x →
      (g' = g ∧ s.vars.slot (base + r) = some x) ∨ (g' ≠ g ∧ s.vars.saved g' r = some x) := by
    intro g' r x hr
    simp only [Variables.yield] at hr
    by_cases hg : g' = g
    · subst hg
      rw [Function.update_self] at hr
      split at hr
      · exact .inl ⟨rfl, hr⟩
      · cases hr
    · rw [Function.update_of_ne hg] at hr
      exact .inr ⟨hg, hr⟩
  constructor
  case outers => exact hd.outers
  case captures => exact h.captures
  case opened => exact fun hc hv => hd.opened hc hv
  case same => exact fun hc hc' => h.same hc hc'
  case created => exact fun hc => h.created hc
  case slots => exact fun hj hk => h.slots (hslot hj).2 (hslot hk).2
  case saveds =>
    intro g₁ r₁ g₂ r₂ x h₁ h₂
    rcases hsaved h₁ with ⟨hg₁, hx₁⟩ | ⟨-, hx₁⟩
    · rcases hsaved h₂ with ⟨hg₂, hx₂⟩ | ⟨-, hx₂⟩
      · exact ⟨hg₁.trans hg₂.symm, Nat.add_left_cancel (h.slots hx₁ hx₂)⟩
      · exact absurd hx₂ (h.apart hx₁)
    · rcases hsaved h₂ with ⟨-, hx₂⟩ | ⟨-, hx₂⟩
      · exact absurd hx₁ (h.apart hx₂)
      · exact h.saveds hx₁ hx₂
  case apart =>
    intro j g' r x hj hr
    obtain ⟨hlt, hj⟩ := hslot hj
    rcases hsaved hr with ⟨-, hr⟩ | ⟨-, hr⟩
    · have heq := h.slots hj hr
      omega
    · exact h.apart hj hr
  case slotCount => exact fun hj => h.slotCount (hslot hj).2
  case savedCount =>
    intro g' r x hr
    rcases hsaved hr with ⟨-, hr⟩ | ⟨-, hr⟩
    · exact h.slotCount hr
    · exact h.savedCount hr

/-- A resume keeps the link, as no variable lives above the new frame. -/
theorem Linked.resume [Inhabited V] (h : Linked s) (g base size : Nat) (self : V)
    (hbelow : ∀ {i x}, s.vars.slot i = some x → i < base) :
    Linked ⟨c, s.vm.resume g base size self, s.vars.resume g base⟩ := by
  -- from the base on the slots are what the generator saved, below it what they were
  have hslot : ∀ {j x}, (s.vars.resume g base).slot j = some x →
      (base ≤ j ∧ s.vars.saved g (j - base) = some x) ∨ (j < base ∧ s.vars.slot j = some x) := by
    intro j x hj
    simp only [Variables.resume] at hj
    split at hj
    · exact .inl ⟨‹_›, hj⟩
    · exact .inr ⟨Nat.lt_of_not_le ‹_›, hj⟩
  have hsaved : ∀ {g' r x}, (s.vars.resume g base).saved g' r = some x →
      g' ≠ g ∧ s.vars.saved g' r = some x := by
    intro g' r x hr
    simp only [Variables.resume] at hr
    by_cases hg : g' = g
    · subst hg
      rw [Function.update_self] at hr
      cases hr
    · rw [Function.update_of_ne hg] at hr
      exact ⟨hg, hr⟩
  constructor
  case outers => exact h.outers
  case captures => exact h.captures
  case opened =>
    intro o x j hc hv
    have hj := h.opened hc hv
    exact (if_neg (Nat.not_le.2 (hbelow hj))).trans hj
  case same => exact fun hc hc' => h.same hc hc'
  case created => exact fun hc => h.created hc
  case slots =>
    intro j k x hj hk
    rcases hslot hj with ⟨hbj, hj⟩ | ⟨-, hj⟩
    · rcases hslot hk with ⟨hbk, hk⟩ | ⟨-, hk⟩
      · have heq := (h.saveds hj hk).2
        omega
      · exact absurd hj (h.apart hk)
    · rcases hslot hk with ⟨-, hk⟩ | ⟨-, hk⟩
      · exact absurd hk (h.apart hj)
      · exact h.slots hj hk
  case saveds => exact fun h₁ h₂ => h.saveds (hsaved h₁).2 (hsaved h₂).2
  case apart =>
    intro j g' r x hj hr
    obtain ⟨hg, hr⟩ := hsaved hr
    rcases hslot hj with ⟨-, hj⟩ | ⟨-, hj⟩
    · exact hg (h.saveds hr hj).1
    · exact h.apart hj hr
  case slotCount =>
    intro j x hj
    rcases hslot hj with ⟨-, hj⟩ | ⟨-, hj⟩
    · exact h.savedCount hj
    · exact h.slotCount hj
  case savedCount => exact fun hr => h.savedCount (hsaved hr).2

/-- A new outer adds one captured variable. -/
theorem capturedAs_snoc {vm : SQVM V} {vars : Variables V} {o x : Nat} (h : Linked s)
    (hvm : vm.outervalues = s.vm.outervalues ++ [o])
    (hvars : vars.captured = s.vars.captured ++ [x]) {p y : Nat} :
    State.CapturedAs ⟨c, vm, vars⟩ p y ↔ s.CapturedAs p y ∨ (p = o ∧ y = x) := by
  simp only [State.CapturedAs, hvm, hvars, List.zip_append h.captures, List.zip_cons_cons,
    List.zip_nil_left, List.mem_append, List.mem_singleton, Prod.mk.injEq]

/-- A capture keeps the link, whether the outer is new or found. -/
theorem Linked.capture {vm : SQVM V} {i o x : Nat} (h : Linked s)
    (hcap : Captures s.vm vm i o) (hi : s.vars.slot i = some x) :
    Linked ⟨c, vm, { s.vars with captured := s.vars.captured ++ [x] }⟩ := by
  have hc : ∀ {p y}, State.CapturedAs
      ⟨c, vm, { s.vars with captured := s.vars.captured ++ [x] }⟩ p y ↔
        s.CapturedAs p y ∨ (p = o ∧ y = x) :=
    capturedAs_snoc h hcap.outervalues rfl
  have hold : ∀ {p y}, s.CapturedAs p y → vm.outers p = s.vm.outers p := fun hp =>
    hcap.others _ (h.created hp).1
  -- An outer that was captured before and is open at the slot belongs to its variable.
  have hknown : ∀ {y}, s.CapturedAs o y → y = x := by
    intro y hy
    exact Option.some.inj ((h.opened hy (hcap.known (h.created hy).1)).symm.trans hi)
  constructor
  case outers => exact hcap.openList
  case captures =>
    simp only [hcap.outervalues, List.length_append, h.captures, List.length_singleton]
  case opened =>
    intro p y j hp hv
    rcases hc.1 hp with hp | ⟨rfl, rfl⟩
    · exact h.opened hp ((congrArg SQOuter.valptr (hold hp)).symm.trans hv)
    · obtain rfl : i = j := Option.some.inj (hcap.valptr.symm.trans hv)
      exact hi
  case same =>
    intro p y z hy hz
    rcases hc.1 hy with hold₁ | ⟨hpo, hyx⟩
    · rcases hc.1 hz with hold₂ | ⟨hpo, hzx⟩
      · exact h.same hold₁ hold₂
      · rw [hpo] at hold₁
        exact (hknown hold₁).trans hzx.symm
    · rcases hc.1 hz with hold₂ | ⟨-, hzx⟩
      · rw [hpo] at hold₂
        exact hyx.trans (hknown hold₂).symm
      · exact hyx.trans hzx.symm
  case created =>
    intro p y hp
    rcases hc.1 hp with hp | ⟨rfl, rfl⟩
    · exact ⟨Nat.lt_of_lt_of_le (h.created hp).1 hcap.nouters, (h.created hp).2⟩
    · exact ⟨hcap.created, h.slotCount hi⟩
  case slots => exact h.slots
  case saveds => exact h.saveds
  case apart => exact h.apart
  case slotCount => exact h.slotCount
  case savedCount => exact h.savedCount

/-! ## Agreement after each operation -/

theorem keeps_congr {s' : State V} (hslot : s'.vars.slot = s.vars.slot)
    (hsaved : s'.vars.saved = s.vars.saved) (hcap : ∀ o x, s'.CapturedAs o x ↔ s.CapturedAs o x)
    (hplace : ∀ o, s'.vm.place o = s.vm.place o) : s'.Keeps = s.Keeps := by
  funext x p
  apply propext
  constructor
  · intro hp
    cases hp with
    | slot h => exact .slot (hslot ▸ h)
    | saved h => exact .saved (hsaved ▸ h)
    | captured h => rw [hplace]; exact .captured ((hcap _ _).1 h)
  · intro hp
    cases hp with
    | slot h => exact .slot (hslot ▸ h)
    | saved h => exact .saved (hsaved ▸ h)
    | captured h => rw [← hplace]; exact .captured ((hcap _ _).2 h)

/-- A write changes values, not where variables are kept. -/
theorem keeps_put {p : Place} {v : V} {x : Nat} :
    (State.mk c (s.vm.put p v) { s.vars with value := Function.update s.vars.value x v }).Keeps =
      s.Keeps := by
  have ho : (s.vm.put p v).outervalues = s.vm.outervalues := by cases p <;> rfl
  have hcap : ∀ o y, (State.mk c (s.vm.put p v)
      { s.vars with value := Function.update s.vars.value x v }).CapturedAs o y ↔
        s.CapturedAs o y := by
    intro o y
    simp only [State.CapturedAs, ho]
  exact keeps_congr (s := s) rfl rfl hcap fun o => SQVM.place_congr (SQVM.valptr_put o)

/-- A write to one of the places of a variable keeps the agreement when it is the only one. -/
theorem agrees_put_iff (h : Linked s) (hs : s.Agrees) {p : Place} {v : V} {x : Nat}
    (hp : s.Keeps x p) :
    (State.mk c (s.vm.put p v)
      { s.vars with value := Function.update s.vars.value x v }).Agrees ↔
        Whole s.Keeps x ∨ s.vm.held p = v := by
  unfold State.Agrees
  rw [keeps_put, SQVM.held_put]
  exact Coherent.write_iff h.separate hs hp

/-- A write to a register keeps the agreement if and only if it is whole. -/
theorem agrees_write_iff (h : Linked s) (hs : s.Agrees) (i : Nat) (v : V) :
    (State.mk c (s.vm.put (.slot i) v) (s.vars.write i v)).Agrees ↔
      s.WrittenWhole (.write i v) := by
  cases hi : s.vars.slot i with
  | some x =>
    rw [Variables.write_of_some hi, agrees_put_iff h hs (.slot hi)]
    constructor
    · intro hw y hy
      obtain rfl : x = y := Option.some.inj (hi.symm.trans hy)
      exact hw
    · exact fun hw => hw x hi
  | none =>
    rw [Variables.write_of_none hi]
    constructor
    · intro _ x hx
      rw [hi] at hx
      cases hx
    · intro _
      unfold State.Agrees
      rw [SQVM.held_put]
      apply Coherent.write_new hs
      · intro q hq
        cases hq with
        | @slot j hj =>
          by_cases hji : j = i
          · rw [hji]
          · exact absurd (h.slotCount ((Function.update_of_ne hji _ _).symm.trans hj))
              (Nat.lt_irrefl _)
        | saved hg => exact absurd (h.savedCount hg) (Nat.lt_irrefl _)
        | captured hc => exact absurd (h.created hc).2 (Nat.lt_irrefl _)
      · intro y hy hk
        have hw := h.write (c := c) i v
        rw [Variables.write_of_none hi] at hw
        have hj := hw.keeps_slot hk
        exact hy (Option.some.inj ((Function.update_self i _ s.vars.slot).symm.trans hj)).symm
      · intro y q hy hq
        cases hq with
        | @slot j hj =>
          by_cases hji : j = i
          · subst hji
            exact absurd (Option.some.inj
              ((Function.update_self j _ s.vars.slot).symm.trans hj)).symm hy
          · exact .slot ((Function.update_of_ne hji _ _).symm.trans hj)
        | saved hg => exact .saved hg
        | captured hc => exact .captured hc

/-- The end of a scope keeps the agreement. -/
theorem agrees_close (h : Linked s) (hs : s.Agrees) (i : Nat) :
    (State.mk c (s.vm.closeOuters i) (s.vars.dropFrom i)).Agrees := by
  apply hs.move
  intro x p hp
  cases hp with
  | slot hj => exact ⟨_, .slot (Variables.slot_dropFrom.1 hj).2, rfl⟩
  | saved hg => exact ⟨_, .saved hg, rfl⟩
  | captured hc => exact ⟨_, .captured hc, SQVM.held_place_closeOuters h.outers i _⟩

theorem agrees_enter (hs : s.Agrees) (base : Nat) :
    (State.mk c s.vm (s.vars.dropFrom base)).Agrees := by
  apply hs.move
  intro x p hp
  cases hp with
  | slot hj => exact ⟨_, .slot (Variables.slot_dropFrom.1 hj).2, rfl⟩
  | saved hg => exact ⟨_, .saved hg, rfl⟩
  | captured hc => exact ⟨_, .captured hc, rfl⟩

/-- A capture keeps the agreement: the outer reads the register. -/
theorem agrees_capture {vm : SQVM V} {i o x : Nat} (h : Linked s) (hs : s.Agrees)
    (hcap : Captures s.vm vm i o) (hi : s.vars.slot i = some x) :
    (State.mk c vm { s.vars with captured := s.vars.captured ++ [x] }).Agrees := by
  apply hs.move
  intro y p hp
  cases hp with
  | slot hj => exact ⟨_, .slot hj, by simp only [SQVM.held, hcap.stack]⟩
  | saved hg => exact ⟨_, .saved hg, by simp only [SQVM.held, hcap.saved]⟩
  | @captured q hq =>
    rcases (capturedAs_snoc h hcap.outervalues rfl).1 hq with hq | ⟨rfl, rfl⟩
    · have hold := hcap.others q (h.created hq).1
      refine ⟨_, .captured hq, ?_⟩
      rw [SQVM.place_congr (congrArg SQOuter.valptr hold)]
      cases hq : s.vm.place q with
      | slot j => simp only [SQVM.held, hcap.stack]
      | saved g r => simp only [SQVM.held, hcap.saved]
      | cell o' =>
        obtain ⟨-, rfl⟩ := SQVM.place_eq_cell.1 hq
        simp only [SQVM.held, hold]
    · refine ⟨_, .slot hi, ?_⟩
      rw [SQVM.place_eq_slot.2 hcap.valptr]
      simp only [SQVM.held, hcap.stack]

variable [Inhabited V]

/-- A yield keeps the agreement: what is saved are copies. -/
theorem agrees_yield (h : Linked s) (hs : s.Agrees) (g base size target : Nat) :
    (State.mk c (s.vm.yield g base size target) (s.vars.yield g base target)).Agrees := by
  apply hs.move
  intro x p hp
  cases hp with
  | @slot j hj =>
    obtain ⟨hlt, hj⟩ := Variables.slot_dropFrom.1 hj
    have hne : ¬ (base ≤ j ∧ j < base + size) := by omega
    refine ⟨_, .slot hj, ?_⟩
    simp only [SQVM.held, SQVM.yield, if_neg hne, SQVM.stack_closeOuters]
  | @saved g' r hr =>
    simp only [Variables.yield] at hr
    by_cases hg : g' = g
    · subst hg
      rw [Function.update_self] at hr
      split at hr
      · rename_i hbound
        refine ⟨_, .slot hr, ?_⟩
        simp only [SQVM.held, SQVM.yield, Function.update_self, if_pos hbound.2,
          SQVM.stack_closeOuters]
      · cases hr
    · rw [Function.update_of_ne hg] at hr
      refine ⟨_, .saved hr, ?_⟩
      simp only [SQVM.held, SQVM.yield, Function.update_of_ne hg, SQVM.saved_closeOuters]
  | @captured o ho =>
    refine ⟨_, .captured ho, ?_⟩
    rw [← SQVM.held_place_closeOuters h.outers base o]
    show (s.vm.yield g base size target).held ((s.vm.closeOuters base).place o) = _
    cases hp : (s.vm.closeOuters base).place o with
    | saved => exact absurd hp SQVM.place_ne_saved
    | cell o' => rfl
    | slot j =>
      -- An outer that is still open is below the frame.
      have hj := ((SQVM.valptr_closeOuters h.outers).1 (SQVM.place_eq_slot.1 hp)).2
      have hne : ¬ (base ≤ j ∧ j < base + size) := by omega
      simp only [SQVM.held, SQVM.yield, if_neg hne]

/-- A resume keeps the agreement: the copies come back. -/
theorem agrees_resume (h : Linked s) (hs : s.Agrees) (g base size : Nat) (self : V)
    (hbelow : ∀ {i x}, s.vars.slot i = some x → i < base)
    (hkept : ∀ {r x}, s.vars.saved g r = some x → 0 < r ∧ r < size) :
    (State.mk c (s.vm.resume g base size self) (s.vars.resume g base)).Agrees := by
  have hstack : ∀ {j}, j < base → (s.vm.resume g base size self).stack j = s.vm.stack j := by
    intro j hj
    have hne : ¬ (base < j ∧ j < base + size) := by omega
    simp only [SQVM.resume, if_neg (Nat.ne_of_lt hj), if_neg hne]
  apply hs.move
  intro x p hp
  cases hp with
  | @slot j hj =>
    simp only [Variables.resume] at hj
    split at hj
    · rename_i hle
      obtain ⟨hpos, hlt⟩ := hkept hj
      have hne : ¬ j = base := by omega
      have hin : base < j ∧ j < base + size := by omega
      exact ⟨_, .saved hj, by simp only [SQVM.held, SQVM.resume, if_neg hne, if_pos hin]⟩
    · exact ⟨_, .slot hj, hstack (Nat.lt_of_not_le ‹_›)⟩
  | @saved g' r hr =>
    simp only [Variables.resume] at hr
    by_cases hg : g' = g
    · subst hg
      rw [Function.update_self] at hr
      cases hr
    · rw [Function.update_of_ne hg] at hr
      exact ⟨_, .saved hr, by simp only [SQVM.held, SQVM.resume, Function.update_of_ne hg]⟩
  | @captured o ho =>
    refine ⟨_, .captured ho, ?_⟩
    show (s.vm.resume g base size self).held (s.vm.place o) = _
    cases hp : s.vm.place o with
    | saved => exact absurd hp SQVM.place_ne_saved
    | cell o' => rfl
    | slot j => exact hstack (hbelow (h.opened ho (SQVM.place_eq_slot.1 hp)))

end Steps

/-! ## Frames -/

section Frames

variable {c : Calls} {vars : Variables V}

theorem Framed.drop (h : Framed c vars) {i : Nat} : Framed c (vars.dropFrom i) where
  below hj := h.below (Variables.slot_dropFrom.1 hj).2
  kept := h.kept
  stacked := h.stacked

/-- A write inside the frame keeps it well framed. -/
theorem Framed.write (h : Framed c vars) {r : Nat} (hr : r < c.ci.size) (v : V) :
    Framed c (vars.write (c.ci.stackbase + r) v) := by
  cases hi : vars.slot (c.ci.stackbase + r) with
  | some x =>
    rw [Variables.write_of_some hi]
    exact ⟨h.below, h.kept, h.stacked⟩
  | none =>
    rw [Variables.write_of_none hi]
    refine ⟨?_, h.kept, h.stacked⟩
    intro j x hj
    by_cases hji : j = c.ci.stackbase + r
    · rw [hji]
      exact Nat.add_lt_add_left hr _
    · exact h.below ((Function.update_of_ne hji _ _).symm.trans hj)

/-- A call opens a frame behind the running one. -/
theorem Framed.call (h : Framed c vars) {r size : Nat} (hr : r ≤ c.ci.size) :
    Framed { c with
      ci := ⟨c.ci.stackbase + r, size, none⟩
      callers := c.ci :: c.callers } (vars.dropFrom (c.ci.stackbase + r)) where
  below hj := Nat.lt_of_lt_of_le (Variables.slot_dropFrom.1 hj).1 (Nat.le_add_right _ _)
  kept := h.kept
  stacked := List.isChain_cons_cons.2 ⟨Nat.add_le_add_left hr _, h.stacked⟩

theorem Framed.tailcall (h : Framed c vars) {size : Nat} :
    Framed { c with ci := { c.ci with size := max c.ci.size size } }
      (vars.dropFrom c.ci.stackbase) where
  below hj := Nat.lt_of_lt_of_le (Variables.slot_dropFrom.1 hj).1 (Nat.le_add_right _ _)
  kept := h.kept
  stacked := by
    have hs := h.stacked
    cases hc : c.callers with
    | nil => exact List.IsChain.singleton _
    | cons f rest =>
      rw [hc] at hs
      exact List.isChain_cons_cons.2 (List.isChain_cons_cons.1 hs)

/-- The caller runs on; what the frame that is left held is gone from the stack. -/
theorem Framed.leave (h : Framed c vars) {f : SQCallInfo} {rest : List SQCallInfo}
    {generators : Nat → Option SQGeneratorState} {saved : Nat → Nat → Option Nat}
    (hcallers : c.callers = f :: rest)
    (hkept : ∀ {g r x}, saved g r = some x →
      0 < r ∧ ∀ size, generators g = some (.suspended size) → r < size) :
    Framed ⟨f, rest, generators⟩ { vars.dropFrom c.ci.stackbase with saved := saved } := by
  have hs := h.stacked
  rw [hcallers] at hs
  obtain ⟨hle, hs⟩ := List.isChain_cons_cons.1 hs
  exact ⟨fun hj => Nat.lt_of_lt_of_le (Variables.slot_dropFrom.1 hj).1 hle, hkept, hs⟩

/-- A yield goes back to the frame of the caller. -/
theorem Framed.yield (h : Framed c vars) {g target : Nat} {f : SQCallInfo}
    {rest : List SQCallInfo} (hcallers : c.callers = f :: rest) (htarget : target ≤ c.ci.size) :
    Framed { c.setGenerator g (.suspended c.ci.size) with ci := f, callers := rest }
      (vars.yield g c.ci.stackbase target) := by
  apply h.leave hcallers
  intro g' r x hr
  by_cases hg : g' = g
  · subst hg
    rw [Function.update_self] at hr
    split at hr
    · rename_i hbound
      refine ⟨hbound.1, ?_⟩
      intro size hsize
      rw [Calls.setGenerator_self] at hsize
      cases hsize
      exact Nat.lt_of_lt_of_le hbound.2 htarget
    · cases hr
  · rw [Function.update_of_ne hg] at hr
    rw [Calls.setGenerator_of_ne c hg]
    exact h.kept hr

theorem Calls.generators_kill {g size : Nat} (h : c.kill.generators g = some (.suspended size)) :
    c.generators g = some (.suspended size) := by
  unfold kill at h
  split at h
  · rename_i g' _
    by_cases hg : g = g'
    · subst hg
      rw [setGenerator_self] at h
      cases h
    · rwa [setGenerator_of_ne c hg] at h
  · exact h

/-- A resume opens a frame of the size that was saved. -/
theorem Framed.resume (h : Framed c vars) {g size : Nat}
    (hg : c.generators g = some (.suspended size)) :
    Framed { c.setGenerator g .running with
      ci := ⟨c.ci.top, size, some g⟩
      callers := c.ci :: c.callers } (vars.resume g c.ci.top) := by
  constructor
  · intro j x hj
    simp only [Variables.resume] at hj
    split at hj
    · have hlt := (h.kept hj).2 size hg
      show j < c.ci.top + size
      omega
    · exact Nat.lt_of_lt_of_le (h.below hj) (Nat.le_add_right _ _)
  · intro g' r x hr
    simp only [Variables.resume] at hr
    by_cases hg' : g' = g
    · subst hg'
      rw [Function.update_self] at hr
      cases hr
    · rw [Function.update_of_ne hg'] at hr
      rw [Calls.setGenerator_of_ne c hg']
      exact h.kept hr
  · exact List.isChain_cons_cons.2 ⟨Nat.le_refl _, h.stacked⟩

end Frames

/-! ## Runs -/

variable [Inhabited V]

/-- What one step keeps, and when the two sides agree after it. -/
theorem State.Step.linked {s s' : State V} {op : Op V} (h : s.Step op s') (hl : Linked s)
    (hf : Framed s.calls s.vars) :
    Linked s' ∧ Framed s'.calls s'.vars ∧ (s.Agrees → (s'.Agrees ↔ s.WrittenWhole op)) := by
  obtain ⟨hcalls, hvars⟩ := h
  -- each operation keeps frames and variables linked; only the two writes can lose the agreement
  cases hcalls with
  | @write r v hr =>
    cases hvars
    exact ⟨hl.write _ v, hf.write hr v, fun hs => agrees_write_iff hl hs _ v⟩
  | @capture r hr =>
    obtain ⟨x, hx, hvars⟩ := Option.map_eq_some_iff.1 hvars
    subst hvars
    obtain ⟨o, hcap⟩ := @SQVM.captures V _ s.vm (s.calls.ci.stackbase + r) hl.outers
    exact ⟨hl.capture hcap hx, ⟨hf.below, hf.kept, hf.stacked⟩,
      fun hs => iff_of_true (agrees_capture hl hs hcap hx) trivial⟩
  | @setOuter k v hk =>
    obtain ⟨o, ho⟩ : ∃ o, s.vm.outervalues[k]? = some o := ⟨_, List.getElem?_eq_getElem hk⟩
    obtain ⟨x, hx⟩ : ∃ x, s.vars.captured[k]? = some x :=
      ⟨_, List.getElem?_eq_getElem (hl.captures ▸ hk)⟩
    have hmem : s.CapturedAs o x :=
      List.mem_of_getElem? (List.getElem?_zip_eq_some.2 ⟨ho, hx⟩)
    cases hvars
    simp only [SQVM.apply, SQVM.setOuter, Variables.setOuter, ho, hx]
    refine ⟨hl.setOuter _ v x, ⟨hf.below, hf.kept, hf.stacked⟩, fun hs => ?_⟩
    rw [agrees_put_iff hl hs (.captured hmem)]
    constructor
    · intro hw o' x' ho' hx'
      obtain rfl : o = o' := Option.some.inj (ho.symm.trans ho')
      obtain rfl : x = x' := Option.some.inj (hx.symm.trans hx')
      exact hw
    · exact fun hw => hw o x ho hx
  | @close r =>
    cases hvars
    exact ⟨hl.close _, hf.drop, fun hs => iff_of_true (agrees_close hl hs _) trivial⟩
  | @call r size hr hargs =>
    cases hvars
    exact ⟨hl.enter hargs, hf.call hr, fun hs => iff_of_true (agrees_enter hs _) trivial⟩
  | tailcall =>
    cases hvars
    exact ⟨hl.close _, hf.tailcall, fun hs => iff_of_true (agrees_close hl hs _) trivial⟩
  | leave hcallers =>
    cases hvars
    refine ⟨hl.close _, hf.leave hcallers ?_,
      fun hs => iff_of_true (agrees_close hl hs _) trivial⟩
    intro g r x hr
    exact ⟨(hf.kept hr).1, fun size hsize => (hf.kept hr).2 size (Calls.generators_kill hsize)⟩
  | create hcallers =>
    cases hvars
    exact ⟨hl.yield _ _ _ _, hf.yield hcallers (Nat.le_refl _),
      fun hs => iff_of_true (agrees_yield hl hs _ _ _ _) trivial⟩
  | yield hcallers _ htarget =>
    cases hvars
    exact ⟨hl.yield _ _ _ _, hf.yield hcallers htarget,
      fun hs => iff_of_true (agrees_yield hl hs _ _ _ _) trivial⟩
  | @resume g size self hg =>
    cases hvars
    refine ⟨hl.resume _ _ _ _ hf.below, hf.resume hg, fun hs => iff_of_true ?_ trivial⟩
    exact agrees_resume hl hs _ _ _ _ hf.below fun hr =>
      ⟨(hf.kept hr).1, (hf.kept hr).2 size hg⟩

variable {P : State V → Op V → State V → Prop} {size : Nat} {ops : List (Op V)} {s : State V}

/-- Every run keeps the link and the frames. -/
theorem Run.linked (h : Run P size ops s) : Linked s ∧ Framed s.calls s.vars := by
  induction h with
  | initial => exact ⟨linked_initial size, framed_initial size⟩
  | step hrun hstep hp ih =>
    obtain ⟨hl, hf, -⟩ := hstep.linked ih.1 ih.2
    exact ⟨hl, hf⟩

theorem agrees_initial : (State.initial size : State V).Agrees := by
  intro x p hp
  cases hp with
  | slot hs => exact nomatch hs
  | saved hs => exact nomatch hs
  | captured hc => exact absurd hc List.not_mem_nil

theorem Run.agrees (h : Run (fun _ _ s' => s'.Agrees) size ops s) : s.Agrees := by
  cases h with
  | initial => exact agrees_initial
  | step hrun hstep hp => exact hp

/-- In a run that agrees all along, every write is whole. -/
theorem Run.written_whole (h : Run (fun _ _ s' => s'.Agrees) size ops s) :
    Run (fun s op _ => s.WrittenWhole op) size ops s := by
  induction h with
  | initial => exact .initial
  | step hrun hstep hp ih =>
    obtain ⟨hl, hf⟩ := hrun.linked
    obtain ⟨-, -, hiff⟩ := hstep.linked hl hf
    exact ih.step hstep ((hiff hrun.agrees).1 hp)

/-- A run whose writes are all whole agrees all along. -/
theorem Run.agreeing (h : Run (fun s op _ => s.WrittenWhole op) size ops s) :
    Run (fun _ _ s' => s'.Agrees) size ops s := by
  induction h with
  | initial => exact .initial
  | step hrun hstep hp ih =>
    obtain ⟨hl, hf⟩ := hrun.linked
    obtain ⟨-, -, hiff⟩ := hstep.linked hl hf
    exact ih.step hstep ((hiff ih.agrees).2 hp)

theorem transparent_iff_written_whole (size : Nat) (ops : List (Op V)) (s : State V) :
    Run (fun _ _ s' => s'.Agrees) size ops s ↔ Run (fun s op _ => s.WrittenWhole op) size ops s :=
  ⟨Run.written_whole, Run.agreeing⟩

/-! ## Yielding while a local is captured -/

/-- No closure has captured a local of the frame that is suspended. -/
def State.YieldsUncaptured (s : State V) : Op V → Prop
  | .yield _ base _ _ => ∀ o x i, s.CapturedAs o x → s.vars.slot i = some x → i < base
  | _ => True

/-- Each captured variable is in one place: while it is in scope, its outer is open at its slot. -/
structure Uncut (s : State V) : Prop where
  shared : ∀ {o x i}, s.CapturedAs o x → s.vars.slot i = some x → (s.vm.outers o).valptr = some i
  one : ∀ {o p x}, s.CapturedAs o x → s.CapturedAs p x → o = p
  inner : ∀ {o x g r}, s.CapturedAs o x → s.vars.saved g r ≠ some x

omit [Inhabited V] in
/-- A variable that no yield cut is kept whole. -/
theorem Uncut.whole (h : Uncut s) (hl : Linked s) (x : Nat) : Whole s.Keeps x := by
  intro p q hp hq
  cases hp with
  | slot hi =>
    cases hq with
    | slot hj => rw [hl.slots hi hj]
    | saved hr => exact absurd hr (hl.apart hi)
    | captured hc => exact (SQVM.place_eq_slot.2 (h.shared hc hi)).symm
  | saved hr =>
    cases hq with
    | slot hi => exact absurd hr (hl.apart hi)
    | saved hr' =>
      obtain ⟨rfl, rfl⟩ := hl.saveds hr hr'
      rfl
    | captured hc => exact absurd hr (h.inner hc)
  | captured hc =>
    cases hq with
    | slot hi => exact SQVM.place_eq_slot.2 (h.shared hc hi)
    | saved hr => exact absurd hr (h.inner hc)
    | captured hc' => rw [h.one hc hc']

omit [Inhabited V] in
/-- What is written does not matter. -/
theorem Uncut.put {c : Calls} (h : Uncut s) (p : Place) (v : V) (x : Nat) :
    Uncut ⟨c, s.vm.put p v, { s.vars with value := Function.update s.vars.value x v }⟩ := by
  have ho : (s.vm.put p v).outervalues = s.vm.outervalues := by cases p <;> rfl
  have hcap : ∀ {o y}, State.CapturedAs ⟨c, s.vm.put p v,
      { s.vars with value := Function.update s.vars.value x v }⟩ o y → s.CapturedAs o y := by
    intro o y hc
    simpa only [State.CapturedAs, ho] using hc
  constructor
  · exact fun hc hi => (SQVM.valptr_put _).trans (h.shared (hcap hc) hi)
  · exact fun hc hc' => h.one (hcap hc) (hcap hc')
  · exact fun hc => h.inner (hcap hc)

omit [Inhabited V] in
theorem Uncut.write {c : Calls} (h : Uncut s) (hl : Linked s) (i : Nat) (v : V) :
    Uncut ⟨c, s.vm.put (.slot i) v, s.vars.write i v⟩ := by
  cases hi : s.vars.slot i with
  | some x =>
    rw [Variables.write_of_some hi]
    exact h.put _ v x
  | none =>
    rw [Variables.write_of_none hi]
    refine ⟨?_, h.one, h.inner⟩
    intro o x j hc hj
    by_cases hji : j = i
    · subst hji
      obtain rfl : s.vars.count = x :=
        Option.some.inj ((Function.update_self j _ s.vars.slot).symm.trans hj)
      exact absurd (hl.created hc).2 (Nat.lt_irrefl _)
    · exact h.shared hc ((Function.update_of_ne hji _ _).symm.trans hj)

omit [Inhabited V] in
theorem Uncut.close {c : Calls} (h : Uncut s) (hl : Linked s) (i : Nat) :
    Uncut ⟨c, s.vm.closeOuters i, s.vars.dropFrom i⟩ := by
  refine ⟨?_, h.one, h.inner⟩
  intro o x j hc hj
  obtain ⟨hlt, hj⟩ := Variables.slot_dropFrom.1 hj
  exact (SQVM.valptr_closeOuters hl.outers).2 ⟨h.shared hc hj, hlt⟩

omit [Inhabited V] in
theorem Uncut.capture {c : Calls} {vm : SQVM V} {i o x : Nat} (h : Uncut s) (hl : Linked s)
    (hcap : Captures s.vm vm i o) (hi : s.vars.slot i = some x) :
    Uncut ⟨c, vm, { s.vars with captured := s.vars.captured ++ [x] }⟩ := by
  have hc : ∀ {p y}, State.CapturedAs
      ⟨c, vm, { s.vars with captured := s.vars.captured ++ [x] }⟩ p y ↔
        s.CapturedAs p y ∨ (p = o ∧ y = x) :=
    capturedAs_snoc hl hcap.outervalues rfl
  have hold : ∀ {p y j}, s.CapturedAs p y → s.vars.slot j = some y →
      (vm.outers p).valptr = some j := by
    intro p y j hp hj
    rw [hcap.others p (hl.created hp).1]
    exact h.shared hp hj
  -- The slot has one open outer, so an earlier capture of the variable gave the same one.
  have hsame : ∀ {p}, s.CapturedAs p x → p = o := fun hp =>
    hcap.openList.eq_of_slot (hold hp hi) hcap.valptr
  constructor
  · intro p y j hp hj
    rcases hc.1 hp with hp | ⟨rfl, rfl⟩
    · exact hold hp hj
    · rw [hl.slots hj hi]
      exact hcap.valptr
  · intro p q y hp hq
    rcases hc.1 hp with hp₁ | ⟨hpo, hyx⟩
    · rcases hc.1 hq with hq₁ | ⟨hqo, hyx⟩
      · exact h.one hp₁ hq₁
      · rw [hyx] at hp₁
        exact (hsame hp₁).trans hqo.symm
    · rcases hc.1 hq with hq₁ | ⟨hqo, -⟩
      · rw [hyx] at hq₁
        exact hpo.trans (hsame hq₁).symm
      · exact hpo.trans hqo.symm
  · intro p y g r hp hr
    rcases hc.1 hp with hp | ⟨-, rfl⟩
    · exact h.inner hp hr
    · exact hl.apart hi hr

theorem Uncut.yield {c : Calls} {g base n target : Nat} (h : Uncut s) (hl : Linked s)
    (hu : s.YieldsUncaptured (.yield g base n target)) :
    Uncut ⟨c, s.vm.yield g base n target, s.vars.yield g base target⟩ := by
  refine ⟨(h.close (c := c) hl base).shared, h.one, ?_⟩
  intro o x g' r hc hr
  simp only [Variables.yield] at hr
  by_cases hg : g' = g
  · subst hg
    rw [Function.update_self] at hr
    split at hr
    · have hlt := hu o x _ hc hr
      omega
    · cases hr
  · rw [Function.update_of_ne hg] at hr
    exact h.inner hc hr

theorem Uncut.resume {c : Calls} {g base n : Nat} {self : V} (h : Uncut s) :
    Uncut ⟨c, s.vm.resume g base n self, s.vars.resume g base⟩ := by
  refine ⟨?_, h.one, ?_⟩
  · intro o x j hc hj
    simp only [Variables.resume] at hj
    split at hj
    · exact absurd hj (h.inner hc)
    · exact h.shared hc hj
  · intro o x g' r hc hr
    simp only [Variables.resume] at hr
    by_cases hg : g' = g
    · subst hg
      rw [Function.update_self] at hr
      cases hr
    · rw [Function.update_of_ne hg] at hr
      exact h.inner hc hr

/-- One step leaves no variable cut when it yields no captured one. -/
theorem State.Step.uncut {s s' : State V} {op : Op V} (h : s.Step op s') (hl : Linked s)
    (hs : Uncut s) (hu : s.YieldsUncaptured op) : Uncut s' := by
  obtain ⟨hcalls, hvars⟩ := h
  cases hcalls with
  | write hr =>
    cases hvars
    exact hs.write hl _ _
  | @capture r hr =>
    obtain ⟨x, hx, hvars⟩ := Option.map_eq_some_iff.1 hvars
    subst hvars
    obtain ⟨o, hcap⟩ := @SQVM.captures V _ s.vm (s.calls.ci.stackbase + r) hl.outers
    exact hs.capture hl hcap hx
  | @setOuter k v hk =>
    obtain ⟨o, ho⟩ : ∃ o, s.vm.outervalues[k]? = some o := ⟨_, List.getElem?_eq_getElem hk⟩
    obtain ⟨x, hx⟩ : ∃ x, s.vars.captured[k]? = some x :=
      ⟨_, List.getElem?_eq_getElem (hl.captures ▸ hk)⟩
    cases hvars
    simp only [SQVM.apply, SQVM.setOuter, Variables.setOuter, ho, hx]
    exact hs.put _ v x
  | close => cases hvars; exact hs.close hl _
  | call hr hargs =>
    cases hvars
    exact ⟨fun hc hj => hs.shared hc (Variables.slot_dropFrom.1 hj).2, hs.one, hs.inner⟩
  | tailcall => cases hvars; exact hs.close hl _
  | leave => cases hvars; exact hs.close hl _
  | create => cases hvars; exact hs.yield hl hu
  | yield => cases hvars; exact hs.yield hl hu
  | resume => cases hvars; exact hs.resume

theorem uncut_initial : Uncut (State.initial size : State V) where
  shared hc := absurd hc List.not_mem_nil
  one hc := absurd hc List.not_mem_nil
  inner hc := absurd hc List.not_mem_nil

/-- A run that never yields a captured variable leaves none cut. -/
theorem Run.uncut (h : Run (fun s op _ => s.YieldsUncaptured op) size ops s) : Uncut s := by
  induction h with
  | initial => exact uncut_initial
  | step hrun hstep hp ih => exact hstep.uncut hrun.linked.1 ih hp

omit [Inhabited V] in
/-- Where nothing is cut every write is whole. -/
theorem Uncut.writtenWhole (h : Uncut s) (hl : Linked s) (op : Op V) : s.WrittenWhole op := by
  cases op with
  | write i v => exact fun x _ => .inl (h.whole hl x)
  | setOuter k v => exact fun o x _ _ => .inl (h.whole hl x)
  | _ => trivial

/-- Where no generator yields with a captured local in scope, and so where none yields at all, every
variable is shared as by reference. -/
theorem Run.agreeing_of_uncaptured (h : Run (fun s op _ => s.YieldsUncaptured op) size ops s) :
    Run (fun _ _ s' => s'.Agrees) size ops s := by
  apply Run.agreeing
  induction h with
  | initial => exact .initial
  | step hrun hstep hp ih =>
    exact ih.step hstep (hrun.uncut.writtenWhole hrun.linked.1 _)

/-! A generator writes 5 to a local, a closure captures it, the generator yields and is resumed, and
the closure writes 7. The generator still reads 5. -/

/-- The write of a closure after a yield is not seen by the generator. -/
theorem closure_write_not_seen :
    ∃ s : State Nat,
      Run (fun _ _ _ => True) 2
        [.enter 1, .yield 0 1 3 3, .resume 0 2 3 0, .write 3 5, .capture 3, .yield 0 2 3 2,
          .resume 0 2 3 0, .setOuter 0 7] s ∧
      s.vm.held (s.vm.place 0) = 7 ∧ s.vm.stack 3 = 5 ∧ ¬ s.Agrees := by
  have h1 := (@Run.initial Nat _ (fun _ _ _ => True) 2).step
    (.mk (@Calls.Next.call Nat _ _ 1 3 (by decide) fun _ _ ho => nomatch ho) rfl) trivial
  have h2 := h1.step (.mk (@Calls.Next.create Nat _ _ 0 _ _ rfl rfl rfl) rfl) trivial
  have h3 := h2.step (.mk (@Calls.Next.resume Nat _ _ 0 _ 0 rfl) rfl) trivial
  have h4 := h3.step (.mk (@Calls.Next.write Nat _ _ 1 5 (by decide)) rfl) trivial
  have h5 := h4.step (.mk (@Calls.Next.capture Nat _ _ 1 (by decide)) rfl) trivial
  have h6 := h5.step (.mk (@Calls.Next.yield Nat _ _ 0 2 _ _ rfl rfl (by decide)) rfl) trivial
  have h7 := h6.step (.mk (@Calls.Next.resume Nat _ _ 0 _ 0 rfl) rfl) trivial
  have h8 := h7.step (.mk (@Calls.Next.setOuter Nat _ _ 0 7 (by decide)) rfl) trivial
  refine ⟨_, h8, rfl, rfl, ?_⟩
  intro hs
  exact absurd (hs 0 (.slot 3) (.slot rfl)) (by decide)

end Quirrel.Generator
