import Quirrel.Class.InlineCache

/-!
# Native fields

A native field is a place in the inline userdata at the end of an instance. `RegisterNativeField`
checks its bound once, against the size that the class has then, and nothing checks it when
`sq_setclassudsize` gives the class, or a class derived from it, another size. While no such call
cuts off a field, every native field of every instance lies inside the userdata
(`native_fields_inside`).
-/

set_option autoImplicit false

namespace Quirrel.Class

universe u v w

variable {K : Type u} {V : Type v} {D : Type w}

/-! ## Places -/

/-- The bytes of the field lie in `[0, udsize)`. -/
def NativeFieldDesc.Within (desc : NativeFieldDesc) (udsize : Int) : Prop :=
  ∃ h : desc.type < typeSizes.length, desc.offset + typeSizes[desc.type] ≤ udsize

/-- All native fields of the class lie in `[0, udsize)`. -/
def SQClass.FieldsFit (c : SQClass K V) (udsize : Int) : Prop :=
  ∀ desc ∈ c.nativefields, desc.Within udsize

/-- Every live instance has a live class, its inline userdata is a part of its allocation, and every
native field lies inside the userdata. -/
def NativeFieldsInside (s : State K V D) : Prop :=
  ∀ inst i, s.heap.instances inst = some i → ∃ c, s.heap.classes i.cls = some c ∧
    0 ≤ i.inlineudOffset c ∧ c.FieldsFit c.udsize

/-- No size that is set cuts off a native field that the class has. -/
def KeepsFields (s : State K V D) : Event K V D → Prop
  | .setClassUdSize cls udsize =>
    ∀ c, s.heap.classes cls = some c → c.isLocked = false → c.FieldsFit udsize
  | _ => True

/-! ## The invariant -/

/-- What every run that keeps the fields keeps. An instance was made of a class that is locked, so
the size of its userdata is still the one with which it was allocated. -/
structure BlocksHold (s : State K V D) : Prop where
  fit : ∀ cls c, s.heap.classes cls = some c → c.FieldsFit c.udsize
  addr : ∀ cls c, s.heap.classes cls = some c → 256 ≤ cls ∧ cls < 2 ^ 48
  block : ∀ inst i, s.heap.instances inst = some i → ∃ c, s.heap.classes i.cls = some c ∧
    c.isLocked = true ∧ 0 ≤ i.inlineudOffset c

variable {s : State K V D}

theorem blocksHold_initial : BlocksHold (State.initial : State K V D) := by
  constructor <;> intros <;> contradiction

theorem classes_setClass {cls d : Nat} {c e : SQClass K V}
    (h : (s.setClass cls (some c)).heap.classes d = some e) :
    (d = cls ∧ e = c) ∨ (d ≠ cls ∧ s.heap.classes d = some e) := by
  simp only [State.setClass, Function.update_apply] at h
  split at h
  · rename_i hd
    exact Or.inl ⟨hd, (Option.some.inj h).symm⟩
  · rename_i hd
    exact Or.inr ⟨hd, h⟩

/-- A class on free memory. -/
theorem BlocksHold.newClass (h : BlocksHold s) {cls : Nat} {c : SQClass K V}
    (hfresh : FreshAddr s cls) (hfit : c.FieldsFit c.udsize) :
    BlocksHold (s.setClass cls (some c)) := by
  constructor
  case fit =>
    intro d e he
    rcases classes_setClass he with ⟨-, rfl⟩ | ⟨-, he⟩
    · exact hfit
    · exact h.fit d e he
  case addr =>
    intro d e he
    rcases classes_setClass he with ⟨rfl, -⟩ | ⟨-, he⟩
    · exact ⟨hfresh.1, hfresh.2.1⟩
    · exact h.addr d e he
  case block =>
    intro inst i hi
    obtain ⟨e, he, hlocked, hoff⟩ := h.block inst i hi
    -- The class of a live instance is live, so it is not at the new address.
    have hne : i.cls ≠ cls := by
      rintro rfl
      rcases hfresh.2.2 _ e he with hlt | hlt <;> omega
    exact ⟨e, by simpa [State.setClass, Function.update_of_ne hne] using he, hlocked, hoff⟩

/-- A live class changed in place: a locked one keeps its lock and its size. -/
theorem BlocksHold.updateClass (h : BlocksHold s) {cls : Nat} {c c' : SQClass K V}
    (hc : s.heap.classes cls = some c) (hfit : c'.FieldsFit c'.udsize)
    (hkeep : c.isLocked = true → c'.isLocked = true ∧ c'.udsize = c.udsize) :
    BlocksHold (s.setClass cls (some c')) := by
  constructor
  case fit =>
    intro d e he
    rcases classes_setClass he with ⟨-, rfl⟩ | ⟨-, he⟩
    · exact hfit
    · exact h.fit d e he
  case addr =>
    intro d e he
    rcases classes_setClass he with ⟨rfl, -⟩ | ⟨-, he⟩
    · exact h.addr d c hc
    · exact h.addr d e he
  case block =>
    intro inst i hi
    obtain ⟨e, he, hlocked, hoff⟩ := h.block inst i hi
    cases Decidable.em (i.cls = cls) with
    | inl heq =>
      obtain rfl : c = e := Option.some.inj ((heq ▸ hc).symm.trans he)
      obtain ⟨hlocked', hsize⟩ := hkeep hlocked
      refine ⟨c', by simp [State.setClass, heq], hlocked', ?_⟩
      rw [SQInstance.inlineudOffset, hsize]
      exact hoff
    | inr hne =>
      exact ⟨e, by simpa [State.setClass, Function.update_of_ne hne] using he, hlocked, hoff⟩

/-- An instance put at an address, or taken away. -/
theorem BlocksHold.setInstance (h : BlocksHold s) {inst : Nat} {i : Option (SQInstance V D)}
    (hi : ∀ j, i = some j → ∃ c, s.heap.classes j.cls = some c ∧ c.isLocked = true ∧
      0 ≤ j.inlineudOffset c) : BlocksHold (s.setInstance inst i) := by
  constructor
  case fit => exact h.fit
  case addr => exact h.addr
  case block =>
    intro a j hj
    simp only [State.setInstance, Function.update_apply] at hj
    split at hj
    · exact hi j hj
    · exact h.block a j hj

theorem BlocksHold.setHint (h : BlocksHold s) (site hint : Nat) : BlocksHold (s.setHint site hint) :=
  ⟨h.fit, h.addr, h.block⟩

theorem BlocksHold.destroyClass (h : BlocksHold s) {cls : Nat} (hfree : Unreferenced s cls) :
    BlocksHold (s.setClass cls none) := by
  have hclasses : ∀ d e, (s.setClass cls none).heap.classes d = some e →
      s.heap.classes d = some e := by
    intro d e he
    simp only [State.setClass, Function.update_apply] at he
    split at he
    · cases he
    · exact he
  constructor
  case fit => exact fun d e he => h.fit d e (hclasses d e he)
  case addr => exact fun d e he => h.addr d e (hclasses d e he)
  case block =>
    intro inst i hi
    obtain ⟨e, he, hlocked, hoff⟩ := h.block inst i hi
    have hne : i.cls ≠ cls := hfree.1 inst i hi
    exact ⟨e, by simpa [State.setClass, Function.update_of_ne hne] using he, hlocked, hoff⟩

/-! ## Steps -/

variable [DecidableEq K]

/-- What `RegisterNativeField` adds lies inside. -/
theorem fieldsFit_registerNativeField {c : SQClass K V} (h : c.FieldsFit c.udsize) (key : K)
    (desc : NativeFieldDesc) :
    (c.registerNativeField key desc).1.FieldsFit (c.registerNativeField key desc).1.udsize := by
  unfold SQClass.registerNativeField
  split
  · exact h
  split
  · exact h
  · rename_i hpos
    split
    · rename_i htype
      split
      · exact h
      rename_i hbound
      split
      · exact h
      split
      · exact h
      · intro d hd
        rcases List.mem_append.1 hd with hd | hd
        · exact h d hd
        · rw [List.mem_singleton.1 hd]
          refine ⟨htype, ?_⟩
          -- The truncated size is not above the size.
          have htrunc : c.udsize.toNat % 2 ^ 32 ≤ c.udsize.toNat := Nat.mod_le _ _
          show (desc.offset + typeSizes[desc.type] : Int) ≤ c.udsize
          omega
    · exact h

omit [DecidableEq K] in
theorem isLocked_currentHint {cls : Nat} (c : SQClass K V) (haddr : 256 ≤ cls ∧ cls < 2 ^ 48) :
    ({ c with lockedTypeId := currentHint cls } : SQClass K V).isLocked = true :=
  isLocked_iff.2 (currentHint_ne_zero haddr.1 haddr.2)

variable {ops : ObjectOps K V D} {sites : Nat → Site K}

/-- A step that keeps the fields keeps the blocks. -/
theorem BlocksHold.step (h : BlocksHold s) {e : Event K V D} {s' : State K V D}
    (hkeeps : KeepsFields s e) (hstep : Step ops sites s e s') : BlocksHold s' := by
  cases hstep with
  | createClass hfresh => exact h.newClass hfresh (fun d hd => absurd hd List.not_mem_nil)
  | createDerived hfresh hb hlocked =>
    have hfit := h.fit _ _ hb
    exact h.newClass hfresh hfit
  | @newSlot cls c key val bstatic hc =>
    have hsame := sameLayout_newSlot ops c key val bstatic
    apply h.updateClass hc
    · rw [SQClass.FieldsFit, hsame.nativefields, hsame.udsize]
      exact h.fit cls c hc
    · intro hlocked
      rw [isLocked_iff, hsame.lockedTypeId]
      exact ⟨isLocked_iff.1 hlocked, hsame.udsize⟩
  -- a new native field is checked against the size of the class, and a locked class takes none
  | @registerNativeField cls c key desc hc =>
    apply h.updateClass hc (fieldsFit_registerNativeField (h.fit cls c hc) key desc)
    intro hlocked
    rw [registerNativeField_of_locked hlocked]
    exact ⟨hlocked, rfl⟩
  | setClassUdSize hc hopen =>
    apply h.updateClass hc (hkeeps _ hc hopen)
    intro hlocked
    exact absurd (hopen.symm.trans hlocked) Bool.false_ne_true
  | setMethodByHandle hc =>
    have hfit := h.fit _ _ hc
    exact h.updateClass hc hfit fun hlocked => ⟨hlocked, rfl⟩
  | setDefaultByHandle hc =>
    have hfit := h.fit _ _ hc
    exact h.updateClass hc hfit fun hlocked => ⟨hlocked, rfl⟩
  | lock hc =>
    have hfit := h.fit _ _ hc
    exact h.updateClass hc hfit fun _ => ⟨isLocked_currentHint _ (h.addr _ _ hc), rfl⟩
  | @createInstance inst cls c ud hfresh hc hlocked =>
    apply h.setInstance
    rintro j ⟨⟩
    -- the block of a new instance has the size of its class
    refine ⟨c, hc, hlocked, ?_⟩
    show 0 ≤ c.udsize + ops.instanceHeader c.defaultvalues.length - c.udsize
    omega
  | storeInstance hi hlen =>
    apply h.setInstance
    rintro j ⟨⟩
    have hblock := h.block _ _ hi
    exact hblock
  | destroyInstance =>
    apply h.setInstance
    rintro j ⟨⟩
  | destroyClass hfree => exact h.destroyClass hfree
  | getLiteral hkind hi hc => exact h.setHint _ _
  | @setLiteral site from_ val i c outcome hint hkind hi hc hset =>
    cases outcome with
    | stored i' =>
      -- a store keeps the class of the instance, hence its block
      refine BlocksHold.setHint (h.setInstance ?_) _ _
      rintro j ⟨⟩
      obtain ⟨hcls, hmem, -⟩ := stored_block (by rw [hset])
      unfold SQInstance.inlineudOffset
      rw [hcls, hmem]
      exact h.block _ i hi
    | typeMismatch => exact h.setHint _ _
    | immutable => exact h.setHint _ _
    | fallBackSet => exact h.setHint _ _
  | accessTable hcid hidx => exact h.setHint _ _

/-! ## Runs -/

theorem RunOf.blocksHold (hrun : RunOf ops sites KeepsFields s) : BlocksHold s := by
  induction hrun with
  | initial => exact blocksHold_initial
  | step _ he hstep ih => exact ih.step he hstep

/-- **Native fields stay inside**, in every state that a run reaches in which no size that is set
cuts off a native field. -/
theorem native_fields_inside (ops : ObjectOps K V D) (sites : Nat → Site K) (s : State K V D)
    (hrun : RunOf ops sites KeepsFields s) : NativeFieldsInside s := by
  intro inst i hi
  obtain ⟨c, hc, -, hoff⟩ := hrun.blocksHold.block inst i hi
  exact ⟨c, hc, hoff, hrun.blocksHold.fit _ c hc⟩

/-! ## A class that is made smaller -/

/-- A class at 4096 with the size 16 and a field of 8 bytes at the offset 8. -/
def fieldClass : SQClass Nat Nat :=
  (({ emptyClass with udsize := 16 } : SQClass Nat Nat).registerNativeField 7 ⟨8, 1⟩).1

/-- A class with user data of 16 bytes and a native field in it. -/
def fieldState : State Nat Nat Unit :=
  (((State.initial.setClass 4096 (some emptyClass)).setClass 4096
    (some { emptyClass with udsize := 16 })).setClass 4096 (some fieldClass))

theorem fieldState_run {P : State Nat Nat Unit → Event Nat Nat Unit → Prop}
    (hcreate : P State.initial (.createClass 4096 none))
    (hsize : P (State.initial.setClass 4096 (some emptyClass)) (.setClassUdSize 4096 16))
    (hfield : P ((State.initial.setClass 4096 (some emptyClass)).setClass 4096
      (some { emptyClass with udsize := 16 })) (.registerNativeField 4096 7 ⟨8, 1⟩)) :
    RunOf numberOps loadSeven P fieldState := by
  have h1 : RunOf numberOps loadSeven P (State.initial.setClass 4096 (some emptyClass)) := by
    apply RunOf.step .initial hcreate
    exact .createClass ⟨by decide, by decide, fun cls c hc => by cases hc⟩
  have h2 := h1.step hsize (.setClassUdSize rfl rfl)
  exact h2.step hfield (.registerNativeField rfl)

/-- The class with another size, locked, and an instance of it at 64. -/
def resizedState (udsize : Int) : State Nat Nat Unit :=
  ((fieldState.setClass 4096 (some { fieldClass with udsize := udsize })).setClass 4096
    (some { fieldClass with udsize := udsize, lockedTypeId := currentHint 4096 })).setInstance 64
    (some (SQInstance.create numberOps 4096
      { fieldClass with udsize := udsize, lockedTypeId := currentHint 4096 } ()))

theorem resizedState_run {P : State Nat Nat Unit → Event Nat Nat Unit → Prop} {udsize : Int}
    (hrun : RunOf numberOps loadSeven P fieldState)
    (hsize : P fieldState (.setClassUdSize 4096 udsize))
    (hlock : ∀ s, P s (.lock 4096)) (hinst : ∀ s, P s (.createInstance 64 4096 ())) :
    RunOf numberOps loadSeven P (resizedState udsize) := by
  have h1 := hrun.step hsize (.setClassUdSize rfl rfl)
  have h2 := h1.step (hlock _) (.lock rfl)
  exact h2.step (hinst _) (@Step.createInstance _ _ _ _ _ _ _ 64 4096
    { fieldClass with udsize := udsize, lockedTypeId := currentHint 4096 } () rfl rfl rfl)

theorem native_fields_inside_larger : NativeFieldsInside (resizedState 24) := by
  apply native_fields_inside numberOps loadSeven
  apply resizedState_run
  · apply fieldState_run
    · trivial
    · rintro c ⟨⟩ - desc hd
      exact absurd hd List.not_mem_nil
    · trivial
  · rintro c ⟨⟩ - desc hd
    obtain rfl : desc = ⟨8, 1⟩ := List.mem_singleton.1 hd
    exact ⟨by decide, by decide⟩
  · exact fun s => trivial
  · exact fun s => trivial

theorem shrunk_class_not_inside :
    RunOf numberOps loadSeven (fun _ _ => True) (resizedState 4) ∧
      ¬ NativeFieldsInside (resizedState 4) := by
  constructor
  · exact resizedState_run (fieldState_run trivial trivial trivial) trivial (fun _ => trivial)
      fun _ => trivial
  · intro h
    obtain ⟨c, hc, -, hfit⟩ := h 64 _ rfl
    cases hc
    obtain ⟨htype, hle⟩ := hfit ⟨8, 1⟩ List.mem_cons_self
    have hend : ¬ (8 + 8 : Int) ≤ 4 := by decide
    exact hend hle

end Quirrel.Class
