import Quirrel.Class.Members
import Quirrel.Table.Basic

/-!
# Inline caches of instance accesses

`_OP_GET_LITERAL` and `_OP_SET_LITERAL` keep a hint word in the instruction: the id of a locked class
and the member index that the key had in it. `getLiteral` and `setLiteral` use the hint, `getImpl`
and `set` do not. The machine takes events: classes are created, extended, locked and destroyed,
their addresses are used again, and instructions are executed. While every event is safe
(`SafeEvent`), a hint whose id is that of a live locked class holds the index that a lookup finds
(`CacheHolds`), and so both ways to access an instance agree (`safeRun_cached_agrees`).
-/

set_option autoImplicit false

namespace Quirrel.Class

universe u v w

/-! ## Hints -/

/-- Whether the instruction reads a member or writes it. -/
inductive AccessKind where
  | get
  | set
  deriving DecidableEq

/-- An instruction with a hint word: its kind and its literal key. -/
structure Site (K : Type u) where
  kind : AccessKind
  key : K

/-- `(uint64_t(memberIdx) << CLASS_BITS) | classTypeId` -/
def makeHint (idx classTypeId : Nat) : Nat := (idx <<< classBits) % 2 ^ 64 ||| classTypeId

/-- `uint32_t(hint >> CLASS_BITS)` -/
def memberFromHint (hint : Nat) : Nat := (hint >>> classBits) % 2 ^ 32

variable {K : Type u} {V : Type v} {D : Type w}

/-- The classes and instances by address; an address that is free has neither. -/
structure Heap (K : Type u) (V : Type v) (D : Type w) where
  classes : Nat → Option (SQClass K V)
  instances : Nat → Option (SQInstance V D)

/-- The heap and the hints in the instructions, which start at 0. -/
structure State (K : Type u) (V : Type v) (D : Type w) where
  heap : Heap K V D
  hints : Nat → Nat

/-- A reference to an instance, with its flag `SQOBJ_FLAG_IMMUTABLE`. -/
structure InstanceRef where
  addr : Nat
  immutable : Bool

variable [DecidableEq K]

/-- The member index that a lookup gives an instruction; zero when there is none, for a store also
when the member is a method. -/
def freshMemberIdx (c : SQClass K V) (site : Site K) : Nat :=
  match c.members.lookup site.key with
  | none => 0
  | some idx =>
    match site.kind with
    | .get => idx
    | .set => if isField idx || isNativeField idx then idx else 0

/-- The member index that an instruction uses and the hint that it leaves. -/
def cachedMemberIdx (c : SQClass K V) (site : Site K) (hint : Nat) : Nat × Nat :=
  if c.lockedTypeId ≠ 0 ∧ classTypeFromHint hint = c.lockedTypeId then (memberFromHint hint, hint)
  else (freshMemberIdx c site, makeHint (freshMemberIdx c site) c.lockedTypeId)

/-! ## Accesses -/

/-- What an access reads. After `FallBackGet` both ways of access do the same: an index error when
there is no match, else the value with the flag of the instance. -/
inductive GetOutcome (V : Type v) where
  | value (val : V)
  | fallBackGet

/-- What a store does. After `FallBackSet` both ways of access do the same. -/
inductive SetOutcome (V : Type v) (D : Type w) where
  | stored (i : SQInstance V D)
  | typeMismatch
  | immutable
  | fallBackSet

variable (ops : ObjectOps K V D)

/-- `propagate_immutable` -/
def propagateImmutable (from_ : InstanceRef) (val : V) : V :=
  if from_.immutable then ops.setImmutable val else val

/-- `SQVM::GetImpl` on an instance. -/
def getImpl (from_ : InstanceRef) (i : SQInstance V D) (c : SQClass K V) (key : K) : GetOutcome V :=
  match c.members.lookup key with
  | some idx => .value (propagateImmutable ops from_ (i.getMember ops c idx))
  | none => .fallBackGet

/-- `SQVM::Set` on an instance, with `SQInstance::Set`. -/
def setInstance (from_ : InstanceRef) (i : SQInstance V D) (c : SQClass K V) (key : K) (val : V) :
    SetOutcome V D :=
  if from_.immutable then .immutable
  else
    match c.members.lookup key with
    | some idx =>
      if isField idx then .stored (i.setMemberField idx val)
      else if isNativeField idx then
        match i.setNativeField ops c (memberIdx idx) val with
        | some i' => .stored i'
        | none => .typeMismatch
      else .fallBackSet
    | none => .fallBackSet

/-- `_OP_GET_LITERAL` on an instance, with the hint that it leaves. -/
def getLiteral (site : Site K) (hint : Nat) (from_ : InstanceRef) (i : SQInstance V D)
    (c : SQClass K V) : GetOutcome V × Nat :=
  let cached := cachedMemberIdx c site hint
  if cached.1 ≠ 0 then
    (.value (propagateImmutable ops from_ (i.getMember ops c cached.1)), cached.2)
  else (.fallBackGet, cached.2)

/-- `_OP_SET_LITERAL` on an instance, with the hint that it leaves. -/
def setLiteral (site : Site K) (hint : Nat) (from_ : InstanceRef) (i : SQInstance V D)
    (c : SQClass K V) (val : V) : SetOutcome V D × Nat :=
  if from_.immutable then (setInstance ops from_ i c site.key val, hint)
  else
    let cached := cachedMemberIdx c site hint
    if cached.1 ≠ 0 then
      if isField cached.1 then (.stored (i.setMemberField cached.1 val), cached.2)
      else
        match i.setNativeField ops c (memberIdx cached.1) val with
        | some i' => (.stored i', cached.2)
        | none => (.typeMismatch, cached.2)
    else (.fallBackSet, cached.2)

/-- The hint after the instruction has found a table with a non-zero `_classTypeId` and the key in
node `nodeIdx` of it. -/
def tableHint (hint : Nat) (cid : UInt64) (nodeIdx : Nat) : Nat :=
  if cid &&& Table.tblClassClassMask = UInt64.ofNat hint &&& Table.tblClassClassMask then hint
  else (cid &&& Table.tblClassClassMask).toNat ||| nodeIdx

/-! ## The machine -/

/-- What happens between two uses of an inline cache. -/
inductive Event (K : Type u) (V : Type v) (D : Type w) where
  | createClass (cls : Nat) (base : Option Nat)
  | newSlot (cls : Nat) (key : K) (val : V) (bstatic : Bool)
  | registerNativeField (cls : Nat) (key : K) (desc : NativeFieldDesc)
  | setClassUdSize (cls : Nat) (udsize : Int)
  /-- A value of the class replaced in place, through a member handle. -/
  | setByHandle (cls : Nat) (isMethod : Bool) (pos : Nat) (val : V)
  | lock (cls : Nat)
  | createInstance (inst cls : Nat) (ud : D)
  /-- Any other store to the values or the userdata of an instance. -/
  | storeInstance (inst : Nat) (values : List V) (ud : D)
  | destroyInstance (inst : Nat)
  | destroyClass (cls : Nat)
  | getLiteral (site : Nat) (from_ : InstanceRef)
  | setLiteral (site : Nat) (from_ : InstanceRef) (val : V)
  | accessTable (site : Nat) (cid : UInt64) (nodeIdx : Nat)

/-- No class, no instance, and no hint filled in. -/
def State.initial : State K V D where
  heap := { classes := fun _ => none, instances := fun _ => none }
  hints _ := 0

/-- The class at an address, or none there. -/
def State.setClass (s : State K V D) (cls : Nat) (c : Option (SQClass K V)) : State K V D :=
  { s with heap := { s.heap with classes := Function.update s.heap.classes cls c } }

/-- The instance at an address, or none there. -/
def State.setInstance (s : State K V D) (inst : Nat) (i : Option (SQInstance V D)) :
    State K V D :=
  { s with heap := { s.heap with instances := Function.update s.heap.instances inst i } }

/-- The hint of an instruction. -/
def State.setHint (s : State K V D) (site hint : Nat) : State K V D :=
  { s with hints := Function.update s.hints site hint }

omit [DecidableEq K] in
@[simp] theorem hints_setHint (s : State K V D) (site hint : Nat) :
    (s.setHint site hint).hints = Function.update s.hints site hint := rfl

/-- A place where the allocator may put a class: inside the 48-bit address space, above the first
page, and apart from the 256 bytes of every live class. -/
def FreshAddr (s : State K V D) (addr : Nat) : Prop :=
  256 ≤ addr ∧ addr < 2 ^ 48 ∧
    ∀ cls c, s.heap.classes cls = some c → addr + 256 ≤ cls ∨ cls + 256 ≤ addr

/-- No instance and no derived class refers to the class. -/
def Unreferenced (s : State K V D) (cls : Nat) : Prop :=
  (∀ inst i, s.heap.instances inst = some i → i.cls ≠ cls) ∧
    ∀ d c, s.heap.classes d = some c → c.base ≠ some cls

variable (sites : Nat → Site K)

/-- One event. The class and the instance it is about are live; a derived class has a locked
base (`SQClass::Create`), an instance has a locked class (`CreateInstance`), and only what nothing
refers to is destroyed. -/
inductive Step (s : State K V D) : Event K V D → State K V D → Prop
  | createClass {cls : Nat} (hfresh : FreshAddr s cls) :
    Step s (.createClass cls none) (s.setClass cls (some (SQClass.create ops none)))
  | createDerived {cls base : Nat} {b : SQClass K V} (hfresh : FreshAddr s cls)
      (hb : s.heap.classes base = some b) (hlocked : b.isLocked = true) :
    Step s (.createClass cls (some base))
      (s.setClass cls (some (SQClass.create ops (some (base, b)))))
  | newSlot {cls : Nat} {c : SQClass K V} {key : K} {val : V} {bstatic : Bool}
      (hc : s.heap.classes cls = some c) :
    Step s (.newSlot cls key val bstatic)
      (s.setClass cls (some (c.newSlot ops key val bstatic).1))
  | registerNativeField {cls : Nat} {c : SQClass K V} {key : K} {desc : NativeFieldDesc}
      (hc : s.heap.classes cls = some c) :
    Step s (.registerNativeField cls key desc)
      (s.setClass cls (some (c.registerNativeField key desc).1))
  | setClassUdSize {cls : Nat} {udsize : Int} {c : SQClass K V} (hc : s.heap.classes cls = some c)
      (hopen : c.isLocked = false) :
    Step s (.setClassUdSize cls udsize) (s.setClass cls (some { c with udsize := udsize }))
  | setMethodByHandle {cls pos : Nat} {c : SQClass K V} {val : V}
      (hc : s.heap.classes cls = some c) :
    Step s (.setByHandle cls true pos val)
      (s.setClass cls (some { c with methods := c.methods.set pos val }))
  | setDefaultByHandle {cls pos : Nat} {c : SQClass K V} {val : V}
      (hc : s.heap.classes cls = some c) :
    Step s (.setByHandle cls false pos val)
      (s.setClass cls (some { c with defaultvalues := c.defaultvalues.set pos val }))
  | lock {cls : Nat} {c : SQClass K V} (hc : s.heap.classes cls = some c) :
    Step s (.lock cls) (s.setClass cls (some { c with lockedTypeId := currentHint cls }))
  | createInstance {inst cls : Nat} {c : SQClass K V} {ud : D}
      (hfresh : s.heap.instances inst = none) (hc : s.heap.classes cls = some c)
      (hlocked : c.isLocked = true) :
    Step s (.createInstance inst cls ud)
      (s.setInstance inst (some (SQInstance.create ops cls c ud)))
  | storeInstance {inst : Nat} {i : SQInstance V D} {values : List V} {ud : D}
      (hi : s.heap.instances inst = some i) (hlen : values.length = i.values.length) :
    Step s (.storeInstance inst values ud)
      (s.setInstance inst (some { i with values := values, inlineud := ud }))
  | destroyInstance {inst : Nat} :
    Step s (.destroyInstance inst) (s.setInstance inst none)
  | destroyClass {cls : Nat} (hfree : Unreferenced s cls) :
    Step s (.destroyClass cls) (s.setClass cls none)
  | getLiteral {site : Nat} {from_ : InstanceRef} {i : SQInstance V D} {c : SQClass K V}
      (hkind : (sites site).kind = .get) (hi : s.heap.instances from_.addr = some i)
      (hc : s.heap.classes i.cls = some c) :
    Step s (.getLiteral site from_)
      (s.setHint site (getLiteral ops (sites site) (s.hints site) from_ i c).2)
  | setLiteral {site : Nat} {from_ : InstanceRef} {val : V} {i : SQInstance V D} {c : SQClass K V}
      {outcome : SetOutcome V D} {hint : Nat}
      (hkind : (sites site).kind = .set) (hi : s.heap.instances from_.addr = some i)
      (hc : s.heap.classes i.cls = some c)
      (hset : setLiteral ops (sites site) (s.hints site) from_ i c val = (outcome, hint)) :
    Step s (.setLiteral site from_ val)
      (match outcome with
      | .stored i' => (s.setInstance from_.addr (some i')).setHint site hint
      | _ => s.setHint site hint)
  | accessTable {site : Nat} {cid : UInt64} {nodeIdx : Nat} (hcid : cid ≠ 0)
      (hidx : nodeIdx ≤ Table.tblClassTypeMemberMask.toNat) :
    Step s (.accessTable site cid nodeIdx)
      (s.setHint site (tableHint (s.hints site) cid nodeIdx))

/-- Read as a hint for the class `c` with the id `id`, the hint at `site` gives its member index. -/
def HintRight (site hint : Nat) (c : SQClass K V) (id : Nat) : Prop :=
  classTypeFromHint hint = id → memberFromHint hint = freshMemberIdx c (sites site)

/-- What a run must avoid: a member added to a locked class while a load has found that the class
does not have it; a class locked whose id is in a hint left by a class that was there before or by a
table; and a table whose shape id looks like the id of a locked class. -/
def SafeEvent (s : State K V D) : Event K V D → Prop
  | .newSlot cls key val bstatic =>
    ∀ c, s.heap.classes cls = some c → c.isLocked = true → key ∉ c.members →
      key ∈ (c.newSlot ops key val bstatic).1.members →
      ∀ site, sites site = ⟨.get, key⟩ → classTypeFromHint (s.hints site) ≠ c.lockedTypeId
  | .lock cls =>
    ∀ c, s.heap.classes cls = some c → c.isLocked = false →
      ∀ site, HintRight sites site (s.hints site) c (currentHint cls)
  | .accessTable site cid nodeIdx =>
    ∀ cls c, s.heap.classes cls = some c → c.isLocked = true →
      HintRight sites site (tableHint (s.hints site) cid nodeIdx) c c.lockedTypeId
  | _ => True

/-! ## Hint words -/

theorem classTypeFromHint_lt (hint : Nat) : classTypeFromHint hint < 2 ^ 40 :=
  Nat.mod_lt _ (by decide)

theorem makeHint_eq {idx id : Nat} (hidx : idx < 2 ^ 24) (hid : id < 2 ^ 40) :
    makeHint idx id = idx * 2 ^ 40 + id := by
  have hlt : idx <<< classBits < 2 ^ 64 := by
    rw [classBits, Nat.shiftLeft_eq]
    omega
  rw [makeHint, Nat.mod_eq_of_lt hlt, classBits, ← Nat.shiftLeft_add_eq_or_of_lt hid,
    Nat.shiftLeft_eq]

theorem classTypeFromHint_makeHint {idx id : Nat} (hidx : idx < 2 ^ 24) (hid : id < 2 ^ 40) :
    classTypeFromHint (makeHint idx id) = id := by
  rw [makeHint_eq hidx hid, classTypeFromHint, classBits]
  omega

theorem memberFromHint_makeHint {idx id : Nat} (hidx : idx < 2 ^ 24) (hid : id < 2 ^ 40) :
    memberFromHint (makeHint idx id) = idx := by
  rw [makeHint_eq hidx hid, memberFromHint, classBits, Nat.shiftRight_eq_div_pow]
  omega

/-! ## The ids of live classes -/

theorem currentHint_ne_zero {addr : Nat} (hlo : 256 ≤ addr) (hhi : addr < 2 ^ 48) :
    currentHint addr ≠ 0 := by
  rw [currentHint, classTypeFromHint, classBits, Nat.shiftRight_eq_div_pow]
  omega

/-- Classes that do not overlap have different ids. -/
theorem currentHint_ne {a b : Nat} (ha : a < 2 ^ 48) (hb : b < 2 ^ 48)
    (hapart : a + 256 ≤ b ∨ b + 256 ≤ a) : currentHint a ≠ currentHint b := by
  simp only [currentHint, classTypeFromHint, classBits, Nat.shiftRight_eq_div_pow]
  omega

/-! ## The invariant -/

/-- What every safe run keeps; `cache` is the one that is about hints. -/
structure CacheHolds (s : State K V D) : Prop where
  wellFormed : ∀ cls c, s.heap.classes cls = some c → c.WellFormed
  addr : ∀ cls c, s.heap.classes cls = some c → 256 ≤ cls ∧ cls < 2 ^ 48
  apart : ∀ a b c d, s.heap.classes a = some c → s.heap.classes b = some d → a ≠ b →
    a + 256 ≤ b ∨ b + 256 ≤ a
  id : ∀ cls c, s.heap.classes cls = some c →
    c.lockedTypeId = 0 ∨ c.lockedTypeId = currentHint cls
  live : ∀ inst i, s.heap.instances inst = some i → ∃ c, s.heap.classes i.cls = some c
  cache : ∀ cls c, s.heap.classes cls = some c → c.isLocked = true →
    ∀ site, HintRight sites site (s.hints site) c c.lockedTypeId

variable {sites} {s : State K V D}

theorem cacheHolds_initial : CacheHolds sites (State.initial : State K V D) := by
  constructor <;> intros <;> contradiction

theorem freshMemberIdx_lt {c : SQClass K V} (h : c.WellFormed) (site : Site K) :
    freshMemberIdx c site < 2 ^ 24 := by
  simp only [freshMemberIdx]
  cases hidx : c.members.lookup site.key with
  | none => exact Nat.two_pow_pos 24
  | some idx =>
    have hlt := (h.stored _ _ hidx).bounds.2
    cases site.kind with
    | get => exact hlt
    | set =>
      simp only
      split
      · exact hlt
      · exact Nat.two_pow_pos 24

theorem CacheHolds.lockedTypeId_lt (h : CacheHolds sites s) {cls : Nat} {c : SQClass K V}
    (hc : s.heap.classes cls = some c) : c.lockedTypeId < 2 ^ 40 := by
  rcases h.id cls c hc with hid | hid
  · rw [hid]
    exact Nat.two_pow_pos 40
  · rw [hid]
    exact classTypeFromHint_lt _

/-- The id of a locked class is that of one live class only. -/
theorem CacheHolds.class_eq (h : CacheHolds sites s) {a b : Nat} {c d : SQClass K V}
    (hc : s.heap.classes a = some c) (hd : s.heap.classes b = some d) (hlocked : d.isLocked = true)
    (hid : c.lockedTypeId = d.lockedTypeId) : c = d := by
  have hd0 := isLocked_iff.1 hlocked
  have hdid : d.lockedTypeId = currentHint b := (h.id b d hd).resolve_left hd0
  have hcid : c.lockedTypeId = currentHint a := (h.id a c hc).resolve_left (by rwa [hid])
  cases Decidable.em (a = b) with
  | inl hab =>
    rw [hab, hd] at hc
    exact (Option.some.inj hc).symm
  | inr hab =>
    have hne := currentHint_ne (h.addr a c hc).2 (h.addr b d hd).2 (h.apart a b c d hc hd hab)
    exact absurd (by rw [← hcid, ← hdid, hid]) hne

/-- With a right hint the instruction uses the index that a lookup finds. -/
theorem CacheHolds.cachedMemberIdx_eq (h : CacheHolds sites s) {cls : Nat} {c : SQClass K V}
    (hc : s.heap.classes cls = some c) (site : Nat) :
    (cachedMemberIdx c (sites site) (s.hints site)).1 = freshMemberIdx c (sites site) := by
  simp only [cachedMemberIdx]
  split
  · rename_i hhit
    exact h.cache cls c hc (isLocked_iff.2 hhit.1) site hhit.2
  · rfl

/-- The hint that the instruction leaves is right for every live class. -/
theorem CacheHolds.hintRight_cached (h : CacheHolds sites s) {cls : Nat} {c : SQClass K V}
    (hc : s.heap.classes cls = some c) (site : Nat) {b : Nat} {d : SQClass K V}
    (hd : s.heap.classes b = some d) (hlocked : d.isLocked = true) :
    HintRight sites site (cachedMemberIdx c (sites site) (s.hints site)).2 d d.lockedTypeId := by
  have hlt := freshMemberIdx_lt (h.wellFormed cls c hc) (sites site)
  have hid := h.lockedTypeId_lt hc
  simp only [cachedMemberIdx]
  split
  · exact h.cache b d hd hlocked site
  · intro heq
    rw [classTypeFromHint_makeHint hlt hid] at heq
    rw [memberFromHint_makeHint hlt hid, h.class_eq hc hd hlocked heq]

/-! ## What each kind of update preserves -/

theorem CacheHolds.setHint (h : CacheHolds sites s) {site hint : Nat}
    (hright : ∀ cls c, s.heap.classes cls = some c → c.isLocked = true →
      HintRight sites site hint c c.lockedTypeId) : CacheHolds sites (s.setHint site hint) where
  wellFormed := h.wellFormed
  addr := h.addr
  apart := h.apart
  id := h.id
  live := h.live
  cache cls c hc hlocked site' := by
    cases Decidable.em (site' = site) with
    | inl heq =>
      subst heq
      rw [hints_setHint, Function.update_self]
      exact hright cls c hc hlocked
    | inr hne =>
      rw [hints_setHint, Function.update_of_ne hne]
      exact h.cache cls c hc hlocked site'

theorem CacheHolds.setInstance (h : CacheHolds sites s) {inst : Nat}
    {i : Option (SQInstance V D)} (hi : ∀ j, i = some j → ∃ c, s.heap.classes j.cls = some c) :
    CacheHolds sites (s.setInstance inst i) where
  wellFormed := h.wellFormed
  addr := h.addr
  apart := h.apart
  id := h.id
  live inst' j hj := by
    simp only [State.setInstance, Function.update_apply] at hj
    split at hj
    · exact hi j hj
    · exact h.live inst' j hj
  cache := h.cache

/-- A class put at an address, in place of the one that was there or on free memory. -/
theorem CacheHolds.setClass (h : CacheHolds sites s) {cls : Nat} {c : SQClass K V}
    (hwf : c.WellFormed) (haddr : 256 ≤ cls ∧ cls < 2 ^ 48)
    (hapart : ∀ d e, s.heap.classes d = some e → d ≠ cls → cls + 256 ≤ d ∨ d + 256 ≤ cls)
    (hid : c.lockedTypeId = 0 ∨ c.lockedTypeId = currentHint cls)
    (hcache : c.isLocked = true →
      ∀ site, HintRight sites site (s.hints site) c c.lockedTypeId) :
    CacheHolds sites (s.setClass cls (some c)) := by
  -- a class of the new state is the one just stored, or an old one at another address
  have hcases : ∀ d e, (s.setClass cls (some c)).heap.classes d = some e →
      (d = cls ∧ e = c) ∨ (d ≠ cls ∧ s.heap.classes d = some e) := by
    intro d e he
    simp only [State.setClass, Function.update_apply] at he
    split at he
    · rename_i hd
      exact Or.inl ⟨hd, (Option.some.inj he).symm⟩
    · rename_i hd
      exact Or.inr ⟨hd, he⟩
  constructor
  case wellFormed =>
    intro d e he
    rcases hcases d e he with ⟨-, rfl⟩ | ⟨-, he⟩
    · exact hwf
    · exact h.wellFormed d e he
  case addr =>
    intro d e he
    rcases hcases d e he with ⟨rfl, -⟩ | ⟨-, he⟩
    · exact haddr
    · exact h.addr d e he
  case apart =>
    intro a b e f he hf hab
    rcases hcases a e he with ⟨ha, -⟩ | ⟨ha, he'⟩
    · rcases hcases b f hf with ⟨hb, -⟩ | ⟨hb, hf'⟩
      · exact absurd (ha.trans hb.symm) hab
      · rw [ha]
        exact hapart b f hf' hb
    · rcases hcases b f hf with ⟨hb, -⟩ | ⟨-, hf'⟩
      · rw [hb]
        exact (hapart a e he' ha).symm
      · exact h.apart a b e f he' hf' hab
  case id =>
    intro d e he
    rcases hcases d e he with ⟨rfl, rfl⟩ | ⟨-, he⟩
    · exact hid
    · exact h.id d e he
  case live =>
    intro inst i hi
    obtain ⟨e, he⟩ := h.live inst i hi
    cases Decidable.em (i.cls = cls) with
    | inl heq => exact ⟨c, by simp [State.setClass, heq]⟩
    | inr hne => exact ⟨e, by simpa [State.setClass, Function.update_of_ne hne] using he⟩
  case cache =>
    intro d e he hlocked site
    rcases hcases d e he with ⟨-, rfl⟩ | ⟨-, he⟩
    · exact hcache hlocked site
    · exact h.cache d e he hlocked site

/-- A live class changed in place. -/
theorem CacheHolds.updateClass (h : CacheHolds sites s) {cls : Nat} {c c' : SQClass K V}
    (hc : s.heap.classes cls = some c) (hwf : c'.WellFormed)
    (hid : c'.lockedTypeId = 0 ∨ c'.lockedTypeId = currentHint cls)
    (hcache : c'.isLocked = true →
      ∀ site, HintRight sites site (s.hints site) c' c'.lockedTypeId) :
    CacheHolds sites (s.setClass cls (some c')) := by
  apply h.setClass hwf (h.addr cls c hc) _ hid hcache
  intro d e he hd
  exact h.apart cls d c e hc he (Ne.symm hd)

/-- A class that starts unlocked, on free memory. -/
theorem CacheHolds.newClass (h : CacheHolds sites s) {cls : Nat} {c : SQClass K V}
    (hfresh : FreshAddr s cls) (hwf : c.WellFormed) (hid : c.lockedTypeId = 0) :
    CacheHolds sites (s.setClass cls (some c)) := by
  apply h.setClass hwf ⟨hfresh.1, hfresh.2.1⟩ _ (Or.inl hid)
  · intro hlocked
    exact absurd hid (isLocked_iff.1 hlocked)
  · intro d e he _
    exact hfresh.2.2 d e he

theorem CacheHolds.destroyClass (h : CacheHolds sites s) {cls : Nat} (hfree : Unreferenced s cls) :
    CacheHolds sites (s.setClass cls none) := by
  have hcases : ∀ d e, (s.setClass cls none).heap.classes d = some e →
      s.heap.classes d = some e := by
    intro d e he
    simp only [State.setClass, Function.update_apply] at he
    split at he
    · cases he
    · exact he
  constructor
  case wellFormed => exact fun d e he => h.wellFormed d e (hcases d e he)
  case addr => exact fun d e he => h.addr d e (hcases d e he)
  case apart =>
    exact fun a b e f he hf hab => h.apart a b e f (hcases a e he) (hcases b f hf) hab
  case id => exact fun d e he => h.id d e (hcases d e he)
  case live =>
    intro inst i hi
    obtain ⟨c, hc⟩ := h.live inst i hi
    have hne := hfree.1 inst i hi
    exact ⟨c, by simpa [State.setClass, Function.update_of_ne hne] using hc⟩
  case cache => exact fun d e he hlocked => h.cache d e (hcases d e he) hlocked

/-! ## Every step -/

variable {ops}

/-- Replacing values of a class in place leaves its hints right. -/
theorem CacheHolds.updateValues (h : CacheHolds sites s) {cls : Nat} {c c' : SQClass K V}
    (hc : s.heap.classes cls = some c) (hwf : c'.WellFormed) (hmembers : c'.members = c.members)
    (hid : c'.lockedTypeId = c.lockedTypeId) : CacheHolds sites (s.setClass cls (some c')) := by
  apply h.updateClass hc hwf
  · rw [hid]
    exact h.id cls c hc
  · intro hlocked site
    have hlocked' : c.isLocked = true := by rwa [isLocked_iff, ← hid, ← isLocked_iff]
    have hright := h.cache cls c hc hlocked' site
    rwa [hid, HintRight, freshMemberIdx, hmembers]

/-- An added member can only be missed by a load: for a store a method counts as absent. -/
theorem freshMemberIdx_newSlot {c : SQClass K V} (h : c.WellFormed) (hlocked : c.isLocked = true)
    {key : K} {val : V} {bstatic : Bool} {site : Site K}
    (hsafe : key ∉ c.members → key ∈ (c.newSlot ops key val bstatic).1.members →
      site ≠ ⟨.get, key⟩) :
    freshMemberIdx (c.newSlot ops key val bstatic).1 site = freshMemberIdx c site := by
  obtain ⟨kind, k⟩ := site
  have hsame : (k = key → k ∈ c.members) →
      freshMemberIdx (c.newSlot ops key val bstatic).1 ⟨kind, k⟩ = freshMemberIdx c ⟨kind, k⟩ := by
    intro hk
    simp only [freshMemberIdx, lookup_newSlot_of_locked ops hlocked key val bstatic k hk]
  cases Decidable.em (k = key → k ∈ c.members) with
  | inl hk => exact hsame hk
  | inr hk =>
    obtain ⟨rfl, habsent⟩ := Classical.not_imp.1 hk
    have hnone : c.members.lookup k = none := Finmap.lookup_eq_none.2 habsent
    cases hidx : (c.newSlot ops k val bstatic).1.members.lookup k with
    | none => simp only [freshMemberIdx, hidx, hnone]
    | some idx =>
      cases kind with
      | get =>
        -- The only instructions that could have missed the member are excluded.
        have hadded : k ∈ (c.newSlot ops k val bstatic).1.members :=
          Finmap.lookup_isSome.1 (by rw [hidx]; rfl)
        exact absurd rfl (hsafe habsent hadded)
      | set =>
        have hmethod := lookup_newSlot_self_of_locked ops h hlocked habsent val bstatic hidx
        simp only [freshMemberIdx, hidx, hnone, hmethod]
        rfl

theorem CacheHolds.newSlot (h : CacheHolds sites s) {cls : Nat} {c : SQClass K V}
    (hc : s.heap.classes cls = some c) {key : K} {val : V} {bstatic : Bool}
    (hsafe : SafeEvent ops sites s (.newSlot cls key val bstatic)) :
    CacheHolds sites (s.setClass cls (some (c.newSlot ops key val bstatic).1)) := by
  have hid := (sameLayout_newSlot ops c key val bstatic).lockedTypeId
  apply h.updateClass hc ((h.wellFormed cls c hc).newSlot ops key val bstatic)
  · rw [hid]
    exact h.id cls c hc
  · intro hlocked site heq
    have hlocked' : c.isLocked = true := by rwa [isLocked_iff, ← hid, ← isLocked_iff]
    rw [hid] at heq
    rw [h.cache cls c hc hlocked' site heq]
    symm
    apply freshMemberIdx_newSlot (h.wellFormed cls c hc) hlocked'
    intro habsent hadded hsite
    exact hsafe c hc hlocked' habsent hadded site hsite heq

theorem CacheHolds.lock (h : CacheHolds sites s) {cls : Nat} {c : SQClass K V}
    (hc : s.heap.classes cls = some c) (hsafe : SafeEvent ops sites s (.lock cls)) :
    CacheHolds sites (s.setClass cls (some { c with lockedTypeId := currentHint cls })) := by
  apply h.updateClass hc ((h.wellFormed cls c hc).withLockedTypeId _) (Or.inr rfl)
  intro hlocked site
  cases hopen : c.isLocked with
  | false => exact hsafe c hc hopen site
  | true =>
    -- A class that is locked already keeps its id.
    have hid : c.lockedTypeId = currentHint cls :=
      (h.id cls c hc).resolve_left (isLocked_iff.1 hopen)
    have hright := h.cache cls c hc hopen site
    rwa [hid] at hright

theorem getLiteral_snd (site : Site K) (hint : Nat) (from_ : InstanceRef) (i : SQInstance V D)
    (c : SQClass K V) :
    (getLiteral ops site hint from_ i c).2 = (cachedMemberIdx c site hint).2 := by
  simp only [getLiteral]
  split <;> rfl

theorem setLiteral_snd (site : Site K) (hint : Nat) (from_ : InstanceRef) (i : SQInstance V D)
    (c : SQClass K V) (val : V) :
    (setLiteral ops site hint from_ i c val).2 = hint ∨
      (setLiteral ops site hint from_ i c val).2 = (cachedMemberIdx c site hint).2 := by
  simp only [setLiteral]
  split
  · exact Or.inl rfl
  · right
    split
    · split
      · rfl
      · cases i.setNativeField ops c (memberIdx (cachedMemberIdx c site hint).1) val <;> rfl
    · rfl

omit [DecidableEq K] in
theorem setNativeField_block {i i' : SQInstance V D} {c : SQClass K V} {fieldIdx : Nat} {val : V}
    (h : i.setNativeField ops c fieldIdx val = some i') :
    i'.cls = i.cls ∧ i'.memsize = i.memsize ∧ i'.values = i.values := by
  simp only [SQInstance.setNativeField] at h
  cases hdesc : c.nativefields[fieldIdx]? with
  | none =>
    rw [hdesc] at h
    cases h
  | some desc =>
    rw [hdesc] at h
    obtain ⟨ud, -, rfl⟩ := Option.map_eq_some_iff.1 h
    exact ⟨rfl, rfl, rfl⟩

/-- A store leaves an instance of the same class in the same allocation, with as many values. -/
theorem stored_block {site : Site K} {hint : Nat} {from_ : InstanceRef} {i i' : SQInstance V D}
    {c : SQClass K V} {val : V} (h : (setLiteral ops site hint from_ i c val).1 = .stored i') :
    i'.cls = i.cls ∧ i'.memsize = i.memsize ∧ i'.values.length = i.values.length := by
  simp only [setLiteral] at h
  split at h
  · rename_i himm
    rw [setInstance, if_pos himm] at h
    cases h
  · split at h
    · split at h
      · cases h
        exact ⟨rfl, rfl, List.length_set⟩
      · cases hset : i.setNativeField ops c (memberIdx (cachedMemberIdx c site hint).1) val with
        | none =>
          rw [hset] at h
          cases h
        | some j =>
          rw [hset] at h
          cases h
          obtain ⟨hcls, hmem, hvalues⟩ := setNativeField_block hset
          exact ⟨hcls, hmem, congrArg List.length hvalues⟩
    · cases h

/-- A safe step keeps every hint right. -/
theorem CacheHolds.step (h : CacheHolds sites s) {e : Event K V D} {s' : State K V D}
    (hsafe : SafeEvent ops sites s e) (hstep : Step ops sites s e s') : CacheHolds sites s' := by
  cases hstep with
  | createClass hfresh => exact h.newClass hfresh (wellFormed_create_none ops) rfl
  | createDerived hfresh hb hlocked =>
    exact h.newClass hfresh ((h.wellFormed _ _ hb).create ops _) rfl
  | newSlot hc => exact h.newSlot hc hsafe
  | @registerNativeField cls c key desc hc =>
    -- a locked class refuses the field; an open one is in no cache
    cases hopen : c.isLocked with
    | true =>
      rw [registerNativeField_of_locked hopen]
      exact h.updateValues hc (h.wellFormed _ _ hc) rfl rfl
    | false =>
      have hid := lockedTypeId_registerNativeField c key desc
      have hzero : c.lockedTypeId = 0 := by
        simpa [SQClass.isLocked] using hopen
      apply h.updateClass hc ((h.wellFormed _ _ hc).registerNativeField key desc)
        (Or.inl (hid.trans hzero))
      intro hlocked
      exact absurd (hid.trans hzero) (isLocked_iff.1 hlocked)
  | setClassUdSize hc hopen =>
    exact h.updateValues hc ((h.wellFormed _ _ hc).withUdSize _) rfl rfl
  | setMethodByHandle hc =>
    have hwf := h.wellFormed _ _ hc
    refine h.updateValues hc ⟨hwf.stored, hwf.fields, hwf.fields_le, ?_, hwf.nativefields_le⟩
      rfl rfl
    rw [List.length_set]
    exact hwf.methods_le
  | setDefaultByHandle hc =>
    have hwf := h.wellFormed _ _ hc
    refine h.updateValues hc ⟨hwf.stored, ?_, ?_, hwf.methods_le, hwf.nativefields_le⟩ rfl rfl
    · rw [List.length_set]
      exact hwf.fields
    · rw [List.length_set]
      exact hwf.fields_le
  | lock hc => exact h.lock hc hsafe
  | createInstance hfresh hc hlocked =>
    apply h.setInstance
    rintro j ⟨⟩
    exact ⟨_, hc⟩
  | storeInstance hi hlen =>
    apply h.setInstance
    rintro j ⟨⟩
    obtain ⟨c, hc⟩ := h.live _ _ hi
    exact ⟨c, hc⟩
  | destroyInstance =>
    apply h.setInstance
    rintro j ⟨⟩
  | destroyClass hfree => exact h.destroyClass hfree
  -- the hint written is right for every locked class, not only for the one that gave it
  | getLiteral hkind hi hc =>
    apply h.setHint
    intro b d hd hlocked
    rw [getLiteral_snd]
    exact h.hintRight_cached hc _ hd hlocked
  | @setLiteral site from_ val i c outcome hint hkind hi hc hset =>
    have hright : ∀ b d, s.heap.classes b = some d → d.isLocked = true →
        HintRight sites site hint d d.lockedTypeId := by
      intro b d hd hlocked
      -- the hint of the site is the old one or the index just looked up
      have hsnd : hint = s.hints site ∨ hint = (cachedMemberIdx c (sites site) (s.hints site)).2 := by
        rw [show hint = (setLiteral ops (sites site) (s.hints site) from_ i c val).2 by rw [hset]]
        exact setLiteral_snd (sites site) (s.hints site) from_ i c val
      rcases hsnd with rfl | rfl
      · exact h.cache b d hd hlocked site
      · exact h.hintRight_cached hc site hd hlocked
    -- an outcome that stores changes values only, and the others nothing but the hint
    cases outcome with
    | stored i' =>
      refine CacheHolds.setHint (h.setInstance ?_) hright
      rintro j ⟨⟩
      rw [(stored_block (by rw [hset])).1]
      exact ⟨c, hc⟩
    | typeMismatch => exact h.setHint hright
    | immutable => exact h.setHint hright
    | fallBackSet => exact h.setHint hright
  | accessTable hcid hidx =>
    apply h.setHint
    exact hsafe

/-! ## Both ways of access agree -/

/-- What a load uses: a lookup that finds the key never gives zero. -/
theorem getLiteral_eq_getImpl {c : SQClass K V} (hwf : c.WellFormed) {site : Site K}
    (hkind : site.kind = .get) {hint : Nat}
    (hcached : (cachedMemberIdx c site hint).1 = freshMemberIdx c site) (from_ : InstanceRef)
    (i : SQInstance V D) :
    (getLiteral ops site hint from_ i c).1 = getImpl ops from_ i c site.key := by
  simp only [getLiteral, getImpl, hcached, freshMemberIdx, hkind]
  cases hidx : c.members.lookup site.key with
  | none => rfl
  | some idx =>
    have hne : idx ≠ 0 := Nat.ne_of_gt (hwf.stored _ _ hidx).bounds.1
    simp only [if_pos hne]

theorem setLiteral_eq_set {c : SQClass K V} (hwf : c.WellFormed) {site : Site K}
    (hkind : site.kind = .set) {hint : Nat}
    (hcached : (cachedMemberIdx c site hint).1 = freshMemberIdx c site) (from_ : InstanceRef)
    (i : SQInstance V D) (val : V) :
    (setLiteral ops site hint from_ i c val).1 = setInstance ops from_ i c site.key val := by
  simp only [setLiteral]
  split
  · rfl
  · rename_i himm
    simp only [setInstance, if_neg himm, hcached, freshMemberIdx, hkind]
    cases hidx : c.members.lookup site.key with
    | none => rfl
    | some idx =>
      have hne : idx ≠ 0 := Nat.ne_of_gt (hwf.stored _ _ hidx).bounds.1
      cases hfield : isField idx with
      | true => simp [hne, hfield]
      | false =>
        cases hnative : isNativeField idx with
        | true =>
          simp only [hnative, Bool.or_true, if_true, if_pos hne, hfield, Bool.false_eq_true, if_false]
          cases i.setNativeField ops c (memberIdx idx) val <;> rfl
        | false => simp [hfield, hnative]

/-- Every load and every store on a live instance gives, through the hint of its instruction, what
it gives without one. -/
def CachedAgrees (ops : ObjectOps K V D) (sites : Nat → Site K) (s : State K V D) : Prop :=
  ∀ site from_ i, s.heap.instances from_.addr = some i →
    ∃ c, s.heap.classes i.cls = some c ∧
      ((sites site).kind = .get →
        (getLiteral ops (sites site) (s.hints site) from_ i c).1
          = getImpl ops from_ i c (sites site).key) ∧
      ((sites site).kind = .set → ∀ val,
        (setLiteral ops (sites site) (s.hints site) from_ i c val).1
          = setInstance ops from_ i c (sites site).key val)

theorem CacheHolds.cachedAgrees (h : CacheHolds sites s) : CachedAgrees ops sites s := by
  intro site from_ i hi
  obtain ⟨c, hc⟩ := h.live _ _ hi
  have hwf := h.wellFormed _ _ hc
  have hcached := h.cachedMemberIdx_eq hc site
  exact ⟨c, hc, fun hkind => getLiteral_eq_getImpl hwf hkind hcached from_ i,
    fun hkind val => setLiteral_eq_set hwf hkind hcached from_ i val⟩

/-! ## Runs -/

/-- Runs of the machine; `P` is asked of every event, in the state before it. -/
inductive RunOf (ops : ObjectOps K V D) (sites : Nat → Site K)
    (P : State K V D → Event K V D → Prop) : State K V D → Prop
  | initial : RunOf ops sites P State.initial
  | step {s s' : State K V D} {e : Event K V D} (hrun : RunOf ops sites P s) (he : P s e)
      (hstep : Step ops sites s e s') : RunOf ops sites P s'

theorem RunOf.cacheHolds (hrun : RunOf ops sites (SafeEvent ops sites) s) : CacheHolds sites s := by
  induction hrun with
  | initial => exact cacheHolds_initial
  | step _ he hstep ih => exact ih.step he hstep

/-- In every state that a run of safe events reaches, cached and uncached accesses agree. -/
theorem safeRun_cached_agrees (ops : ObjectOps K V D) (sites : Nat → Site K) (s : State K V D)
    (hrun : RunOf ops sites (SafeEvent ops sites) s) : CachedAgrees ops sites s :=
  hrun.cacheHolds.cachedAgrees

/-! ## Two runs -/

/-- Numbers as keys and values; from 100 on a value is a closure. -/
def numberOps : ObjectOps Nat Nat Unit where
  null := 0
  realval v := v
  setImmutable v := v
  isClosure v := decide (100 ≤ v)
  isNativeClosure _ := false
  cloneWithBase _ v := v
  getMetaMethodIdxByName _ := none
  isConstructorStr _ := false
  instanceHeader n := 64 + 16 * n
  getNativeField _ _ := 0
  setNativeField _ ud _ := some ud

/-- Every instruction loads the key 7. -/
def loadSeven (_ : Nat) : Site Nat := ⟨.get, 7⟩

/-- A new class at 4096. -/
def emptyClass : SQClass Nat Nat := SQClass.create numberOps none

/-- A class without members that is locked. -/
def lockedClass : SQClass Nat Nat := { emptyClass with lockedTypeId := currentHint 4096 }

/-- An instance of an empty class at 64. -/
def emptyInstance : SQInstance Nat Unit := SQInstance.create numberOps 4096 lockedClass ()

/-- An instance of a class that was locked before. -/
def instanceState : State Nat Nat Unit :=
  ((State.initial.setClass 4096 (some emptyClass)).setClass 4096 (some lockedClass)).setInstance 64
    (some emptyInstance)

theorem instanceState_run {P : State Nat Nat Unit → Event Nat Nat Unit → Prop}
    (hcreate : P State.initial (.createClass 4096 none))
    (hlock : P (State.initial.setClass 4096 (some emptyClass)) (.lock 4096))
    (hinst : P ((State.initial.setClass 4096 (some emptyClass)).setClass 4096 (some lockedClass))
      (.createInstance 64 4096 ())) : RunOf numberOps loadSeven P instanceState := by
  have h1 : RunOf numberOps loadSeven P (State.initial.setClass 4096 (some emptyClass)) := by
    apply RunOf.step .initial hcreate
    exact .createClass ⟨by decide, by decide, fun cls c hc => by cases hc⟩
  have h2 : RunOf numberOps loadSeven P
      ((State.initial.setClass 4096 (some emptyClass)).setClass 4096 (some lockedClass)) :=
    h1.step hlock (.lock rfl)
  exact h2.step hinst (@Step.createInstance _ _ _ _ _ _ _ 64 4096 lockedClass () rfl rfl rfl)

theorem safeRun_cached_agrees_empty_class : CachedAgrees numberOps loadSeven instanceState := by
  apply safeRun_cached_agrees
  apply instanceState_run
  · trivial
  · intro c hc _ site heq
    have hne : classTypeFromHint 0 ≠ currentHint 4096 := by decide
    exact absurd heq hne
  · trivial

/-- The load has found that the class has no member 7, and then one is added. -/
def missedState : State Nat Nat Unit :=
  (instanceState.setHint 0
    (getLiteral numberOps (loadSeven 0) 0 ⟨64, false⟩ emptyInstance lockedClass).2).setClass 4096
    (some (lockedClass.newSlot numberOps 7 100 true).1)

/-- A load that has missed a member of a locked class still misses it after the member is added. -/
theorem missed_member_not_cached_agrees :
    RunOf numberOps loadSeven (fun _ _ => True) missedState ∧
      ¬ CachedAgrees numberOps loadSeven missedState := by
  constructor
  · have h1 : RunOf numberOps loadSeven (fun _ _ => True) instanceState :=
      instanceState_run trivial trivial trivial
    have hget : Step numberOps loadSeven instanceState (.getLiteral 0 ⟨64, false⟩) _ :=
      .getLiteral rfl rfl rfl
    exact (h1.step trivial hget).step trivial (.newSlot rfl)
  · intro h
    obtain ⟨c, hc, hget, -⟩ := h 0 ⟨64, false⟩ emptyInstance rfl
    cases hc
    cases hget rfl

end Quirrel.Class
