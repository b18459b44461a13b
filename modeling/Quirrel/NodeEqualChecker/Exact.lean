import Mathlib.Logic.Basic
import Quirrel.NodeEqualChecker.Basic

/-!
# What `check` tells

`check` is true of two trees that agree in the fields that it looks at and, apart from shared nodes,
have only nodes of the kinds that it knows (`check_iff`). It is an equivalence relation, but not
equality of syntax: it leaves out fields, knows no code block and no external value, and compares
words of literals of which a constructor writes only some bytes. `check_exact_iff` says for which
trees it tells whether they are equal.
-/

set_option autoImplicit false

namespace Quirrel.NodeEqualChecker

/-- The comparison of values decides equality. -/
theorem sameValue_iff {v w : Value} : sameValue v w = true ↔ v = w := beq_iff_eq

section View

variable (fields : TreeOp → Fields) (m : Value → Value)

theorem viewNode_eq (n : Node) : viewNode fields m n = .mk n.op
    ((fields n.op).attrs.map fun a => m (n.attrs a))
    ((fields n.op).slots.map fun s => viewVec fields m (n.kids s)) := by
  cases n
  rfl

/-- Two nodes look the same if their operators, their attributes and their children do. -/
theorem viewNode_eq_iff (l r : Node) : viewNode fields m l = viewNode fields m r ↔
    l.op = r.op ∧ (∀ a ∈ (fields l.op).attrs, m (l.attrs a) = m (r.attrs a)) ∧
      ∀ s ∈ (fields l.op).slots, viewVec fields m (l.kids s) = viewVec fields m (r.kids s) := by
  rw [viewNode_eq, viewNode_eq, Syntax.mk.injEq]
  constructor
  · rintro ⟨hop, hattrs, hkids⟩
    rw [← hop, List.map_inj_left] at hattrs hkids
    exact ⟨hop, hattrs, hkids⟩
  · rintro ⟨hop, hattrs, hkids⟩
    rw [← hop, List.map_inj_left, List.map_inj_left]
    exact ⟨rfl, hattrs, hkids⟩

end View

/-! ## One comparison -/

theorem checkNode_eq (l r : Node) : checkNode l r =
    if l.addr = r.addr then true
    else if l.op ≠ r.op then false
    else
      match compared l.op with
      | none => false
      | some fields =>
        (fields.attrs.all fun a => sameValue (l.attrs a) (r.attrs a)) &&
          fields.slots.all fun s => cmpNodeVector (l.kids s) (r.kids s) := by
  cases l
  rw [checkNode]
  rfl

/-- What one comparison finds. -/
theorem checkNode_iff_kids (l r : Node) : checkNode l r = true ↔ l.addr = r.addr ∨
    (l.op = r.op ∧ ∃ fields, compared l.op = some fields ∧
      (∀ a ∈ fields.attrs, l.attrs a = r.attrs a) ∧
      ∀ s ∈ fields.slots, cmpNodeVector (l.kids s) (r.kids s) = true) := by
  rw [checkNode_eq]
  by_cases haddr : l.addr = r.addr
  · simp [haddr]
  · rw [if_neg haddr]
    by_cases hop : l.op = r.op
    · rw [if_neg fun hne => hne hop]
      cases hfields : compared l.op with
      | none => simp [haddr]
      | some fields => simp [haddr, hop, sameValue_iff]
    · simp [haddr, hop]

/-- A node is known by its address or by its compared slots. -/
theorem knownNode_iff (l r : Node) : KnownNode l r ↔ l.addr = r.addr ∨
    ∃ fields, compared l.op = some fields ∧ ∀ s ∈ fields.slots, KnownVec (l.kids s) (r.kids s) := by
  cases l
  rw [KnownNode]
  rfl

/-- The children of a stored node are stored. -/
theorem StoredNode.kids {heap : Nat → Option Node} {n : Node} (h : StoredNode heap n) (s : Slot) :
    StoredVec heap (n.kids s) := by
  cases n
  rw [StoredNode] at h
  exact h.2 s

/-- One address, one node. -/
theorem StoredNode.eq {heap : Nat → Option Node} {l r : Node} (hl : StoredNode heap l)
    (hr : StoredNode heap r) (haddr : l.addr = r.addr) : l = r := by
  have hheap : ∀ {n}, StoredNode heap n → heap n.addr = some n := by
    intro n hn
    cases n
    rw [StoredNode] at hn
    exact hn.1
  exact Option.some.inj ((hheap hl).symm.trans ((congrArg heap haddr).trans (hheap hr)))

/-! ## Whole trees -/

section Heap

variable {heap : Nat → Option Node}

mutual

/-- The checker compares what it looks at, node by node. -/
theorem checkNode_iff : ∀ {l r : Node}, StoredNode heap l → StoredNode heap r →
    (checkNode l r = true ↔
      viewNode (fun op => (compared op).getD ⟨[], []⟩) id l =
        viewNode (fun op => (compared op).getD ⟨[], []⟩) id r ∧ KnownNode l r)
  | .mk addr span op attrs kids, r, hl, hr => by
    rw [checkNode_iff_kids, knownNode_iff]
    have hkids : ∀ s, (cmpNodeVector (kids s) (r.kids s) = true ↔ _) := fun s =>
      cmpNodeVector_iff (hl.kids s) (hr.kids s)
    by_cases haddr : addr = r.addr
    · have heq := hl.eq hr haddr
      exact ⟨fun _ => ⟨congrArg _ heq, Or.inl haddr⟩, fun _ => Or.inl haddr⟩
    · rw [viewNode_eq_iff]
      simp only [Node.addr_mk, Node.op_mk, Node.attrs_mk, Node.kids_mk, haddr, false_or, id]
      constructor
      · rintro ⟨hop, fields, hfields, hattrs, hall⟩
        rw [hfields, Option.getD_some]
        exact ⟨⟨hop, hattrs, fun s hs => ((hkids s).1 (hall s hs)).1⟩, fields, rfl,
          fun s hs => ((hkids s).1 (hall s hs)).2⟩
      · rintro ⟨⟨hop, hattrs, hview⟩, fields, hfields, hknown⟩
        rw [hfields, Option.getD_some] at hattrs hview
        exact ⟨hop, fields, hfields, hattrs,
          fun s hs => (hkids s).2 ⟨hview s hs, hknown s hs⟩⟩

/-- The checker says equal when what it looks at is equal and known. -/
theorem check_iff : ∀ {l r : Option Node}, Stored heap l → Stored heap r →
    (check l r = true ↔ looked l = looked r ∧ Known l r)
  | none, none, _, _ => by simp [check, Known, looked]
  | none, some r, _, _ => by simp [check, looked, view]
  | some l, none, _, _ => by simp [check, looked, view]
  | some l, some r, hl, hr => by
    rw [check, Known, looked, looked, view, view, Option.some.injEq]
    exact checkNode_iff hl hr

/-- The same for vectors. -/
theorem cmpNodeVector_iff : ∀ {ls rs : List (Option Node)}, StoredVec heap ls → StoredVec heap rs →
    (cmpNodeVector ls rs = true ↔
      viewVec (fun op => (compared op).getD ⟨[], []⟩) id ls =
        viewVec (fun op => (compared op).getD ⟨[], []⟩) id rs ∧ KnownVec ls rs)
  | [], [], _, _ => by simp [cmpNodeVector, KnownVec]
  | [], r :: rs, _, _ => by simp [cmpNodeVector, viewVec]
  | l :: ls, [], _, _ => by simp [cmpNodeVector, viewVec]
  | l :: ls, r :: rs, hl, hr => by
    rw [StoredVec] at hl hr
    rw [cmpNodeVector, KnownVec, viewVec, viewVec, List.cons.injEq, Bool.and_eq_true,
      check_iff hl.1 hr.1, cmpNodeVector_iff hl.2 hr.2]
    exact and_and_and_comm

end

/-! ## An equivalence relation -/

mutual

/-- The checker is symmetric. -/
theorem checkNode_symm : ∀ {l r : Node}, checkNode l r = true → checkNode r l = true
  | .mk addr span op attrs kids, r, h => by
    rw [checkNode_iff_kids] at h ⊢
    rcases h with haddr | ⟨hop, fields, hfields, hattrs, hkids⟩
    · exact Or.inl haddr.symm
    · right
      refine ⟨hop.symm, fields, hop ▸ hfields, fun a ha => (hattrs a ha).symm, ?_⟩
      intro s hs
      exact cmpNodeVector_symm (hkids s hs)

theorem check_symm : ∀ {l r : Option Node}, check l r = true → check r l = true
  | none, none, _ => rfl
  | none, some r, h => by simp [check] at h
  | some l, none, h => by simp [check] at h
  | some l, some r, h => by
    rw [check] at h ⊢
    exact checkNode_symm h

theorem cmpNodeVector_symm : ∀ {ls rs : List (Option Node)}, cmpNodeVector ls rs = true →
    cmpNodeVector rs ls = true
  | [], [], _ => rfl
  | [], r :: rs, h => by simp [cmpNodeVector] at h
  | l :: ls, [], h => by simp [cmpNodeVector] at h
  | l :: ls, r :: rs, h => by
    rw [cmpNodeVector, Bool.and_eq_true] at h ⊢
    exact ⟨check_symm h.1, cmpNodeVector_symm h.2⟩

end

mutual

/-- On stored nodes the checker is transitive. -/
theorem checkNode_trans : ∀ {l m r : Node}, StoredNode heap l → StoredNode heap m →
    StoredNode heap r → checkNode l m = true → checkNode m r = true → checkNode l r = true
  | .mk addr span op attrs kids, m, r, hl, hm, hr, h1, h2 => by
    -- A shared node is one node, so the other check is the one to prove.
    by_cases haddr1 : addr = m.addr
    · rw [hl.eq hm haddr1]
      exact h2
    · by_cases haddr2 : m.addr = r.addr
      · rw [← hm.eq hr haddr2]
        exact h1
      · rw [checkNode_iff_kids] at h1 h2 ⊢
        rcases h1 with haddr | ⟨hop1, fields, hfields, hattrs1, hkids1⟩
        · exact absurd haddr haddr1
        · rcases h2 with haddr | ⟨hop2, fields', hfields', hattrs2, hkids2⟩
          · exact absurd haddr haddr2
          · rw [← hop1, hfields] at hfields'
            obtain rfl : fields = fields' := Option.some.inj hfields'
            right
            refine ⟨hop1.trans hop2, fields, hfields,
              fun a ha => (hattrs1 a ha).trans (hattrs2 a ha), ?_⟩
            intro s hs
            have hlkids : StoredVec heap (kids s) := hl.kids s
            have hkids1 : cmpNodeVector (kids s) (m.kids s) = true := hkids1 s hs
            exact cmpNodeVector_trans hlkids (hm.kids s) (hr.kids s) hkids1 (hkids2 s hs)
  termination_by structural l => l

theorem check_trans : ∀ {l m r : Option Node}, Stored heap l → Stored heap m → Stored heap r →
    check l m = true → check m r = true → check l r = true
  | none, none, r, _, _, _, _, h2 => h2
  | none, some m, r, _, _, _, h1, _ => by simp [check] at h1
  | some l, none, r, _, _, _, h1, _ => by simp [check] at h1
  | some l, some m, none, _, _, _, _, h2 => by simp [check] at h2
  | some l, some m, some r, hl, hm, hr, h1, h2 => by
    rw [check] at h1 h2 ⊢
    exact checkNode_trans hl hm hr h1 h2
  termination_by structural l => l

theorem cmpNodeVector_trans : ∀ {ls ms rs : List (Option Node)}, StoredVec heap ls →
    StoredVec heap ms → StoredVec heap rs → cmpNodeVector ls ms = true →
    cmpNodeVector ms rs = true → cmpNodeVector ls rs = true
  | [], [], rs, _, _, _, _, h2 => h2
  | [], m :: ms, rs, _, _, _, h1, _ => by simp [cmpNodeVector] at h1
  | l :: ls, [], rs, _, _, _, h1, _ => by simp [cmpNodeVector] at h1
  | l :: ls, m :: ms, [], _, _, _, _, h2 => by simp [cmpNodeVector] at h2
  | l :: ls, m :: ms, r :: rs, hl, hm, hr, h1, h2 => by
    rw [StoredVec] at hl hm hr
    rw [cmpNodeVector, Bool.and_eq_true] at h1 h2 ⊢
    exact ⟨check_trans hl.1 hm.1 hr.1 h1.1 h2.1, cmpNodeVector_trans hl.2 hm.2 hr.2 h1.2 h2.2⟩
  termination_by structural ls => ls

end

/-- A node is equal to itself. -/
theorem check_refl (n : Option Node) : check n n = true := by
  cases n with
  | none => rfl
  | some n =>
    rw [check, checkNode_iff_kids]
    exact Or.inl rfl

/-! ## Equality of syntax -/

/-- `check` looks at fields that the class has. -/
theorem compared_subset (op : TreeOp) {fields : Fields} (h : compared op = some fields) :
    fields.attrs ⊆ (shape op).attrs ∧ fields.slots ⊆ (shape op).slots := by
  cases op <;> cases h <;> decide

mutual

/-- Equal trees look the same to `check` but for the words of their literals. -/
theorem lookedMeaning_of_eraseNode : ∀ {l r : Node},
    viewNode shape Value.meaning l = viewNode shape Value.meaning r →
    viewNode (fun op => (compared op).getD ⟨[], []⟩) Value.meaning l =
      viewNode (fun op => (compared op).getD ⟨[], []⟩) Value.meaning r
  | .mk addr span op attrs kids, r, h => by
    rw [viewNode_eq_iff] at h ⊢
    obtain ⟨hop, hattrs, hkids⟩ := h
    simp only [Node.op_mk, Node.attrs_mk, Node.kids_mk] at hop hattrs hkids ⊢
    cases hfields : compared op with
    | none => exact ⟨hop, fun a ha => absurd ha List.not_mem_nil, fun s hs => absurd hs List.not_mem_nil⟩
    | some fields =>
      obtain ⟨hsub, hsub'⟩ := compared_subset op hfields
      refine ⟨hop, fun a ha => hattrs a (hsub ha), ?_⟩
      intro s hs
      exact lookedMeaning_of_eraseVec (hkids s (hsub' hs))

/-- Trees that mean the same look the same, up to values. -/
theorem lookedMeaning_of_erase : ∀ {l r : Option Node}, erase l = erase r →
    view (fun op => (compared op).getD ⟨[], []⟩) Value.meaning l =
      view (fun op => (compared op).getD ⟨[], []⟩) Value.meaning r
  | none, none, _ => rfl
  | none, some r, h => by simp [erase, view] at h
  | some l, none, h => by simp [erase, view] at h
  | some l, some r, h => by
    rw [view, view, lookedMeaning_of_eraseNode]
    simpa [erase, view] using h

theorem lookedMeaning_of_eraseVec : ∀ {ls rs : List (Option Node)},
    viewVec shape Value.meaning ls = viewVec shape Value.meaning rs →
    viewVec (fun op => (compared op).getD ⟨[], []⟩) Value.meaning ls =
      viewVec (fun op => (compared op).getD ⟨[], []⟩) Value.meaning rs
  | [], [], _ => rfl
  | [], r :: rs, h => by simp [viewVec] at h
  | l :: ls, [], h => by simp [viewVec] at h
  | l :: ls, r :: rs, h => by
    rw [viewVec, viewVec, List.cons.injEq] at h
    rw [viewVec, viewVec, lookedMeaning_of_erase h.1, lookedMeaning_of_eraseVec h.2]

end

/-- Trees on which `check` is right. If they are equal, their literals have the same words, so that
they look the same, and `check` knows all kinds of nodes. If they are not, they differ in a field
that `check` looks at too, or it meets a kind that it does not know. -/
def Told (l r : Option Node) : Prop :=
  (erase l = erase r → looked l = looked r ∧ Known l r) ∧
    (erase l ≠ erase r → looked l ≠ looked r ∨ ¬ Known l r)

/-- **When `check` is equality of syntax.** -/
theorem check_exact_iff {l r : Option Node} (hl : Stored heap l) (hr : Stored heap r) :
    (check l r = true ↔ erase l = erase r) ↔ Told l r := by
  rw [check_iff hl hr, Told]
  constructor
  · intro h
    refine ⟨h.2, ?_⟩
    intro hne
    exact not_and_or.1 fun hboth => hne (h.1 hboth)
  · rintro ⟨heq, hne⟩
    refine ⟨?_, heq⟩
    intro hboth
    apply Classical.byContradiction
    intro hdiff
    exact not_and_or.2 (hne hdiff) hboth

end Heap

/-! ## Concrete trees -/

/-- A place that is the same for all nodes. -/
def noSpan : SourceSpan := ⟨0, 0, 0, 0⟩

/-- The node of a class with one attribute and no children. -/
def leaf (addr : Nat) (op : TreeOp) (attr : Attr) (v : Value) : Node :=
  .mk addr noSpan op (fun a => if a = attr then v else .flag false) fun _ => []

/-- The identifier `x`. -/
def idX (addr : Nat) : Node := leaf addr .id .name (.text [120])

/-- Two identifiers of one name are equal, and `check` says so. -/
theorem check_idX_exact :
    check (some (idX 1)) (some (idX 2)) = true ↔ erase (some (idX 1)) = erase (some (idX 2)) := by
  have hstored : ∀ addr, Stored (fun a => some (idX a)) (some (idX addr)) := by
    intro addr
    exact ⟨rfl, fun s => trivial⟩
  apply (check_exact_iff (hstored 1) (hstored 2)).2
  refine ⟨fun _ => ⟨rfl, Or.inr ⟨cmpId, rfl, fun s hs => absurd hs List.not_mem_nil⟩⟩, ?_⟩
  intro hne
  exact absurd rfl hne

/-- `let {x} = t`, with the bytes of the name. -/
def destructure (addr : Nat) (name : CString) : Node :=
  .mk addr noSpan .destructure
    (fun a => if a = .destructuringType then .number 0 else .flag false)
    fun s =>
      match s with
      | .initExpression => [some (leaf (addr + 1) .id .name (.text [116]))]
      | .declarations => [some (leaf (addr + 2) .var_ .name (.text name))]
      | _ => []

/-- `let {a} = t` and `let {b} = t` count as equal. -/
theorem check_destructure_not_exact :
    ¬ (check (some (destructure 1 [97])) (some (destructure 4 [98])) = true ↔
      erase (some (destructure 1 [97])) = erase (some (destructure 4 [98]))) := by
  intro h
  have hcheck : check (some (destructure 1 [97])) (some (destructure 4 [98])) = true := by
    decide
  have heq := h.1 hcheck
  simp [erase, view, viewNode, viewVec, destructure, leaf, shape, Value.meaning] at heq

end Quirrel.NodeEqualChecker
