import Quirrel.Dedup.Invariant

set_option autoImplicit false

/-!
# The traversal keeps the invariant

Each loop and each case of `shrink` keeps `Inv`, and so does the whole run, by induction on the depth
of the calls.
-/

namespace Quirrel.Dedup

variable {hashObj : SQObject → Nat} {M : Memory} {H : Heap}

/-- Every call keeps the invariant. -/
def KeepsCalls (hashObj : SQObject → Nat) (M : Memory) (H : Heap) (f : Shrink) : Prop :=
  ∀ {vt va slot s s' r}, Inv hashObj M H s → H.TraversedSlot slot →
    f vt va slot s = some (s', r) → Inv hashObj M H s'

/-! ## The loops -/

section Loops

variable {f : Shrink} {vt va : List Nat}

/-- The loop over the nodes: each call is made on a slot of a table that the traversal has come to.
-/
theorem shrinkNodes_keeps (hf : KeepsCalls hashObj M H f) {t : Nat} (ht : H.Traversed (.table t))
    (nodes : List Nat) : ∀ {simple : Bool} {s s' : State} {r : Bool}, Inv hashObj M H s →
    shrinkNodes f vt va t nodes simple s = some (s', r) → Inv hashObj M H s' := by
  induction nodes with
  | nil =>
    intro simple s s' r hs h
    cases h
    exact hs
  | cons i rest ih =>
    intro simple s s' r hs h
    rw [shrinkNodes] at h
    cases hT : s.heap.tables[t]? with
    | none =>
      rw [hT] at h
      cases h
    | some T =>
      simp only [hT] at h
      split at h
      case h_1 => exact ih hs h
      case h_2 key hkey =>
        split at h
        case isFalse => exact ih hs h
        case isTrue =>
          split at h
          case h_1 => cases h
          case h_2 s₁ r₁ hcall =>
            have hslot : s.heap.HasSlot (.nodeVal t i) :=
              Heap.hasSlot_nodeVal hT fun hnone => by cases hkey.symm.trans hnone
            have howner : ∀ c, Slot.owner (.nodeVal t i) = some c → H.Traversed c := by
              rintro c ⟨⟩
              exact ht
            exact ih (hf hs ⟨hslot.of_shape hs.shape.symm, howner⟩ hcall) h

/-- The loop over the elements of an array. -/
theorem shrinkElements_keeps (hf : KeepsCalls hashObj M H f) {a : Nat}
    (ha : H.Traversed (.array a)) (indices : List Nat) :
    ∀ {simple : Bool} {s s' : State} {r : Bool}, Inv hashObj M H s →
    shrinkElements f vt va a indices simple s = some (s', r) → Inv hashObj M H s' := by
  induction indices with
  | nil =>
    intro simple s s' r hs h
    cases h
    exact hs
  | cons i rest ih =>
    intro simple s s' r hs h
    rw [shrinkElements] at h
    split at h
    case h_1 => cases h
    case h_2 value hvalue =>
      dsimp only at h
      split at h
      case isFalse => exact ih hs h
      case isTrue =>
        split at h
        case h_1 => cases h
        case h_2 s₁ r₁ hcall =>
          obtain ⟨values, hvalues, hi⟩ := Option.bind_eq_some_iff.mp hvalue
          have hslot : s.heap.HasSlot (.element a i) :=
            Heap.hasSlot_element hvalues (List.getElem?_eq_some_iff.mp hi).1
          have howner : ∀ c, Slot.owner (.element a i) = some c → H.Traversed c := by
            rintro c ⟨⟩
            exact ha
          exact ih (hf hs ⟨hslot.of_shape hs.shape.symm, howner⟩ hcall) h

/-- The loop never makes a table simple again. -/
theorem simple_of_shrinkNodes {t : Nat} (nodes : List Nat) : ∀ {simple : Bool} {s s' : State},
    shrinkNodes f vt va t nodes simple s = some (s', true) → simple = true := by
  induction nodes with
  | nil =>
    intro simple s s' h
    cases h
    rfl
  | cons i rest ih =>
    intro simple s s' h
    rw [shrinkNodes] at h
    split at h
    case h_1 => cases h
    case h_2 =>
      split at h
      case h_1 => exact ih h
      case h_2 =>
        have hand : ∀ {a b c : Bool}, (a && b && c) = true → a = true := by decide
        dsimp only at h
        split at h
        case isFalse => exact hand (ih h)
        case isTrue =>
          split at h
          case h_1 => cases h
          case h_2 => exact hand (ih h)

/-- Where all nodes are simple the loop has called nothing. -/
theorem shrinkNodes_simple {t : Nat} {s : State} {T : TableObject} (hT : s.heap.tables[t]? = some T)
    (nodes : List Nat) : ∀ {simple : Bool} {s' : State},
    shrinkNodes f vt va t nodes simple s = some (s', true) → s' = s ∧
      ∀ i ∈ nodes, ∀ key, (T.table.nodes i).key = some key →
        key.isString = true ∧ (T.table.nodes i).val.obj.isSimple = true := by
  induction nodes with
  | nil =>
    intro simple s' h
    cases h
    exact ⟨rfl, nofun⟩
  | cons i rest ih =>
    intro simple s' h
    rw [shrinkNodes] at h
    simp only [hT] at h
    split at h
    case h_1 hnone =>
      obtain ⟨hs, hrest⟩ := ih h
      refine ⟨hs, List.forall_mem_cons.mpr ⟨fun key hkey => ?_, hrest⟩⟩
      cases hnone.symm.trans hkey
    case h_2 key hkey =>
      have hhere : key.isString = true ∧ (T.table.nodes i).val.obj.isSimple = true := by
        split at h
        case isFalse =>
          have hall := simple_of_shrinkNodes _ h
          simp only [Bool.and_eq_true] at hall
          exact ⟨hall.1.2, hall.2⟩
        case isTrue =>
          split at h
          case h_1 => cases h
          case h_2 =>
            have hall := simple_of_shrinkNodes _ h
            simp only [Bool.and_eq_true] at hall
            exact ⟨hall.1.2, hall.2⟩
      rw [if_neg (by rw [SQObject.not_isContainer_of_isSimple hhere.2]; exact Bool.false_ne_true)] at h
      obtain ⟨hs, hrest⟩ := ih h
      refine ⟨hs, List.forall_mem_cons.mpr ⟨fun key' hkey' => ?_, hrest⟩⟩
      obtain rfl := Option.some.inj (hkey.symm.trans hkey')
      exact hhere

/-- The loop never makes an array simple again. -/
theorem simple_of_shrinkElements {a : Nat} (indices : List Nat) :
    ∀ {simple : Bool} {s s' : State},
    shrinkElements f vt va a indices simple s = some (s', true) → simple = true := by
  induction indices with
  | nil =>
    intro simple s s' h
    cases h
    rfl
  | cons i rest ih =>
    intro simple s s' h
    rw [shrinkElements] at h
    split at h
    case h_1 => cases h
    case h_2 =>
      have hand : ∀ {a b : Bool}, (a && b) = true → a = true := by decide
      dsimp only at h
      split at h
      case isFalse => exact hand (ih h)
      case isTrue =>
        split at h
        case h_1 => cases h
        case h_2 => exact hand (ih h)

/-- Where all elements are simple the loop has called nothing. -/
theorem shrinkElements_simple {a : Nat} {s : State} {values : List SQObjectPtr}
    (ha : s.heap.arrays[a]? = some values) (indices : List Nat) : ∀ {simple : Bool} {s' : State},
    shrinkElements f vt va a indices simple s = some (s', true) → s' = s ∧
      ∀ i ∈ indices, ∀ w, values[i]? = some w → w.obj.isSimple = true := by
  induction indices with
  | nil =>
    intro simple s' h
    cases h
    exact ⟨rfl, nofun⟩
  | cons i rest ih =>
    intro simple s' h
    rw [shrinkElements] at h
    split at h
    case h_1 => cases h
    case h_2 value hvalue =>
      dsimp only at h
      have hhere : value.obj.isSimple = true := by
        split at h
        case isFalse => exact (Bool.and_eq_true_iff.mp (simple_of_shrinkElements _ h)).2
        case isTrue =>
          split at h
          case h_1 => cases h
          case h_2 => exact (Bool.and_eq_true_iff.mp (simple_of_shrinkElements _ h)).2
      rw [if_neg (by rw [SQObject.not_isContainer_of_isSimple hhere]; exact Bool.false_ne_true)] at h
      obtain ⟨hs, hrest⟩ := ih h
      refine ⟨hs, List.forall_mem_cons.mpr ⟨fun w hw => ?_, hrest⟩⟩
      have hread : s.heap.read (.element a i) = some w := by
        simp only [Heap.read, ha, Option.bind_some, hw]
      obtain rfl := Option.some.inj (hvalue.symm.trans hread)
      exact hhere

end Loops

/-! ## The two containers -/

section Containers

variable {f : Shrink} {vt va : List Nat} {slot : Slot} {s s' : State} {r : Bool}

/-- The rest of the case of a table. A table whose loop has called nothing is as it was, and may be
cached. -/
theorem visitTable_keeps (hkeys : H.KeysInside) (hf : KeepsCalls hashObj M H f) {t : Nat}
    {T : TableObject} {index : Nat} (hs : Inv hashObj M H s) (hslot : H.TraversedSlot slot)
    (hread : s.heap.read slot = some ⟨.table t, true⟩) (hT : s.heap.tables[t]? = some T)
    (hindex : T.table.usednodes ≤ cacheItemsLimit → index = cacheIndex (M.tableWords t T))
    (h : visitTable f vt va slot t T index s = some (s', r)) : Inv hashObj M H s' := by
  unfold visitTable at h
  split at h
  case isTrue =>
    -- the table is being visited further up
    cases h
    exact hs
  case isFalse =>
    split at h
    case h_1 => cases h
    case h_2 s₁ simple hnodes =>
      have hs₁ := shrinkNodes_keeps hf (hs.traversed hslot hread) _ hs hnodes
      split at h
      case isFalse =>
        cases h
        exact hs₁
      case isTrue hsimple =>
        rw [Bool.and_eq_true, decide_eq_true_eq] at hsimple
        obtain ⟨rfl, hitems⟩ := hsimple
        -- the loop has called nothing, so the index is still that of the table
        obtain ⟨rfl, hall⟩ := shrinkNodes_simple hT _ hnodes
        rw [hread] at h
        cases h
        obtain ⟨T₀, hT₀, hframe⟩ := hs.table hT
        have hin := (hs.keysInside hkeys T (List.mem_of_getElem? hT)).1
        have hsimple : T.Simple := by
          refine ⟨hitems, fun i key hkey => ?_, fun i hkey => ?_⟩
          · have hlt := hin i fun hnone => by cases hkey.symm.trans hnone
            exact (hall i (List.mem_range.mpr hlt) key hkey).1
          · obtain ⟨key, hkey'⟩ := Option.ne_none_iff_exists'.mp hkey
            exact (hall i (List.mem_range.mpr (hin i hkey)) key hkey').2
        obtain rfl : T = T₀ := hs.table_eq hT hT₀ fun i hkey hc => by
          rw [SQObject.not_isContainer_of_isSimple (hsimple.values i hkey)] at hc
          cases hc
        rw [hindex hitems]
        exact hs.cacheTable hslot hread hT₀ hsimple

/-- The rest of the case of an array. -/
theorem visitArray_keeps (hf : KeepsCalls hashObj M H f) {a : Nat} {values : List SQObjectPtr}
    {index : Nat} (hs : Inv hashObj M H s) (hslot : H.TraversedSlot slot)
    (hread : s.heap.read slot = some ⟨.array a, true⟩) (ha : s.heap.arrays[a]? = some values)
    (hindex : values.length ≤ cacheItemsLimit → index = cacheIndex (M.arrayWords a values))
    (h : visitArray f vt va slot a values index s = some (s', r)) : Inv hashObj M H s' := by
  unfold visitArray at h
  split at h
  case isTrue =>
    cases h
    exact hs
  case isFalse =>
    split at h
    case h_1 => cases h
    case h_2 s₁ simple helements =>
      have hs₁ := shrinkElements_keeps hf (hs.traversed hslot hread) _ hs helements
      split at h
      case isFalse =>
        cases h
        exact hs₁
      case isTrue hsimple =>
        rw [Bool.and_eq_true, decide_eq_true_eq] at hsimple
        obtain ⟨rfl, hitems⟩ := hsimple
        obtain ⟨rfl, hall⟩ := shrinkElements_simple ha _ helements
        rw [hread] at h
        cases h
        have hsimple : SimpleArray values := by
          refine ⟨hitems, fun w hw => ?_⟩
          obtain ⟨i, hi, rfl⟩ := List.getElem_of_mem hw
          exact hall i (List.mem_range.mpr hi) _ (List.getElem?_eq_getElem hi)
        obtain ⟨values₀, ha₀⟩ := hs.array ha
        obtain rfl : values = values₀ := hs.array_eq ha ha₀ fun w hw _ _ hc => by
          rw [SQObject.not_isContainer_of_isSimple (hsimple.values w hw)] at hc
          cases hc
        rw [hindex hitems]
        exact hs.cacheArray hslot hread ha₀ hsimple

/-- The case of a table: the flag, the question about the cached table, and the exchange or the
loop. -/
theorem shrinkTable_keeps (hH : H.Unambiguous M) (hkeys : H.KeysInside)
    (hf : KeepsCalls hashObj M H f) {t : Nat} {flag : Bool} (hs : Inv hashObj M H s)
    (hslot : H.TraversedSlot slot) (hread : s.heap.read slot = some ⟨.table t, flag⟩)
    (h : shrinkTable M f vt va slot t s = some (s', r)) : Inv hashObj M H s' := by
  have hs₁ := hs.setImmutable hkeys hslot hread rfl
  have hread₁ : (s.write slot ⟨.table t, true⟩).heap.read slot = some ⟨.table t, true⟩ :=
    Heap.read_write_self hread _
  rw [shrinkTable] at h
  -- from here on only the flag has been set
  generalize s.write slot ⟨.table t, true⟩ = s₁ at h hs₁ hread₁
  split at h
  case h_1 => cases h
  case h_2 T hT =>
    split at h
    case isFalse hitems =>
      exact visitTable_keeps hkeys hf hs₁ hslot hread₁ hT (fun hle => absurd hle hitems) h
    case isTrue =>
      dsimp only at h
      split at h
      case h_2 => exact visitTable_keeps hkeys hf hs₁ hslot hread₁ hT (fun _ => rfl) h
      case h_1 o hcache =>
        split at h
        case h_1 => cases h
        case h_2 O hO =>
          have hs₂ : Inv hashObj M H { s₁ with asked := s₁.asked ++ [⟨t, o, T, O⟩] } :=
            hs₁.ask hH (hs₁.traversed hslot hread₁) hT hO hcache rfl
          split at h
          case isFalse => exact visitTable_keeps hkeys hf hs₂ hslot hread₁ hT (fun _ => rfl) h
          case isTrue hequal =>
            cases h
            exact hs₂.assignTable hH hkeys hslot hread₁ hT hO hcache rfl hequal

/-- The case of an array. -/
theorem shrinkArray_keeps (hkeys : H.KeysInside) (hf : KeepsCalls hashObj M H f) {a : Nat}
    {flag : Bool} (hs : Inv hashObj M H s) (hslot : H.TraversedSlot slot)
    (hread : s.heap.read slot = some ⟨.array a, flag⟩)
    (h : shrinkArray M f vt va slot a s = some (s', r)) : Inv hashObj M H s' := by
  have hs₁ := hs.setImmutable hkeys hslot hread rfl
  have hread₁ : (s.write slot ⟨.array a, true⟩).heap.read slot = some ⟨.array a, true⟩ :=
    Heap.read_write_self hread _
  rw [shrinkArray] at h
  generalize s.write slot ⟨.array a, true⟩ = s₁ at h hs₁ hread₁
  split at h
  case h_1 => cases h
  case h_2 values ha =>
    split at h
    case isFalse hitems =>
      exact visitArray_keeps hf hs₁ hslot hread₁ ha (fun hle => absurd hle hitems) h
    case isTrue =>
      dsimp only at h
      split at h
      case h_2 => exact visitArray_keeps hf hs₁ hslot hread₁ ha (fun _ => rfl) h
      case h_1 o hcache =>
        split at h
        case h_1 => cases h
        case h_2 others ho =>
          split at h
          case isFalse => exact visitArray_keeps hf hs₁ hslot hread₁ ha (fun _ => rfl) h
          case isTrue hequal =>
            cases h
            exact hs₁.assignArray hkeys hslot hread₁ ha ho hcache rfl hequal

end Containers

/-! ## The whole run -/

/-- By induction on the depth: the calls from the nodes and elements are one level down. -/
theorem shrink_keeps (hH : H.Unambiguous M) (hkeys : H.KeysInside) (depth : Nat) :
    KeepsCalls hashObj M H (shrink M depth) := by
  induction depth with
  | zero =>
    intro vt va slot s s' r hs hslot h
    cases h
  | succ depth ih =>
    intro vt va slot s s' r hs hslot h
    rw [shrink] at h
    split at h
    case h_1 => cases h
    case h_2 t flag hread => exact shrinkTable_keeps hH hkeys ih hs hslot hread h
    case h_3 a flag hread => exact shrinkArray_keeps hkeys ih hs hslot hread h
    case h_4 =>
      cases h
      exact hs

end Quirrel.Dedup
