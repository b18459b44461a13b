import Quirrel.Lib.Observation
import Quirrel.Table.Reachable
import Quirrel.Dedup.Shrinker

set_option autoImplicit false

/-!
# What a script can read along paths

From a table a path goes on by a key or to its delegate, from an array by an index, and
through a weak reference to its object, while that is not freed. A slot that gets a
reference to an alike container leaves every path as it was (`Heap.write_sameReads`), and
tables that are equal in their bytes are alike when they have one size and one delegate.
-/

namespace Quirrel.Dedup

open Quirrel.Lib
open Quirrel.Table (SQTable HashNode ObjectOps getNode getLoop)

/-- `_realval`. The object of a weak reference is null when it has been freed. -/
def SQObject.realval (freed : List SQObject) : SQObject → SQObject
  | .weakref obj => if obj ∈ freed then .null else obj
  | obj => obj

/-- What the tables ask of the objects. -/
def objectOps (hashObj : SQObject → Nat) (freed : List SQObject) :
    ObjectOps SQObject SQObjectPtr where
  hashObj := hashObj
  stringAddr
    | .string addr => some addr
    | _ => none
  null := ⟨.null, false⟩
  realval v := ⟨v.obj.realval freed, v.immutable⟩

/-- A step of a path. -/
inductive Step where
  | key (k : SQObject)
  | index (i : Nat)
  | delegate
  deriving DecidableEq

/-- What is seen of an object: a leaf as it is, a table with its number of slots, an array
with its size. -/
inductive Label where
  | leaf (obj : SQObject)
  | table (slots : Option Nat)
  | array (size : Option Nat)
  deriving DecidableEq

variable (hashObj : SQObject → Nat)

/-- `SQTable::Get` -/
def TableObject.get (freed : List SQObject) (T : TableObject) (k : SQObject) : Option SQObject :=
  (Table.get (objectOps hashObj freed) T.table k).join.map SQObjectPtr.obj

/-- The delegate as a value. -/
def TableObject.delegateObject (T : TableObject) : Option SQObject := T.delegate.map .table

/-- The heap as a script reads it. -/
def view (H : Heap) (freed : List SQObject) : View SQObject Step Label where
  label
    | .table t => .table (H.tables[t]?.map fun T => T.table.usednodes)
    | .array a => .array (H.arrays[a]?.map List.length)
    | obj => .leaf obj
  child
    | .table t, .key k => H.tables[t]?.bind fun T => T.get hashObj freed k
    | .table t, .delegate => H.tables[t]?.bind TableObject.delegateObject
    | .array a, .index i => H.arrays[a]?.bind fun values => values[i]?.map fun v => v.obj.realval freed
    | _, _ => none

/-- Every path from the root and from every object reads what it read. -/
structure SameReads (freed : List SQObject) (H H' : Heap) : Prop where
  observe : ∀ path obj,
    (view hashObj H' freed).observe path obj = (view hashObj H freed).observe path obj
  root : (view hashObj H freed).Alike H'.root.obj H.root.obj

variable {hashObj} {freed : List SQObject}

/-- A container is read as it is. -/
theorem SQObject.realval_of_isContainer {obj : SQObject} (h : obj.isContainer = true)
    (freed : List SQObject) : obj.realval freed = obj := by
  cases obj with
  | weakref obj => cases h
  | _ => rfl

theorem SameReads.refl (H : Heap) : SameReads hashObj freed H H :=
  ⟨fun _ _ => rfl, View.Alike.refl _ _⟩

theorem SameReads.trans {H H' H'' : Heap} (h : SameReads hashObj freed H H')
    (h' : SameReads hashObj freed H' H'') : SameReads hashObj freed H H'' where
  observe path obj := (h'.observe path obj).trans (h.observe path obj)
  root path := by
    have h1 := h'.root path
    rw [h.observe, h.observe] at h1
    exact h1.trans (h.root path)

/-- What the paths from the root read. -/
theorem SameReads.observe_root {H H' : Heap} (h : SameReads hashObj freed H H')
    (path : List Step) :
    (view hashObj H' freed).observe path H'.root.obj
      = (view hashObj H freed).observe path H.root.obj :=
  (h.observe path _).trans (h.root path)

/-! ## Writing a slot -/

theorem getLoop_setVal (t : SQTable SQObject SQObjectPtr) (i : Nat) (v : SQObjectPtr)
    (k : SQObject) (fuel : Nat) : ∀ n, getLoop (t.setVal i v) k fuel n = getLoop t k fuel n := by
  induction fuel with
  | zero => exact fun _ => rfl
  | succ fuel ih =>
    intro n
    have hkey : ((t.setVal i v).nodes n).key = (t.nodes n).key :=
      congrFun (SQTable.keyAt_setVal t i v) n
    have hnext : ((t.setVal i v).nodes n).next = (t.nodes n).next :=
      congrFun (SQTable.nextAt_setVal t i v) n
    rw [getLoop, getLoop, hkey, hnext]
    split
    · rfl
    · split
      · rfl
      · exact ih _

/-- A stored value does not change where a key is found. -/
theorem getNode_setVal (t : SQTable SQObject SQObjectPtr) (i : Nat) (v : SQObjectPtr)
    (k : SQObject) :
    getNode (objectOps hashObj freed) (t.setVal i v) k = getNode (objectOps hashObj freed) t k :=
  getLoop_setVal t i v k _ _

/-- A lookup reads the new value where it comes to the written node. -/
theorem get_setVal (T : TableObject) (i : Nat) (v : SQObjectPtr) (k : SQObject) :
    TableObject.get hashObj freed { T with table := T.table.setVal i v } k = T.get hashObj freed k ∨
      TableObject.get hashObj freed { T with table := T.table.setVal i v } k
          = some (v.obj.realval freed) ∧
        T.get hashObj freed k = some ((T.table.nodes i).val.obj.realval freed) := by
  unfold TableObject.get Table.get
  rw [getNode_setVal]
  cases hn : getNode (objectOps hashObj freed) T.table k with
  | none => exact .inl rfl
  | some n =>
    cases n with
    | none => exact .inl rfl
    | some j =>
      by_cases hj : j = i
      · subst hj
        have hval : (T.table.setVal j v).valAt j = v := by
          rw [SQTable.valAt_setVal, Function.update_self]
        exact .inr ⟨congrArg (fun w : SQObjectPtr => some (w.obj.realval freed)) hval, rfl⟩
      · have hval : (T.table.setVal i v).valAt j = T.table.valAt j := by
          rw [SQTable.valAt_setVal, Function.update_of_ne hj]
        exact .inl (congrArg (fun w : SQObjectPtr => some (w.obj.realval freed)) hval)

/-- A write changes no size. -/
theorem label_write (H : Heap) (slot : Slot) (v : SQObjectPtr) (obj : SQObject) :
    (view hashObj (H.write slot v) freed).label obj = (view hashObj H freed).label obj := by
  cases obj with
  | table t =>
    cases slot with
    | nodeVal t' i =>
      show Label.table _ = Label.table _
      congr 1
      simp only [Heap.write, List.getElem?_modify]
      split
      · cases H.tables[t]? <;> rfl
      · cases H.tables[t]? <;> rfl
    | _ => rfl
  | array a =>
    cases slot with
    | element a' i =>
      show Label.array _ = Label.array _
      congr 1
      simp only [Heap.write, List.getElem?_modify]
      split
      · cases H.arrays[a]? with
        | none => rfl
        | some values =>
          show some (values.set i v).length = some values.length
          rw [List.length_set]
      · cases H.arrays[a]? <;> rfl
    | _ => rfl
  | _ => rfl

/-- After the write of a container over another, each step leads where it led, or from the written
slot to what was written there. -/
theorem child_write (H : Heap) (slot : Slot) (v w : SQObjectPtr) (hread : H.read slot = some w)
    (hv : v.obj.isContainer = true) (hw : w.obj.isContainer = true) (obj : SQObject) (s : Step) :
    (view hashObj (H.write slot v) freed).child obj s = (view hashObj H freed).child obj s ∨
      (view hashObj (H.write slot v) freed).child obj s = some v.obj ∧
        (view hashObj H freed).child obj s = some w.obj := by
  cases slot with
  | root => cases obj <;> cases s <;> exact .inl rfl
  | nodeVal t i =>
    cases obj with
    | table t' =>
      by_cases ht : t = t'
      · subst ht
        obtain ⟨T, hT, rfl⟩ := Option.map_eq_some_iff.mp hread
        have hT' : (H.write (.nodeVal t i) v).tables[t]?
            = some { T with table := T.table.setVal i v } := by
          simp only [Heap.write, List.getElem?_modify_eq, hT, Option.map_eq_map, Option.map_some]
        cases s with
        | key k =>
          simp only [view, hT', hT, Option.bind_some]
          have hget := @get_setVal hashObj freed T i v k
          rwa [SQObject.realval_of_isContainer hv, SQObject.realval_of_isContainer hw] at hget
        | index j => exact .inl rfl
        | delegate =>
          left
          simp only [view, hT', hT, Option.bind_some]
          rfl
      · have hT' : (H.write (.nodeVal t i) v).tables[t']? = H.tables[t']? :=
          List.getElem?_modify_ne _ _ ht
        left
        cases s <;> simp only [view, hT']
    | array a => cases s <;> exact .inl rfl
    | _ => cases s <;> exact .inl rfl
  | element a i =>
    cases obj with
    | array a' =>
      cases s with
      | index j =>
        by_cases ha : a = a'
        · subst ha
          obtain ⟨values, hvalues, hi⟩ := Option.bind_eq_some_iff.mp hread
          have hv' : (H.write (.element a i) v).arrays[a]? = some (values.set i v) := by
            simp only [Heap.write, List.getElem?_modify_eq, hvalues, Option.map_eq_map,
              Option.map_some]
          simp only [view, hv', hvalues, Option.bind_some]
          by_cases hij : i = j
          · subst hij
            have hlt : i < values.length := (List.getElem?_eq_some_iff.mp hi).1
            rw [List.getElem?_set_self hlt, hi, Option.map_some, Option.map_some,
              SQObject.realval_of_isContainer hv, SQObject.realval_of_isContainer hw]
            exact .inr ⟨rfl, rfl⟩
          · rw [List.getElem?_set_ne hij]
            exact .inl rfl
        · have hv' : (H.write (.element a i) v).arrays[a']? = H.arrays[a']? := by
            exact List.getElem?_modify_ne _ _ ha
          left
          simp only [view, hv']
      | key k => exact .inl rfl
      | delegate => exact .inl rfl
    | table t => cases s <;> exact .inl rfl
    | _ => cases s <;> exact .inl rfl

/-- A slot that gets a reference to an alike container. -/
theorem Heap.write_sameReads {H : Heap} {slot : Slot} {v w : SQObjectPtr}
    (hread : H.read slot = some w) (hv : v.obj.isContainer = true) (hw : w.obj.isContainer = true)
    (h : (view hashObj H freed).Alike v.obj w.obj) : SameReads hashObj freed H (H.write slot v) where
  observe := by
    refine View.observe_eq_of_alike (label_write H slot v) fun obj s => ?_
    rcases child_write H slot v w hread hv hw obj s with heq | ⟨hv, hw⟩
    · rw [heq]
      exact View.AlikeSteps.refl _ _
    · rw [hv, hw]
      exact h
  root := by
    cases slot with
    | root =>
      cases hread
      exact h
    | _ => exact View.Alike.refl _ _

/-! ## Equal bytes -/

/-- In nodes without keys the loop finds nothing. -/
theorem getLoop_of_keys_none {t : SQTable SQObject SQObjectPtr} (h : ∀ i, (t.nodes i).key = none)
    (k : SQObject) (fuel : Nat) : ∀ n, (getLoop t k fuel n).join = none := by
  induction fuel with
  | zero => exact fun _ => rfl
  | succ fuel ih =>
    intro n
    have hne : (t.nodes n).key ≠ some k := fun hkey => by cases (h n).symm.trans hkey
    rw [getLoop, if_neg hne]
    cases (t.nodes n).next with
    | none => rfl
    | some n' => exact ih n'

/-- In a table without keys nothing is found. -/
theorem get_of_keys_none {T : TableObject} (h : ∀ i, (T.table.nodes i).key = none) (k : SQObject) :
    T.get hashObj freed k = none := by
  have hnode : (getNode (objectOps hashObj freed) T.table k).join = none :=
    getLoop_of_keys_none h k _ _
  unfold TableObject.get Table.get
  cases hn : getNode (objectOps hashObj freed) T.table k with
  | none => rfl
  | some n =>
    rw [hn] at hnode
    cases n with
    | none => rfl
    | some j => cases hnode

/-- Tables of one size with the same bytes read the same. The bytes hold the chains, so none goes on
from the main position. -/
theorem get_of_sameNodes {M : Memory} {t o : Nat} {T O : TableObject}
    (hsize : O.table.size = T.table.size) (h : sameNodes M t o T O = true) (k : SQObject) :
    T.get hashObj freed k = O.get hashObj freed k := by
  have hmask : O.table.numofnodesMinusOne = T.table.numofnodesMinusOne := by
    simpa only [SQTable.size, Nat.add_right_cancel_iff] using hsize
  have hmain : Table.mainPosition (objectOps hashObj freed) O.table k
      = Table.mainPosition (objectOps hashObj freed) T.table k := by
    rw [Table.mainPosition, Table.mainPosition, hmask]
  have hlt : Table.mainPosition (objectOps hashObj freed) T.table k < T.table.size :=
    Nat.lt_succ_of_le (Table.mainPosition_le _ T.table k)
  have hnode := List.all_eq_true.mp (Bool.and_eq_true_iff.mp h).2 _ (List.mem_range.mpr hlt)
  simp only [nodeAt, hsize, if_pos hlt, sameNode, Bool.and_eq_true, decide_eq_true_eq,
    Option.isNone_iff_eq_none] at hnode
  obtain ⟨⟨⟨hval, hkey⟩, hnextT⟩, hnextO⟩ := hnode
  -- No chain goes on from the main position, in either table.
  have hlookup : ∀ X : SQTable SQObject SQObjectPtr,
      Table.mainPosition (objectOps hashObj freed) X k
        = Table.mainPosition (objectOps hashObj freed) T.table k →
      (X.nodes (Table.mainPosition (objectOps hashObj freed) T.table k)).next = none →
      getNode (objectOps hashObj freed) X k
        = some (if (X.nodes (Table.mainPosition (objectOps hashObj freed) T.table k)).key = some k
            then some (Table.mainPosition (objectOps hashObj freed) T.table k) else none) := by
    intro X hX hnext
    rw [getNode, hX, SQTable.size, getLoop, hnext]
    split <;> rfl
  unfold TableObject.get Table.get
  rw [hlookup T.table rfl hnextT, hlookup O.table hmain hnextO, ← hkey]
  split
  · exact congrArg (fun v : SQObjectPtr => some (v.obj.realval freed)) hval
  · rfl

/-- Two tables that `IsBinaryEqual` finds equal read the same under every key. -/
theorem get_of_isBinaryEqual {M : Memory} {t o : Nat} {T O : TableObject}
    (hT : T.table.usednodes = 0 → ∀ i, (T.table.nodes i).key = none)
    (hO : O.table.usednodes = 0 → ∀ i, (O.table.nodes i).key = none) (hot : o ≠ t)
    (hsize : comparesNodes t o T O = true → O.table.size = T.table.size)
    (h : isBinaryEqual M t o T O = true) :
    T.table.usednodes = O.table.usednodes ∧ ∀ k, T.get hashObj freed k = O.get hashObj freed k := by
  unfold isBinaryEqual at h
  split at h
  case isTrue => cases h
  case isFalse hsame =>
    rw [not_or, not_not, not_not] at hsame
    refine ⟨hsame.1.symm, fun k => ?_⟩
    split at h
    case isTrue hzero =>
      rw [get_of_keys_none (hT (hsame.1 ▸ hzero)) k, get_of_keys_none (hO hzero) k]
    case isFalse hzero =>
      refine get_of_sameNodes (hsize ?_) h k
      simp only [comparesNodes, hsame.1, hsame.2, decide_true, Bool.true_and, Bool.and_eq_true,
        decide_eq_true_eq, ne_eq]
      exact ⟨hot, hsame.1 ▸ hzero⟩

/-- Tables with the same slots, values and delegate are alike. -/
theorem alike_of_get {H : Heap} {t o : Nat} {T O : TableObject} (hT : H.tables[t]? = some T)
    (hO : H.tables[o]? = some O) (hused : T.table.usednodes = O.table.usednodes)
    (hget : ∀ k, T.get hashObj freed k = O.get hashObj freed k) (hdelegate : O.delegate = T.delegate) :
    (view hashObj H freed).Alike (.table o) (.table t) := by
  apply View.alike_of_steps
  · simp only [view, hT, hO, Option.map_some, hused]
  · intro s
    have hstep : (view hashObj H freed).child (.table o) s
        = (view hashObj H freed).child (.table t) s := by
      cases s with
      | key k => simp only [view, hT, hO, Option.bind_some, hget]
      | index i => rfl
      | delegate =>
        simp only [view, hT, hO, Option.bind_some, TableObject.delegateObject, hdelegate]
    rw [hstep]
    exact View.AlikeSteps.refl _ _

/-- Arrays with the same values are alike. -/
theorem alike_of_values {H : Heap} {a o : Nat} {values : List SQObjectPtr}
    (ha : H.arrays[a]? = some values) (ho : H.arrays[o]? = some values) :
    (view hashObj H freed).Alike (.array o) (.array a) := by
  apply View.alike_of_steps
  · simp only [view, ha, ho]
  · intro s
    have hstep : (view hashObj H freed).child (.array o) s
        = (view hashObj H freed).child (.array a) s := by
      cases s with
      | index i => simp only [view, ha, ho]
      | _ => rfl
    rw [hstep]
    exact View.AlikeSteps.refl _ _

/-- Arrays that `IsBinaryEqual` finds equal have the same values. -/
theorem values_of_arraysBinaryEqual {M : Memory} {a o : Nat} {values others : List SQObjectPtr}
    (ha : a = o → values = others) (h : arraysBinaryEqual M a o values others = true) :
    values = others := by
  unfold arraysBinaryEqual at h
  split at h
  case isTrue hao => exact ha hao
  case isFalse =>
    split at h
    case isTrue => cases h
    case isFalse hlen =>
      split at h
      case isTrue hzero =>
        have hothers : others.length = 0 := (not_not.mp hlen).symm.trans hzero
        rw [List.length_eq_zero_iff.mp hzero, List.length_eq_zero_iff.mp hothers]
      case isFalse => exact of_decide_eq_true (Bool.and_eq_true_iff.mp h).2

end Quirrel.Dedup
