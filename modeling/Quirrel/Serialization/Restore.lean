import Mathlib.Data.List.Nodup
import Mathlib.Data.List.Pairwise
import Quirrel.Serialization.Scalars

/-!
# What is read back

The value that the reader makes of a written tree (`Value.restore`), with the strings that the
stream has named before it, and when it is structurally equal to the tree (`same_restore_iff`).
Three things come back changed. A float that equals `0.0` comes back as `0.0`, a key that is a
container comes back as another container, and the index of a string is a word of 32 bits.
-/

set_option autoImplicit false

namespace Quirrel.Serialization

open Quirrel.Lib Quirrel.Vm

/-! ## Trees -/

mutual

/-- The value and all that it contains, in the order of the visits. -/
def Value.nodes : Value → List Value
  | .array elems => .array elems :: nodesAll elems
  | .table entries => .table entries :: nodesEntries entries
  | v => [v]
termination_by structural v => v

/-- The nodes of the values of an array. -/
def nodesAll : List Value → List Value
  | [] => []
  | v :: vs => v.nodes ++ nodesAll vs
termination_by structural vs => vs

/-- The nodes of the keys and values of a table. -/
def nodesEntries : List (Value × Value) → List Value
  | [] => []
  | (key, val) :: es => key.nodes ++ (val.nodes ++ nodesEntries es)
termination_by structural es => es

end

/-- The string that gets an index, if the value is one. -/
def Value.indexed : Value → Option (List UInt8)
  | .string (c :: cs) => some (c :: cs)
  | _ => none

/-- The non-empty strings of a list of visits. -/
def stringsOf (nodes : List Value) : List (List UInt8) := nodes.filterMap Value.indexed

/-- The nesting of arrays and tables is at most `n` deep. -/
def WithinDepth : Nat → Value → Prop
  | 0, .array _ | 0, .table _ => False
  | n + 1, .array elems => ∀ e ∈ elems, WithinDepth n e
  | n + 1, .table entries => ∀ e ∈ entries, WithinDepth n e.1 ∧ WithinDepth n e.2
  | _, _ => True

/-- The keys of a table are different keys. -/
def DistinctKeys (entries : List (Value × Value)) : Prop :=
  entries.Pairwise fun e e' => sameKey e.1 e'.1 = false

/-- What the sizes and the types of a tree have to be. -/
def Value.Serializable : Value → Prop
  | .string s => s.length < deserMaxObjectSize
  | .array elems => elems.length < deserMaxObjectSize
  | .table entries => entries.length < deserMaxObjectSize ∧ DistinctKeys entries
  | .sqinstance _ | .unsupported => False
  | _ => True

/-! ## Structural equality -/

/-- A key that is the same key after a round trip. -/
def KeyKept : Value → Prop
  | .array _ | .table _ => False
  | .float w => w ≠ 0x80000000
  | _ => True

/-- Every key of every table in the tree is kept. -/
def KeysKept (v : Value) : Prop :=
  ∀ entries, .table entries ∈ v.nodes → ∀ e ∈ entries, KeyKept e.1

/-- Structural equality: arrays element by element, tables entry by entry, where `m` finds the entry
of a key. Floats are equal if they compare equal or are the same word. -/
inductive Same : Value → Value → Prop
  | null : Same .null .null
  | bool (b : Bool) : Same (.bool b) (.bool b)
  | integer (i : BitVec 64) : Same (.integer i) (.integer i)
  | float (w w' : UInt32) : w = w' ∨ wordEq w w' = true → Same (.float w) (.float w')
  | string (s : List UInt8) : Same (.string s) (.string s)
  | array (elems elems' : List Value) : elems.length = elems'.length →
      (∀ p ∈ elems.zip elems', Same p.1 p.2) → Same (.array elems) (.array elems')
  | table (entries entries' : List (Value × Value)) (m : Value × Value → Value × Value) :
      entries.length = entries'.length → (∀ e ∈ entries, m e ∈ entries') →
      (∀ e ∈ entries, sameKey e.1 (m e).1 = true) → (∀ e ∈ entries, Same e.2 (m e).2) →
      Same (.table entries) (.table entries')

/-! ## Strings of the stream -/

/-- The list of strings after another one. -/
def addString (seen : List (List UInt8)) (s : List UInt8) : List (List UInt8) :=
  if s ∈ seen then seen else seen ++ [s]

/-- The strings of a list, added in order. -/
def addStrings (seen ss : List (List UInt8)) : List (List UInt8) := ss.foldl addString seen

/-- A string that occurs again is one of the first `2 ^ 32` different ones. -/
def IndicesFit : List (List UInt8) → List (List UInt8) → Prop
  | _, [] => True
  | seen, s :: ss => (s ∈ seen → seen.idxOf s < 2 ^ 32) ∧ IndicesFit (addString seen s) ss

/-- Strings are added one list after the other. -/
theorem addStrings_append (seen ss ts : List (List UInt8)) :
    addStrings seen (ss ++ ts) = addStrings (addStrings seen ss) ts := List.foldl_append

/-- The indices of the later strings count from the earlier ones. -/
theorem indicesFit_append (seen ss ts : List (List UInt8)) :
    IndicesFit seen (ss ++ ts) ↔ IndicesFit seen ss ∧ IndicesFit (addStrings seen ss) ts := by
  induction ss generalizing seen with
  | nil => exact ⟨fun h => ⟨trivial, h⟩, And.right⟩
  | cons s ss ih =>
    rw [List.cons_append, IndicesFit, IndicesFit, ih, and_assoc]
    rfl

/-- A string is added at the end. -/
theorem prefix_addString (seen : List (List UInt8)) (s : List UInt8) :
    seen <+: addString seen s := by
  unfold addString
  split
  · exact List.prefix_refl seen
  · exact List.prefix_append seen [s]

theorem prefix_addStrings (seen ss : List (List UInt8)) : seen <+: addStrings seen ss := by
  induction ss generalizing seen with
  | nil => exact List.prefix_refl seen
  | cons s ss ih => exact (prefix_addString seen s).trans (ih (addString seen s))

theorem nodup_addString {seen : List (List UInt8)} (h : seen.Nodup) (s : List UInt8) :
    (addString seen s).Nodup := by
  unfold addString
  split
  · exact h
  · rename_i hs
    rw [← List.concat_eq_append]
    exact h.concat hs

/-- No string is added twice. -/
theorem nodup_addStrings {seen : List (List UInt8)} (h : seen.Nodup) (ss : List (List UInt8)) :
    (addStrings seen ss).Nodup := by
  induction ss generalizing seen with
  | nil => exact h
  | cons s ss ih => exact ih (nodup_addString h s)

/-! ## The restored value -/

/-- What an index of 32 bits stands for. -/
def restoreString (seen : List (List UInt8)) (s : List UInt8) : List UInt8 :=
  if s ≠ [] ∧ s ∈ seen then (seen[seen.idxOf s % 2 ^ 32]?).getD [] else s

/-- The strings of the stream after a visit of the value. -/
def Value.seenAfter (v : Value) (seen : List (List UInt8)) : List (List UInt8) :=
  addStrings seen (stringsOf v.nodes)

mutual

/-- The value that is read back when `seen` are the strings before it. -/
def Value.restore : Value → List (List UInt8) → Value
  | .float w, _ => .float (restoreFloat w)
  | .string s, seen => .string (restoreString seen s)
  | .array elems, seen => .array (restoreAll elems seen)
  | .table entries, seen => .table ((restoreEntries entries seen).foldl
      (fun acc e => rawset acc e.1 e.2) [])
  | v, _ => v
termination_by structural v => v

/-- The values of an array, each with the strings before it. -/
def restoreAll : List Value → List (List UInt8) → List Value
  | [], _ => []
  | v :: vs, seen => v.restore seen :: restoreAll vs (v.seenAfter seen)
termination_by structural vs => vs

/-- The entries of a table in the order in which they are read, before equal keys are merged. -/
def restoreEntries : List (Value × Value) → List (List UInt8) → List (Value × Value)
  | [], _ => []
  | (key, val) :: es, seen =>
    (key.restore seen, val.restore (key.seenAfter seen)) ::
      restoreEntries es (val.seenAfter (key.seenAfter seen))
termination_by structural es => es

end

/-! ## Visits -/

/-- The elements with the strings of the stream before them. -/
def visits : List Value → List (List UInt8) → List (Value × List (List UInt8))
  | [], _ => []
  | v :: vs, seen => (v, seen) :: visits vs (v.seenAfter seen)

/-- The entries with the strings before their keys. -/
def entryVisits : List (Value × Value) → List (List UInt8) →
    List ((Value × Value) × List (List UInt8))
  | [], _ => []
  | e :: es, seen => (e, seen) :: entryVisits es (e.2.seenAfter (e.1.seenAfter seen))

/-- The visits of an array are its values, in order. -/
theorem map_visits (vs : List Value) (seen : List (List UInt8)) :
    (visits vs seen).map Prod.fst = vs := by
  induction vs generalizing seen with
  | nil => rfl
  | cons v vs ih => rw [visits, List.map_cons, ih]

/-- The visits of a table are its entries, in order. -/
theorem map_entryVisits (es : List (Value × Value)) (seen : List (List UInt8)) :
    (entryVisits es seen).map Prod.fst = es := by
  induction es generalizing seen with
  | nil => rfl
  | cons e es ih => rw [entryVisits, List.map_cons, ih]

/-- The values of an array come back each as at its own visit. -/
theorem restoreAll_eq (vs : List Value) (seen : List (List UInt8)) :
    restoreAll vs seen = (visits vs seen).map fun p => p.1.restore p.2 := by
  induction vs generalizing seen with
  | nil => rfl
  | cons v vs ih => rw [restoreAll, visits, List.map_cons, ih]

/-- The entry that is read back for a visit of an entry. -/
def restoreEntry (p : (Value × Value) × List (List UInt8)) : Value × Value :=
  (p.1.1.restore p.2, p.1.2.restore (p.1.1.seenAfter p.2))

/-- The entries of a table come back each as at its own visit. -/
theorem restoreEntries_eq (es : List (Value × Value)) (seen : List (List UInt8)) :
    restoreEntries es seen = (entryVisits es seen).map restoreEntry := by
  induction es generalizing seen with
  | nil => rfl
  | cons e es ih =>
    obtain ⟨key, val⟩ := e
    rw [restoreEntries, entryVisits, List.map_cons, ih]
    rfl

theorem stringsOf_append (ns ms : List Value) :
    stringsOf (ns ++ ms) = stringsOf ns ++ stringsOf ms := List.filterMap_append

theorem stringsOf_mono {ns ms : List Value} (h : ∀ w ∈ ns, w ∈ ms) {x : List UInt8}
    (hx : x ∈ stringsOf ns) : x ∈ stringsOf ms := by
  obtain ⟨w, hw, heq⟩ := List.mem_filterMap.1 hx
  exact List.mem_filterMap.2 ⟨w, h w hw, heq⟩

theorem length_restoreAll (vs : List Value) (seen : List (List UInt8)) :
    (restoreAll vs seen).length = vs.length := by
  rw [restoreAll_eq, List.length_map]
  conv_rhs => rw [← map_visits vs seen, List.length_map]

theorem length_restoreEntries (es : List (Value × Value)) (seen : List (List UInt8)) :
    (restoreEntries es seen).length = es.length := by
  rw [restoreEntries_eq, List.length_map]
  conv_rhs => rw [← map_entryVisits es seen, List.length_map]

/-- The indices in an array fit when those of each value do. -/
theorem indicesFit_visits (vs : List Value) (seen : List (List UInt8)) :
    IndicesFit seen (stringsOf (nodesAll vs)) ↔
      ∀ p ∈ visits vs seen, IndicesFit p.2 (stringsOf p.1.nodes) := by
  induction vs generalizing seen with
  | nil => exact iff_of_true trivial (fun p hp => nomatch hp)
  | cons v vs ih =>
    rw [nodesAll, stringsOf_append, indicesFit_append, visits, List.forall_mem_cons, ← ih]
    rfl

/-- The indices in a table fit when those of each entry do. -/
theorem indicesFit_entryVisits (es : List (Value × Value)) (seen : List (List UInt8)) :
    IndicesFit seen (stringsOf (nodesEntries es)) ↔
      ∀ p ∈ entryVisits es seen, IndicesFit p.2 (stringsOf p.1.1.nodes) ∧
        IndicesFit (p.1.1.seenAfter p.2) (stringsOf p.1.2.nodes) := by
  induction es generalizing seen with
  | nil => exact iff_of_true trivial (fun p hp => nomatch hp)
  | cons e es ih =>
    obtain ⟨key, val⟩ := e
    rw [nodesEntries, stringsOf_append, stringsOf_append, indicesFit_append, indicesFit_append,
      entryVisits, List.forall_mem_cons, ← ih, and_assoc]
    rfl

/-- No string is known twice at any visit. -/
theorem nodup_visits {vs : List Value} {seen : List (List UInt8)} (h : seen.Nodup) :
    ∀ p ∈ visits vs seen, p.2.Nodup := by
  induction vs generalizing seen with
  | nil => exact fun p hp => nomatch hp
  | cons v vs ih =>
    rw [visits, List.forall_mem_cons]
    exact ⟨h, ih (nodup_addStrings h _)⟩

/-- The strings before a visit have no duplicates and are the first ones of those after all. -/
theorem prefix_entryVisits (es : List (Value × Value)) {seen : List (List UInt8)} (h : seen.Nodup) :
    ∃ all : List (List UInt8), all.Nodup ∧ seen <+: all ∧
      ∀ p ∈ entryVisits es seen, p.2.Nodup ∧ p.2 <+: all := by
  induction es generalizing seen with
  | nil => exact ⟨seen, h, List.prefix_refl seen, fun p hp => nomatch hp⟩
  | cons e es ih =>
    obtain ⟨all, hall, hle, hmem⟩ := ih (nodup_addStrings (nodup_addStrings h _) _)
    have hseen : seen <+: all :=
      ((prefix_addStrings seen _).trans (prefix_addStrings _ _)).trans hle
    refine ⟨all, hall, hseen, ?_⟩
    rw [entryVisits, List.forall_mem_cons]
    exact ⟨⟨h, hseen⟩, hmem⟩

/-! ## Strings that come back -/

/-- A string comes back when its index fits in 32 bits. -/
theorem restoreString_eq_iff {seen : List (List UInt8)} (h : seen.Nodup) {s : List UInt8}
    (hne : s ≠ []) : restoreString seen s = s ↔ (s ∈ seen → seen.idxOf s < 2 ^ 32) := by
  unfold restoreString
  split
  · rename_i hs
    have hlt : seen.idxOf s < seen.length := List.idxOf_lt_length_iff.2 hs.2
    have hmod : seen.idxOf s % 2 ^ 32 < seen.length := Nat.lt_of_le_of_lt (Nat.mod_le _ _) hlt
    rw [List.getElem?_eq_getElem hmod, Option.getD_some]
    constructor
    · intro heq _
      have hidx := h.idxOf_getElem _ hmod
      rw [heq] at hidx
      exact hidx ▸ Nat.mod_lt _ (by decide)
    · intro hfit
      simp only [Nat.mod_eq_of_lt (hfit hs.2)]
      exact List.getElem_idxOf hlt
  · rename_i hs
    exact iff_of_true rfl fun hmem => absurd ⟨hne, hmem⟩ hs

/-- A string that stands for another one has one of the first indices. -/
theorem idxOf_restoreString {seen : List (List UInt8)} (h : seen.Nodup) {s : List UInt8}
    (hne : restoreString seen s ≠ s) :
    restoreString seen s ∈ seen ∧ seen.idxOf (restoreString seen s) < 2 ^ 32 := by
  unfold restoreString at hne ⊢
  split at hne
  · rename_i hs
    have hlt : seen.idxOf s < seen.length := List.idxOf_lt_length_iff.2 hs.2
    have hmod : seen.idxOf s % 2 ^ 32 < seen.length := Nat.lt_of_le_of_lt (Nat.mod_le _ _) hlt
    rw [if_pos hs, List.getElem?_eq_getElem hmod, Option.getD_some, h.idxOf_getElem _ hmod]
    exact ⟨List.getElem_mem hmod, Nat.mod_lt _ (by decide)⟩
  · exact absurd rfl hne

theorem idxOf_prefix {seen all : List (List UInt8)} (h : seen <+: all) {s : List UInt8}
    (hs : s ∈ seen) : all.idxOf s = seen.idxOf s := by
  obtain ⟨rest, rfl⟩ := h
  exact List.idxOf_append_of_mem hs

/-! ## Tables -/

/-- Two keys are the same when they are equal and no containers. -/
theorem sameKey_iff {k k' : Value} : sameKey k k' = true ↔
    k = k' ∧ (∀ es, k ≠ .array es) ∧ (∀ es, k ≠ .table es) ∧ k ≠ .unsupported := by
  cases k <;> cases k' <;> simp [sameKey]

theorem sameKey_comm (k k' : Value) : sameKey k k' = sameKey k' k := by
  rw [Bool.eq_iff_iff, sameKey_iff, sameKey_iff]
  constructor
  · rintro ⟨rfl, h⟩
    exact ⟨rfl, h⟩
  · rintro ⟨rfl, h⟩
    exact ⟨rfl, h⟩

/-- No entry has the key of a later one. -/
theorem foldl_rawset {acc ps : List (Value × Value)}
    (h : ∀ p ∈ ps, ∀ e ∈ acc, sameKey e.1 p.1 = false) (hps : DistinctKeys ps) :
    ps.foldl (fun acc e => rawset acc e.1 e.2) acc = acc ++ ps := by
  induction ps generalizing acc with
  | nil => exact (List.append_nil acc).symm
  | cons p ps ih =>
    obtain ⟨hp, hps⟩ := List.pairwise_cons.1 hps
    rw [List.forall_mem_cons] at h
    have hset : rawset acc p.1 p.2 = acc ++ [p] := by
      rw [rawset, if_neg]
      rw [List.any_eq_true]
      rintro ⟨e, he, hsame⟩
      exact Bool.false_ne_true ((h.1 e he).symm.trans hsame)
    rw [List.foldl_cons, hset, ih ?_ hps, List.append_assoc, List.singleton_append]
    intro q hq e he
    rcases List.mem_append.1 he with he | he
    · exact h.2 q hq e he
    · rw [List.mem_singleton.1 he]
      exact hp q hq

/-- `rawset` of a key that is there adds no entry. -/
theorem length_rawset (acc : List (Value × Value)) (key val : Value) :
    (rawset acc key val).length =
      if acc.any fun e => sameKey e.1 key then acc.length else acc.length + 1 := by
  unfold rawset
  split
  · exact List.length_map _
  · exact List.length_append

theorem length_foldl_rawset_le (acc ps : List (Value × Value)) :
    (ps.foldl (fun acc e => rawset acc e.1 e.2) acc).length ≤ acc.length + ps.length := by
  induction ps generalizing acc with
  | nil => exact Nat.le_refl _
  | cons p ps ih =>
    refine Nat.le_trans (ih (rawset acc p.1 p.2)) ?_
    rw [length_rawset, List.length_cons]
    split <;> omega

/-- A table that has as many entries as were stored has merged none of them. -/
theorem distinct_of_length {acc ps : List (Value × Value)}
    (h : (ps.foldl (fun acc e => rawset acc e.1 e.2) acc).length = acc.length + ps.length) :
    (∀ p ∈ ps, ∀ e ∈ acc, sameKey e.1 p.1 = false) ∧ DistinctKeys ps := by
  induction ps generalizing acc with
  | nil => exact ⟨fun p hp => absurd hp List.not_mem_nil, List.Pairwise.nil⟩
  | cons p ps ih =>
    have hle := length_foldl_rawset_le (rawset acc p.1 p.2) ps
    rw [List.foldl_cons, List.length_cons] at h
    have hnew : (acc.any fun e => sameKey e.1 p.1) = false := by
      rw [length_rawset] at hle
      by_contra hany
      rw [Bool.not_eq_false] at hany
      rw [if_pos hany] at hle
      omega
    have hset : rawset acc p.1 p.2 = acc ++ [p] := by
      rw [rawset, hnew]
      rfl
    rw [hset] at h
    obtain ⟨hacc, hps⟩ := ih (h.trans (by rw [List.length_append, List.length_singleton]; omega))
    refine ⟨?_, List.pairwise_cons.2 ⟨fun q hq => ?_, hps⟩⟩
    · rw [List.forall_mem_cons]
      refine ⟨fun e he => ?_, fun q hq e he => hacc q hq e (List.mem_append_left _ he)⟩
      exact Bool.eq_false_iff.2 fun hsame =>
        Bool.false_ne_true (hnew.symm.trans (List.any_eq_true.2 ⟨e, he, hsame⟩))
    · exact hacc q hq p (List.mem_append_right _ (List.mem_singleton.2 rfl))

/-- When nothing is lost the keys were distinct and the entries are those that were set. -/
theorem eq_of_length_foldl {ps : List (Value × Value)}
    (h : (ps.foldl (fun acc e => rawset acc e.1 e.2) []).length = ps.length) :
    DistinctKeys ps ∧ ps.foldl (fun acc e => rawset acc e.1 e.2) [] = ps := by
  obtain ⟨-, hps⟩ := distinct_of_length (h.trans (Nat.zero_add _).symm)
  refine ⟨hps, ?_⟩
  rw [foldl_rawset (fun _ _ _ he => absurd he List.not_mem_nil) hps, List.nil_append]

/-! ## When the restored value is the same -/

theorem KeysKept.scalar {v : Value} (h : v.nodes = [v]) (hv : ∀ es, v ≠ .table es) :
    KeysKept v := by
  intro es hes
  rw [h, List.mem_singleton] at hes
  exact absurd hes.symm (hv es)

/-- A node of an array is a node of one of its values. -/
theorem mem_nodesAll {vs : List Value} {w : Value} :
    w ∈ nodesAll vs ↔ ∃ v ∈ vs, w ∈ v.nodes := by
  induction vs with
  | nil => simp [nodesAll]
  | cons v vs ih => rw [nodesAll, List.mem_append, List.exists_mem_cons_iff, ih]

/-- A node of a table is a node of one of its keys or values. -/
theorem mem_nodesEntries {es : List (Value × Value)} {w : Value} :
    w ∈ nodesEntries es ↔ ∃ e ∈ es, w ∈ e.1.nodes ∨ w ∈ e.2.nodes := by
  induction es with
  | nil => simp [nodesEntries]
  | cons e es ih =>
    obtain ⟨key, val⟩ := e
    rw [nodesEntries, List.mem_append, List.mem_append, List.exists_mem_cons_iff, ih, or_assoc]

/-- The keys in an array are kept when those of each value are. -/
theorem keysKept_array {es : List Value} : KeysKept (.array es) ↔ ∀ e ∈ es, KeysKept e := by
  unfold KeysKept
  constructor
  · intro h e he entries hmem
    exact h entries (List.mem_cons_of_mem _ (mem_nodesAll.2 ⟨e, he, hmem⟩))
  · intro h entries hmem
    rcases List.mem_cons.1 hmem with heq | hmem
    · cases heq
    · obtain ⟨e, he, hmem⟩ := mem_nodesAll.1 hmem
      exact h e he entries hmem

/-- The keys in a table are kept when its own are, and those in them. -/
theorem keysKept_table {es : List (Value × Value)} : KeysKept (.table es) ↔
    ∀ e ∈ es, KeyKept e.1 ∧ KeysKept e.1 ∧ KeysKept e.2 := by
  constructor
  · intro h e he
    refine ⟨h es List.mem_cons_self e he, fun entries hmem => ?_, fun entries hmem => ?_⟩
    · exact h entries (List.mem_cons_of_mem _ (mem_nodesEntries.2 ⟨e, he, .inl hmem⟩))
    · exact h entries (List.mem_cons_of_mem _ (mem_nodesEntries.2 ⟨e, he, .inr hmem⟩))
  · intro h entries hmem
    rcases List.mem_cons.1 hmem with heq | hmem
    · cases heq
      exact fun e he => (h e he).1
    · obtain ⟨e, he, hmem | hmem⟩ := mem_nodesEntries.1 hmem
      · exact (h e he).2.1 entries hmem
      · exact (h e he).2.2 entries hmem

/-- A float comes back equal, as `==` sees it. -/
theorem wordEq_restoreFloat (w : UInt32) : w = restoreFloat w ∨ wordEq w (restoreFloat w) := by
  unfold restoreFloat
  split
  · rename_i h
    exact .inr h
  · exact .inl rfl

theorem restoreFloat_ne (w : UInt32) : restoreFloat w ≠ 0x80000000 := by
  unfold restoreFloat
  split
  · decide
  · rename_i h
    rintro rfl
    exact h (by decide)

/-- Of all words only that of `-0.0f` does not come back. -/
theorem restoreFloat_eq_iff {w : UInt32} : restoreFloat w = w ↔ w ≠ 0x80000000 := by
  constructor
  · intro h
    exact h ▸ restoreFloat_ne w
  · intro hw
    unfold restoreFloat
    split
    · rename_i h
      rcases eq_of_wordEq h with h | ⟨rfl | h, -⟩
      · exact h.symm
      · rfl
      · exact absurd h hw
    · rfl

/-- The conditions under which a value that is visited after `seen` comes back as it was. -/
def Value.Fits (v : Value) (seen : List (List UInt8)) : Prop :=
  KeysKept v ∧ IndicesFit seen (stringsOf v.nodes)

/-- A scalar that has no index always fits. -/
theorem fits_scalar {v : Value} {seen : List (List UInt8)} (h : v.nodes = [v])
    (hv : ∀ es, v ≠ .table es) (hs : v.indexed = none) : v.Fits seen := by
  refine ⟨KeysKept.scalar h hv, ?_⟩
  rw [h, stringsOf, List.filterMap_cons_none hs]
  exact trivial

/-- A string fits when it comes back. -/
theorem fits_string {s : List UInt8} {seen : List (List UInt8)} (h : seen.Nodup) :
    (Value.string s).Fits seen ↔ restoreString seen s = s := by
  cases s with
  | nil => exact iff_of_true (fits_scalar rfl nofun rfl) (if_neg fun hs => hs.1 rfl)
  | cons c cs =>
    rw [restoreString_eq_iff h (List.cons_ne_nil c cs)]
    constructor
    · exact fun hfit => hfit.2.1
    · intro hfit
      refine ⟨KeysKept.scalar rfl ?_, hfit, trivial⟩
      exact nofun

/-- A key comes back as the same key if and only if it is kept and its index fits. -/
theorem sameKey_restore_iff {k : Value} {seen : List (List UInt8)} (h : seen.Nodup)
    (hk : k.Serializable) : sameKey k (k.restore seen) = true ↔ KeyKept k ∧ k.Fits seen := by
  cases k with
  | null => exact iff_of_true rfl ⟨trivial, fits_scalar rfl nofun rfl⟩
  | bool b => exact iff_of_true (beq_self_eq_true b) ⟨trivial, fits_scalar rfl nofun rfl⟩
  | integer i => exact iff_of_true (beq_self_eq_true i) ⟨trivial, fits_scalar rfl nofun rfl⟩
  | float w =>
    have hfit : (Value.float w).Fits seen := fits_scalar rfl nofun rfl
    rw [and_iff_left hfit]
    exact beq_iff_eq.trans (eq_comm.trans restoreFloat_eq_iff)
  | string s =>
    rw [fits_string h]
    exact (beq_iff_eq.trans eq_comm).trans ⟨fun hs => ⟨trivial, hs⟩, And.right⟩
  | array es => exact iff_of_false Bool.false_ne_true fun hkept => hkept.1
  | table es => exact iff_of_false Bool.false_ne_true fun hkept => hkept.1
  | sqinstance addr => exact hk.elim
  | unsupported => exact hk.elim

theorem mem_visits {vs : List Value} {seen : List (List UInt8)} {p : Value × List (List UInt8)}
    (h : p ∈ visits vs seen) : p.1 ∈ vs :=
  map_visits vs seen ▸ List.mem_map_of_mem h

theorem mem_entryVisits {es : List (Value × Value)} {seen : List (List UInt8)}
    {p : (Value × Value) × List (List UInt8)} (h : p ∈ entryVisits es seen) : p.1 ∈ es :=
  map_entryVisits es seen ▸ List.mem_map_of_mem h

/-- A property of all values, visit by visit. -/
theorem forall_visits {vs : List Value} {seen : List (List UInt8)} {P : Value → Prop} :
    (∀ v ∈ vs, P v) ↔ ∀ p ∈ visits vs seen, P p.1 := by
  have h := List.forall_mem_map (f := Prod.fst) (l := visits vs seen) (P := P)
  rwa [map_visits] at h

theorem forall_entryVisits {es : List (Value × Value)} (seen : List (List UInt8))
    {P : Value × Value → Prop} : (∀ e ∈ es, P e) ↔ ∀ p ∈ entryVisits es seen, P p.1 := by
  have h := List.forall_mem_map (f := Prod.fst) (l := entryVisits es seen) (P := P)
  rwa [map_entryVisits] at h

/-- An array fits when each value does at its visit. -/
theorem fits_array {es : List Value} {seen : List (List UInt8)} :
    (Value.array es).Fits seen ↔ ∀ p ∈ visits es seen, p.1.Fits p.2 := by
  have hnodes : stringsOf (Value.array es).nodes = stringsOf (nodesAll es) := rfl
  unfold Value.Fits
  rw [keysKept_array, hnodes, indicesFit_visits, forall_visits, ← forall₂_and]

/-- A table fits when its keys are kept and each entry does at its visit. -/
theorem fits_table {es : List (Value × Value)} {seen : List (List UInt8)} :
    (Value.table es).Fits seen ↔ ∀ p ∈ entryVisits es seen,
      (KeyKept p.1.1 ∧ p.1.1.Fits p.2) ∧ p.1.2.Fits (p.1.1.seenAfter p.2) := by
  have hnodes : stringsOf (Value.table es).nodes = stringsOf (nodesEntries es) := rfl
  unfold Value.Fits
  rw [keysKept_table, hnodes, indicesFit_entryVisits, forall_entryVisits seen, ← forall₂_and]
  constructor
  · intro h p hp
    obtain ⟨⟨hkept, hkey, hval⟩, hfit, hfit'⟩ := h p hp
    exact ⟨⟨hkept, hkey, hfit⟩, hval, hfit'⟩
  · intro h p hp
    obtain ⟨⟨hkept, hkey, hfit⟩, hval, hfit'⟩ := h p hp
    exact ⟨⟨hkept, hkey, hval⟩, hfit, hfit'⟩

/-- Distinct keys stay distinct visits. -/
theorem distinct_entryVisits {es : List (Value × Value)} (hes : DistinctKeys es)
    (seen : List (List UInt8)) {p q : (Value × Value) × List (List UInt8)}
    (hp : p ∈ entryVisits es seen) (hq : q ∈ entryVisits es seen)
    (hsame : sameKey p.1.1 q.1.1 = true) : p = q := by
  by_contra hne
  rw [DistinctKeys, ← map_entryVisits es seen, List.pairwise_map] at hes
  have hsymm : Std.Symm fun p q : (Value × Value) × List (List UInt8) =>
      sameKey p.1.1 q.1.1 = false := ⟨fun p q h => (sameKey_comm _ _).trans h⟩
  exact Bool.false_ne_true ((hes.forall hp hq hne).symm.trans hsame)

/-- A key that comes back for some key of the table comes back for itself. -/
theorem sameKey_of_restored {es : List (Value × Value)} {seen all : List (List UInt8)}
    (hes : DistinctKeys es)
    (hseen : ∀ p ∈ entryVisits es seen, p.2.Nodup ∧ p.2 <+: all)
    {p q : (Value × Value) × List (List UInt8)} (hp : p ∈ entryVisits es seen)
    (hq : q ∈ entryVisits es seen) (hsame : sameKey p.1.1 (q.1.1.restore q.2) = true) :
    sameKey p.1.1 (p.1.1.restore p.2) = true := by
  obtain ⟨heq, harr, htab, hun⟩ := sameKey_iff.1 hsame
  cases hk : p.1.1 with
  | null => rfl
  | bool b => exact beq_self_eq_true b
  | integer i => exact beq_self_eq_true i
  | sqinstance addr => exact beq_self_eq_true addr
  | array es => exact absurd hk (harr es)
  | table es => exact absurd hk (htab es)
  | unsupported => exact absurd hk hun
  | float w =>
    -- The word of `-0.0` is never read back.
    rw [hk] at heq
    cases hk' : q.1.1 with
    | float w' =>
      rw [hk', Value.restore] at heq
      cases heq
      exact beq_iff_eq.2 (restoreFloat_eq_iff.2 (restoreFloat_ne w')).symm
    | _ =>
      rw [hk'] at heq
      cases heq
  | string s =>
    rw [hk] at heq
    cases hk' : q.1.1 with
    | string r =>
      rw [hk', Value.restore] at heq
      cases heq
      obtain ⟨hnodup, hprefix⟩ := hseen p hp
      obtain ⟨hnodup', hprefix'⟩ := hseen q hq
      refine beq_iff_eq.2 (Eq.symm ?_)
      by_cases hr : restoreString q.2 r = r
      · -- The same string under two keys is one key.
        have hpq : p = q := distinct_entryVisits hes seen hp hq (by
          rw [hk, hk', hr]
          exact beq_self_eq_true r)
        rw [hpq, hr, hr]
      · -- Otherwise it has one of the first indices, in both visits.
        obtain ⟨hmem, hlt⟩ := idxOf_restoreString hnodup' hr
        by_cases hempty : restoreString q.2 r = []
        · rw [hempty]
          exact if_neg fun h => h.1 rfl
        · refine (restoreString_eq_iff hnodup hempty).2 fun hmem' => ?_
          rw [← idxOf_prefix hprefix hmem', idxOf_prefix hprefix' hmem]
          exact hlt
    | _ =>
      rw [hk'] at heq
      cases heq

/-- An array comes back the same when each value does. -/
theorem same_array_iff {es : List Value} {seen : List (List UInt8)} :
    Same (.array es) ((Value.array es).restore seen) ↔
      ∀ p ∈ visits es seen, Same p.1 (p.1.restore p.2) := by
  have hzip : es.zip (restoreAll es seen) =
      (visits es seen).map fun p => (p.1, p.1.restore p.2) := by
    have h := List.zip_map' (l := visits es seen) (f := Prod.fst) (g := fun p => p.1.restore p.2)
    rwa [map_visits, ← restoreAll_eq] at h
  rw [Value.restore]
  constructor
  · intro h
    cases h with
    | array _ _ _ helems =>
      rw [hzip, List.forall_mem_map] at helems
      exact helems
  · intro h
    refine .array _ _ (length_restoreAll es seen).symm ?_
    rw [hzip, List.forall_mem_map]
    exact h

/-- The keys of a table come back as they were if they come back as different keys, among which
each of them is. -/
theorem same_table_iff {es : List (Value × Value)} {seen : List (List UInt8)}
    (hseen : seen.Nodup) (hes : DistinctKeys es) :
    Same (.table es) ((Value.table es).restore seen) ↔
      ∀ p ∈ entryVisits es seen, sameKey p.1.1 (p.1.1.restore p.2) = true ∧
        Same p.1.2 (p.1.2.restore (p.1.1.seenAfter p.2)) := by
  obtain ⟨all, -, -, hall⟩ := prefix_entryVisits es hseen
  have hlen := length_restoreEntries es seen
  rw [Value.restore]
  constructor
  · intro h
    cases h with
    | table _ _ m hsize hmem hkey hval =>
      obtain ⟨hdistinct, heq⟩ := eq_of_length_foldl (hsize.symm.trans hlen.symm)
      rw [heq, restoreEntries_eq] at hmem
      rw [restoreEntries_eq, DistinctKeys, List.pairwise_map] at hdistinct
      intro p hp
      have he := mem_entryVisits hp
      obtain ⟨q, hq, hqm⟩ := List.mem_map.1 (hmem p.1 he)
      have hsame := hkey p.1 he
      rw [← hqm] at hsame
      have hself := sameKey_of_restored hes hall hp hq hsame
      refine ⟨hself, ?_⟩
      -- The entry that is found for the key is the one that came back for it.
      have hpq : p = q := by
        by_contra hne
        have hsymm : Std.Symm fun p q : (Value × Value) × List (List UInt8) =>
            sameKey (restoreEntry p).1 (restoreEntry q).1 = false :=
          ⟨fun p q h => (sameKey_comm _ _).trans h⟩
        have hdiff := hdistinct.forall hp hq hne
        obtain ⟨h2, -⟩ := sameKey_iff.1 hsame
        have hkeys : sameKey (restoreEntry p).1 (restoreEntry q).1 = true := by
          rw [← h2]
          exact (sameKey_comm _ _).trans hself
        exact Bool.false_ne_true (hdiff.symm.trans hkeys)
      have hsameVal := hval p.1 he
      rw [← hqm, ← hpq] at hsameVal
      exact hsameVal
  · intro h
    have hdistinct : DistinctKeys (restoreEntries es seen) := by
      rw [restoreEntries_eq, DistinctKeys, List.pairwise_map]
      rw [DistinctKeys, ← map_entryVisits es seen, List.pairwise_map] at hes
      refine hes.imp_of_mem fun hp hq hne => ?_
      rw [restoreEntry, restoreEntry, ← (sameKey_iff.1 (h _ hp).1).1,
        ← (sameKey_iff.1 (h _ hq).1).1]
      exact hne
    have hfold : (restoreEntries es seen).foldl (fun acc e => rawset acc e.1 e.2) [] =
        (entryVisits es seen).map restoreEntry := by
      rw [foldl_rawset (fun _ _ _ he => absurd he List.not_mem_nil) hdistinct, List.nil_append,
        restoreEntries_eq]
    have hfind : ∀ e ∈ es, ∃ e' ∈ (entryVisits es seen).map restoreEntry,
        sameKey e.1 e'.1 = true ∧ Same e.2 e'.2 := by
      rw [forall_entryVisits seen (P := fun e => ∃ e' ∈ (entryVisits es seen).map restoreEntry,
        sameKey e.1 e'.1 = true ∧ Same e.2 e'.2)]
      exact fun p hp => ⟨restoreEntry p, List.mem_map_of_mem hp, h p hp⟩
    choose! m hm using hfind
    rw [hfold]
    refine .table _ _ m ?_ (fun e he => (hm e he).1) (fun e he => (hm e he).2.1)
      fun e he => (hm e he).2.2
    rw [← restoreEntries_eq, hlen]

/-- What is no container comes back the same if and only if it fits. -/
theorem same_restore_scalar {v : Value} {seen : List (List UInt8)} (harr : ∀ es, v ≠ .array es)
    (htab : ∀ es, v ≠ .table es) (hv : v.Serializable) (h : seen.Nodup) :
    Same v (v.restore seen) ↔ v.Fits seen := by
  cases v with
  | null => exact iff_of_true .null (fits_scalar rfl nofun rfl)
  | bool b => exact iff_of_true (.bool b) (fits_scalar rfl nofun rfl)
  | integer i => exact iff_of_true (.integer i) (fits_scalar rfl nofun rfl)
  | float w =>
    exact iff_of_true (.float w _ (wordEq_restoreFloat w)) (fits_scalar rfl nofun rfl)
  | string s =>
    rw [fits_string h, Value.restore]
    constructor
    · generalize restoreString seen s = s'
      rintro ⟨⟩
      rfl
    · intro hs
      rw [hs]
      exact .string s
  | array es => exact absurd rfl (harr es)
  | table es => exact absurd rfl (htab es)
  | sqinstance addr => exact hv.elim
  | unsupported => exact hv.elim

/-- **A tree comes back as it was** if and only if its keys are kept and its indices fit. -/
theorem same_restore_iff {n : Nat} {v : Value} {seen : List (List UInt8)} (hn : WithinDepth n v)
    (hv : ∀ w ∈ v.nodes, w.Serializable) (h : seen.Nodup) :
    Same v (v.restore seen) ↔ v.Fits seen := by
  induction n generalizing v seen with
  | zero =>
    have hself : v ∈ v.nodes := by cases v <;> exact List.mem_cons_self
    refine same_restore_scalar ?_ ?_ (hv v hself) h
    · rintro es rfl
      exact hn
    · rintro es rfl
      exact hn
  | succ n ih =>
    cases v with
    | array es =>
      rw [same_array_iff, fits_array]
      refine forall₂_congr fun p hp => ?_
      have he := mem_visits hp
      refine ih (hn p.1 he) (fun w hw => ?_) (nodup_visits h p hp)
      exact hv w (List.mem_cons_of_mem _ (mem_nodesAll.2 ⟨p.1, he, hw⟩))
    | table es =>
      obtain ⟨all, -, -, hall⟩ := prefix_entryVisits es h
      rw [same_table_iff h (hv _ List.mem_cons_self).2, fits_table]
      refine forall₂_congr fun p hp => ?_
      have he := mem_entryVisits hp
      have hkey : ∀ w ∈ p.1.1.nodes, w.Serializable := fun w hw =>
        hv w (List.mem_cons_of_mem _ (mem_nodesEntries.2 ⟨p.1, he, .inl hw⟩))
      have hval : ∀ w ∈ p.1.2.nodes, w.Serializable := fun w hw =>
        hv w (List.mem_cons_of_mem _ (mem_nodesEntries.2 ⟨p.1, he, .inr hw⟩))
      have hself : p.1.1 ∈ p.1.1.nodes := by cases p.1.1 <;> exact List.mem_cons_self
      refine and_congr (sameKey_restore_iff (hall p hp).1 (hkey _ hself)) ?_
      exact ih (hn p.1 he).2 hval (nodup_addStrings (hall p hp).1 _)
    | null => exact same_restore_scalar nofun nofun trivial h
    | bool b => exact same_restore_scalar nofun nofun trivial h
    | integer i => exact same_restore_scalar nofun nofun trivial h
    | float w => exact same_restore_scalar nofun nofun trivial h
    | string s => exact same_restore_scalar nofun nofun (hv _ List.mem_cons_self) h
    | sqinstance addr => exact (hv _ List.mem_cons_self).elim
    | unsupported => exact (hv _ List.mem_cons_self).elim

end Quirrel.Serialization
