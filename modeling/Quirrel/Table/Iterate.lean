import Quirrel.Table.FiniteMap

/-!
# `foreach` over a table that its body modifies

The iterator is the index of a node (`SQTable::Next`, `FOREACH_OP`). A body that overwrites and deletes
keys cannot keep the loop from ending. As long as no deletion makes `Remove` take another node array,
keys stay at their nodes, so the loop meets every key that stays, and none twice. Main theorem
`foreach_table`. The control example is `foreach_misses_key`: a deletion that halves the array moves
the other key in front of the iterator.
-/

set_option autoImplicit false

namespace Quirrel.Table

open Quirrel.Lib SQTable

universe u v

variable {K : Type u} {V : Type v}

/-! ## The iterator -/

/-- The search of `Next` through the last `fuel` nodes, the first of which has index `idx`. -/
def nextLoop (o : ObjectOps K V) (t : SQTable K V) : Nat → Nat → Option (Nat × K × V)
  | 0, _ => none
  | fuel + 1, idx =>
    match t.keyAt idx with
    | some k => some (idx + 1, k, o.realval (t.valAt idx))
    | none => nextLoop o t fuel (idx + 1)

/-- `SQTable::Next`, for a loop that does not ask for weak references: the index for the next
iteration, the key and the value. -/
def next (o : ObjectOps K V) (t : SQTable K V) (idx : Nat) : Option (Nat × K × V) :=
  nextLoop o t (t.size - idx) idx

/-- An operation of a loop body that inserts no key. (`NewSlot` on a present key does what `Set`
does.) -/
inductive LoopOp (K : Type u) (V : Type v)
  | overwrite (key : K) (val : V)
  | delete (key : K)
  | clear

/-- What an operation in the body does to the table. -/
def LoopOp.tableOp : LoopOp K V → TableOp K V
  | .overwrite key val => .set key val
  | .delete key => .remove key
  | .clear => .clear true

/-- What happened in a loop: the keys that were visited, the operations with the tables that they
found, and the table in the end. -/
structure LoopRun (K : Type u) (V : Type v) where
  visited : List K
  steps : List (SQTable K V × LoopOp K V)
  table : SQTable K V

section

variable [DecidableEq K]

/-- One execution of the body. -/
def runBody (o : ObjectOps K V) (depth : Nat) :
    List (LoopOp K V) → SQTable K V → Option (List (SQTable K V × LoopOp K V) × SQTable K V)
  | [], t => some ([], t)
  | op :: ops, t =>
    match applyOp o depth t op.tableOp with
    | none => none
    | some t' => (runBody o depth ops t').map fun r => ((t, op) :: r.1, r.2)

/-- The loop of `FOREACH_OP`. `body` gives what the body does in each turn. -/
def foreachLoop (o : ObjectOps K V) (depth : Nat) (body : Nat → List (LoopOp K V)) :
    Nat → Nat → SQTable K V → Nat → Option (LoopRun K V)
  | 0, _, _, _ => none
  | fuel + 1, turn, t, idx =>
    match next o t idx with
    | none => some ⟨[], [], t⟩
    | some (idx', k, _) =>
      match runBody o depth (body turn) t with
      | none => none
      | some (steps, t') =>
        (foreachLoop o depth body fuel (turn + 1) t' idx').map fun r =>
          ⟨k :: r.visited, steps ++ r.steps, r.table⟩

/-- `Remove` empties a node of the table and then takes another node array. -/
def Reallocates (o : ObjectOps K V) (t : SQTable K V) : LoopOp K V → Prop
  | .delete key => ∃ i, t.keyAt i = some key ∧ rehashSize false (freedNode o t i) ≠ none
  | _ => False

end

/-! ## What `Next` finds -/

theorem nextLoop_some {o : ObjectOps K V} {t : SQTable K V} {fuel idx idx' : Nat} {k : K} {v : V}
    (h : nextLoop o t fuel idx = some (idx', k, v)) :
    ∃ i, idx' = i + 1 ∧ idx ≤ i ∧ t.keyAt i = some k ∧
      ∀ j, idx ≤ j → j < i → t.keyAt j = none := by
  induction fuel generalizing idx with
  | zero => cases h
  | succ fuel ih =>
    rw [nextLoop] at h
    split at h
    · rename_i k' hk
      cases h
      exact ⟨idx, rfl, Nat.le_refl idx, hk, fun j hj hlt => absurd hj (Nat.not_le.2 hlt)⟩
    · rename_i hfree
      obtain ⟨i, hi, hle, hk, hfree'⟩ := ih h
      refine ⟨i, hi, Nat.le_of_succ_le hle, hk, fun j hj hlt => ?_⟩
      rcases Nat.eq_or_lt_of_le hj with rfl | hj
      · exact hfree
      · exact hfree' j hj hlt

theorem nextLoop_none {o : ObjectOps K V} {t : SQTable K V} {fuel idx : Nat}
    (h : nextLoop o t fuel idx = none) : ∀ j, idx ≤ j → j < idx + fuel → t.keyAt j = none := by
  induction fuel generalizing idx with
  | zero => exact fun j hj hlt => absurd hj (Nat.not_le.2 hlt)
  | succ fuel ih =>
    rw [nextLoop] at h
    split at h
    · cases h
    · rename_i hfree
      intro j hj hlt
      rcases Nat.eq_or_lt_of_le hj with rfl | hj
      · exact hfree
      · exact ih h j hj (by omega)

variable [DecidableEq K] {o : ObjectOps K V} {t : SQTable K V} {m : Finmap fun _ : K => V}

theorem next_none (R : Represents o t m) {idx : Nat} (h : next o t idx = none) :
    ∀ j, idx ≤ j → t.keyAt j = none := by
  intro j hj
  by_contra hk
  obtain ⟨k, hk⟩ := Option.ne_none_iff_exists'.1 hk
  have hlt : j < t.size := Nat.lt_succ_of_le (R.wf.key_le hk)
  exact absurd (nextLoop_none h j hj (by omega)) (by rw [hk]; exact Option.some_ne_none k)

/-! ## What the body does to the table -/

theorem keys_specOp_subset (m : Finmap fun _ : K => V) (op : LoopOp K V) :
    (specOp m op.tableOp).keys ⊆ m.keys := by
  intro k hk
  rw [Finmap.mem_keys] at hk ⊢
  cases op with
  | overwrite key val =>
    rw [LoopOp.tableOp, specOp] at hk
    split at hk
    · rcases Finmap.mem_insert.1 hk with rfl | hk
      · assumption
      · exact hk
    · exact hk
  | delete key => exact (Finmap.mem_erase.1 hk).2
  | clear => exact absurd hk Finmap.notMem_empty

/-- The nodes hold keys of `t` only, at the same indices. -/
def Shrinks (t t' : SQTable K V) : Prop := ∀ i k, t'.keyAt i = some k → t.keyAt i = some k

omit [DecidableEq K] in
theorem Shrinks.trans {t t' t'' : SQTable K V} (h : Shrinks t t') (h' : Shrinks t' t'') :
    Shrinks t t'' := fun i k hk => h i k (h' i k hk)

theorem set_cases (R : Represents o t m) (key : K) (val : V) :
    (∃ i, (set o t key val).map Prod.fst = some (t.setVal i val)) ∨
      (set o t key val).map Prod.fst = some t := by
  rcases getNode_cases R.wf key with ⟨i, -, hg⟩ | ⟨-, hg⟩
  · exact .inl ⟨i, by rw [set, hg]; rfl⟩
  · exact .inr (by rw [set, hg]; rfl)

omit [DecidableEq K] in
theorem keyAt_freedNode (o : ObjectOps K V) (t : SQTable K V) (i : Nat) :
    (freedNode o t i).keyAt = Function.update t.keyAt i none :=
  keyAt_setNode t i { t.nodes i with val := o.null, key := none }

/-- An operation that keeps the node array keeps keys at their nodes. -/
theorem shrinks_applyOp (R : Represents o t m) (depth : Nat) {op : LoopOp K V}
    (hop : ¬Reallocates o t op) {t' : SQTable K V}
    (he : applyOp o (depth + 2) t op.tableOp = some t') : Shrinks t t' := by
  -- the operations of the body that reallocate nothing store no new key
  cases op with
  | overwrite key val =>
    have he : (set o t key val).map Prod.fst = some t' := he
    rcases set_cases R key val with ⟨i, hs⟩ | hs
    · rw [hs] at he
      cases he
      intro j k hk
      rwa [keyAt_setVal] at hk
    · rw [hs] at he
      cases he
      exact fun j k hk => hk
  | delete key =>
    have he : remove o (depth + 2) t key = some t' := he
    rcases getNode_cases R.wf key with ⟨i, hi, hg⟩ | ⟨-, hg⟩
    · have hsize : rehashSize false (freedNode o t i) = none := by
        by_contra hne
        exact hop ⟨i, hi, hne⟩
      rw [remove_of_node hg, rehash_of_none hsize] at he
      cases he
      intro j k hk
      have hk : (freedNode o t i).keyAt j = some k := hk
      rw [keyAt_freedNode] at hk
      by_cases hj : j = i
      · rw [hj, Function.update_self] at hk
        cases hk
      · rwa [Function.update_of_ne hj] at hk
    · rw [remove, hg] at he
      cases he
      exact fun j k hk => hk
  | clear =>
    obtain ⟨t1, he1, R1⟩ := clear_represents R (depth + 1) true
    have he : clear o (depth + 2) t true = some t' := he
    rw [he1] at he
    cases he
    intro j k hk
    exact absurd (R1.stores.mem_iff.2 ⟨j, hk⟩) Finmap.notMem_empty

/-- An operation that deletes no key keeps the number of nodes. -/
theorem size_applyOp (R : Represents o t m) (depth : Nat) {op : LoopOp K V} {t' : SQTable K V}
    (he : applyOp o (depth + 2) t op.tableOp = some t') (hpos : 0 < m.keys.card)
    (hcard : (specOp m op.tableOp).keys.card = m.keys.card) : t'.size = t.size := by
  cases op with
  | overwrite key val =>
    have he : (set o t key val).map Prod.fst = some t' := he
    rcases set_cases R key val with ⟨i, hs⟩ | hs
    · rw [hs] at he
      cases he
      rfl
    · rw [hs] at he
      cases he
      rfl
  | delete key =>
    have he : remove o (depth + 2) t key = some t' := he
    rcases getNode_cases R.wf key with ⟨i, hi, -⟩ | ⟨-, hg⟩
    · have hmem : key ∈ m.keys := Finmap.mem_keys.2 (R.stores.mem_iff.2 ⟨i, hi⟩)
      have hcard : (m.erase key).keys.card = m.keys.card := hcard
      rw [Finmap.keys_erase, Finset.card_erase_of_mem hmem] at hcard
      omega
    · rw [remove, hg] at he
      cases he
      rfl
  | clear =>
    have hcard : (∅ : Finmap fun _ : K => V).keys.card = m.keys.card := hcard
    rw [Finmap.keys_empty, Finset.card_empty] at hcard
    omega

/-- What the body leaves: no new key; the same number of nodes if no key is deleted; the keys at their
nodes if no deletion takes another node array. -/
structure BodyLeaves (o : ObjectOps K V) (t : SQTable K V) (m : Finmap fun _ : K => V)
    (steps : List (SQTable K V × LoopOp K V)) (t' : SQTable K V) (m' : Finmap fun _ : K => V) :
    Prop where
  represents : Represents o t' m'
  card_le : m'.keys.card ≤ m.keys.card
  size_eq : 0 < m.keys.card → m'.keys.card = m.keys.card → t'.size = t.size
  shrinks : (∀ s ∈ steps, ¬Reallocates o s.1 s.2) → Shrinks t t'

theorem runBody_leaves (R : Represents o t m) (depth : Nat) (ops : List (LoopOp K V)) :
    ∃ steps t' m', runBody o (depth + 2) ops t = some (steps, t') ∧
      BodyLeaves o t m steps t' m' := by
  induction ops generalizing t m with
  | nil => exact ⟨[], t, m, rfl, R, Nat.le_refl _, fun _ _ => rfl, fun _ _ _ hk => hk⟩
  | cons op ops ih =>
    obtain ⟨t1, he, R1⟩ := applyOp_represents R depth op.tableOp
    obtain ⟨steps, t', m', hrun, L⟩ := ih R1
    have hle := Finset.card_le_card (keys_specOp_subset m op)
    refine ⟨(t, op) :: steps, t', m', by rw [runBody, he]; simp only [hrun, Option.map_some],
      L.represents, Nat.le_trans L.card_le hle, fun hpos hcard => ?_, fun hsteps => ?_⟩
    · have hle' := L.card_le
      have hsize := size_applyOp R depth he hpos (by omega)
      rw [L.size_eq (by omega) (by omega), hsize]
    · have hop := hsteps (t, op) List.mem_cons_self
      exact (shrinks_applyOp R depth hop he).trans
        (L.shrinks fun s hs => hsteps s (List.mem_cons_of_mem _ hs))

/-! ## The loop -/

/-- From node `idx` of `t` on, a run visits keys that are there, none twice, and every key that stays. -/
structure Visits (t : SQTable K V) (idx : Nat) (run : LoopRun K V) : Prop where
  ahead : ∀ k ∈ run.visited, ∃ i, idx ≤ i ∧ t.keyAt i = some k
  nodup : run.visited.Nodup
  complete : ∀ i k, idx ≤ i → run.table.keyAt i = some k → k ∈ run.visited
  shrinks : Shrinks t run.table

/-- The turn for the key in node `i`, the first from node `idx` on. -/
theorem visits_cons (R : Represents o t m) {idx i : Nat} {k : K} (hle : idx ≤ i)
    (hk : t.keyAt i = some k) (hfree : ∀ j, idx ≤ j → j < i → t.keyAt j = none)
    {t' : SQTable K V} (hshrinks : Shrinks t t') {steps : List (SQTable K V × LoopOp K V)}
    {run : LoopRun K V} (h : Visits t' (i + 1) run) :
    Visits t idx ⟨k :: run.visited, steps ++ run.steps, run.table⟩ where
  ahead := by
    intro k' hk'
    rcases List.mem_cons.1 hk' with rfl | hk'
    · exact ⟨i, hle, hk⟩
    · obtain ⟨j, hj, hkj⟩ := h.ahead k' hk'
      exact ⟨j, by omega, hshrinks j k' hkj⟩
  nodup := by
    refine List.nodup_cons.2 ⟨fun hmem => ?_, h.nodup⟩
    obtain ⟨j, hj, hkj⟩ := h.ahead k hmem
    have hji := R.wf.linked.key_inj (hshrinks j k hkj) hk
    omega
  complete := by
    intro j k' hj hkj
    have hkt : t.keyAt j = some k' := hshrinks j k' (h.shrinks j k' hkj)
    rcases Nat.lt_trichotomy j i with hlt | rfl | hgt
    · rw [hfree j hj hlt] at hkt
      cases hkt
    · rw [hk] at hkt
      cases hkt
      exact List.mem_cons_self
    · exact List.mem_cons_of_mem _ (h.complete j k' hgt hkj)
  shrinks := hshrinks.trans h.shrinks

theorem visits_end (R : Represents o t m) {idx : Nat} (h : next o t idx = none) :
    Visits t idx ⟨[], [], t⟩ where
  ahead := nofun
  nodup := List.nodup_nil
  complete := by
    intro i k hi hk
    rw [next_none R h i hi] at hk
    cases hk
  shrinks := fun _ _ hk => hk

/-- The loop ends: a turn deletes a key, or leaves fewer nodes in front of the iterator. -/
theorem foreachLoop_visits (depth : Nat) (body : Nat → List (LoopOp K V)) (R : Represents o t m)
    (turn idx : Nat) :
    ∃ fuel run, foreachLoop o (depth + 2) body fuel turn t idx = some run ∧
      (∃ m', Represents o run.table m') ∧
      ((∀ s ∈ run.steps, ¬Reallocates o s.1 s.2) → Visits t idx run) := by
  induction hc : m.keys.card using Nat.strong_induction_on generalizing t m turn idx with
  | _ c ihc =>
  induction hs : t.size - idx using Nat.strong_induction_on generalizing t m turn idx with
  | _ s ihs =>
  cases hn : next o t idx with
  | none =>
    refine ⟨1, ⟨[], [], t⟩, ?_, ⟨m, R⟩, fun _ => visits_end R hn⟩
    rw [foreachLoop, hn]
  | some r =>
    obtain ⟨idx', k, v⟩ := r
    obtain ⟨i, rfl, hle, hk, hfree⟩ := nextLoop_some hn
    obtain ⟨steps, t', m', hrun, L⟩ := runBody_leaves R depth (body turn)
    have hmem : k ∈ m.keys := Finmap.mem_keys.2 (R.stores.mem_iff.2 ⟨i, hk⟩)
    have hpos : 0 < m.keys.card := Finset.card_pos.2 ⟨k, hmem⟩
    have hi : i < t.size := Nat.lt_succ_of_le (R.wf.key_le hk)
    have hrest : ∃ fuel run, foreachLoop o (depth + 2) body fuel (turn + 1) t' (i + 1) = some run ∧
        (∃ m', Represents o run.table m') ∧
        ((∀ s ∈ run.steps, ¬Reallocates o s.1 s.2) → Visits t' (i + 1) run) := by
      rcases Nat.lt_or_eq_of_le L.card_le with hlt | heq
      · exact ihc _ (hc ▸ hlt) L.represents (turn + 1) (i + 1) rfl
      · have hsize := L.size_eq hpos heq
        exact ihs (t'.size - (i + 1)) (by omega) L.represents (turn + 1) (i + 1) (heq.trans hc) rfl
    obtain ⟨fuel, run, hloop, hrep, hvisits⟩ := hrest
    refine ⟨fuel + 1, ⟨k :: run.visited, steps ++ run.steps, run.table⟩, ?_, hrep, fun hsteps => ?_⟩
    · rw [foreachLoop, hn]
      dsimp only
      rw [hrun]
      dsimp only
      rw [hloop]
      rfl
    · have hbody := L.shrinks fun s hs => hsteps s (List.mem_append_left _ hs)
      exact visits_cons R hle hk hfree hbody
        (hvisits fun s hs => hsteps s (List.mem_append_right _ hs))

/-- Whatever operations built the table and whatever the body overwrites and deletes, the loop ends.
If no deletion takes another node array, it visits no key twice, and every key that is there in the
end (so from start to end) once. -/
theorem foreach_table (o : ObjectOps K V) (depth : Nat) (nInitialSize : Int)
    (ops : List (TableOp K V)) (body : Nat → List (LoopOp K V)) :
    ∃ t fuel run, runOps o (depth + 2) nInitialSize ops = some t ∧
      foreachLoop o (depth + 2) body fuel 0 t 0 = some run ∧
      ((∀ s ∈ run.steps, ¬Reallocates o s.1 s.2) →
        run.visited.Nodup ∧
          ∀ k v, get o run.table k = some (some v) → run.visited.count k = 1) := by
  obtain ⟨t, he, R⟩ := runOps_represents (o := o) depth nInitialSize ops
  obtain ⟨fuel, run, hloop, ⟨m', R'⟩, hvisits⟩ := foreachLoop_visits depth body R 0 0
  refine ⟨t, fuel, run, he, hloop, fun hsteps => ?_⟩
  have hv := hvisits hsteps
  refine ⟨hv.nodup, fun k v hget => ?_⟩
  rw [get_eq_lookup R'] at hget
  have hmem : k ∈ m' := by
    by_contra hk
    rw [Finmap.lookup_eq_none.2 hk] at hget
    cases hget
  obtain ⟨i, hi⟩ := R'.stores.mem_iff.1 hmem
  exact List.count_eq_one_of_mem hv.nodup (hv.complete i k (Nat.zero_le i) hi)

/-! ## A deletion that halves the array -/

/-- Integer keys, which are their own hashes. -/
def integerKeys : ObjectOps Nat Nat where
  hashObj := id
  stringAddr _ := none
  null := 0
  realval := id

/-- In an array of eight nodes with the keys 3 and 4, the body of the first turn deletes 3: in the new
array of four nodes the key 4 is in front of the iterator. -/
theorem foreach_misses_key :
    ((runOps integerKeys 2 8 [.newSlot 3 0, .newSlot 4 0]).bind fun t =>
      (foreachLoop integerKeys 2 (fun _ => [.delete 3]) 2 0 t 0).map fun run =>
        (run.visited, get integerKeys run.table 4)) = some ([3], some (some 0)) := by
  decide

end Quirrel.Table
