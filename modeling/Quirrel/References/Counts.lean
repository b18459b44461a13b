import Mathlib.Data.Finset.Card
import Mathlib.Data.Finset.Range
import Quirrel.References.RefTable

/-!
# `RefTable` counts

`Counts` is the invariant of the table for the counts `c`: the chain of every bucket lists the nodes
whose object belongs there, the free list lists the nodes without one, and the node of an object has
its count. `Add`, `Resize`, `AddRef` and `Release` keep it (`Counts.add`, `Counts.resize`,
`Counts.addRef`, `Counts.release`). Main theorem `refTable_counts`, about every run. Nothing about the
hash is used but that it is a function of the object.
-/

set_option autoImplicit false

namespace Quirrel.References

open Quirrel.Lib RefTable

universe u

variable {K : Type u} (hash : K → Nat)

namespace RefTable

/-- The object of node `p` belongs to bucket `h`. -/
def InBucket (t : RefTable K) (h p : Nat) : Prop :=
  p < t.numofslots ∧ ∃ k, t.objAt p = some k ∧ t.mainpos hash k = h

/-- The nodes that hold an object. -/
def occupied (t : RefTable K) : Finset Nat :=
  (Finset.range t.numofslots).filter fun p => (t.objAt p).isSome

/-- The table holds the objects `k` with `0 < c k`, and `c k` is the count of `k`. -/
structure Counts (t : RefTable K) (c : K → Nat) : Prop where
  chains : ∀ h < t.numofslots, ∃ l, Chain t.nextAt (t.buckets h) l ∧ ∀ p, p ∈ l ↔ t.InBucket hash h p
  free : ∃ l, Chain t.nextAt t.freelist l ∧ ∀ p, p ∈ l ↔ p < t.numofslots ∧ t.objAt p = none
  count : ∀ {p k}, p < t.numofslots → t.objAt p = some k → (t.nodes p).refs = c k ∧ 0 < c k
  freeRefs : ∀ {p}, p < t.numofslots → t.objAt p = none → (t.nodes p).refs = 0
  inj : ∀ {p q k}, p < t.numofslots → q < t.numofslots → t.objAt p = some k → t.objAt q = some k →
    p = q
  present : ∀ {k}, 0 < c k → ∃ p < t.numofslots, t.objAt p = some k
  used : t.occupied.card = t.slotused
  pos : 0 < t.numofslots

variable {t : RefTable K} {c : K → Nat} {hash}

/-! ## The parts of the state -/

theorem mainpos_lt (hpos : 0 < t.numofslots) (k : K) : t.mainpos hash k < t.numofslots := by
  have hle : t.mainpos hash k ≤ t.numofslots - 1 := Nat.and_le_right
  omega

theorem mem_occupied {p : Nat} : p ∈ t.occupied ↔ p < t.numofslots ∧ (t.objAt p).isSome := by
  rw [occupied, Finset.mem_filter, Finset.mem_range]

theorem nextAt_setNode (p : Nat) (n : RefNode K) :
    (t.setNode p n).nextAt = Function.update t.nextAt p n.next := by
  funext q
  by_cases hq : q = p
  · subst hq
    simp [nextAt, setNode]
  · simp [nextAt, setNode, hq]

theorem objAt_setNode (p : Nat) (n : RefNode K) :
    (t.setNode p n).objAt = Function.update t.objAt p n.obj := by
  funext q
  by_cases hq : q = p
  · subst hq
    simp [objAt, setNode]
  · simp [objAt, setNode, hq]

theorem objAt_setRefs (p refs : Nat) : (t.setRefs p refs).objAt = t.objAt := by
  rw [setRefs, objAt_setNode]
  exact Function.update_eq_self p t.objAt

theorem nextAt_setRefs (p refs : Nat) : (t.setRefs p refs).nextAt = t.nextAt := by
  rw [setRefs, nextAt_setNode]
  exact Function.update_eq_self p t.nextAt

theorem refs_setRefs (p refs q : Nat) :
    ((t.setRefs p refs).nodes q).refs = if q = p then refs else (t.nodes q).refs := by
  by_cases hq : q = p
  · subst hq
    simp [setRefs, setNode]
  · simp [setRefs, setNode, hq]

/-- A chain of nodes of the table is not longer than the node array. -/
theorem length_le_numofslots {head : Option Nat} {l : List Nat} (hc : Chain t.nextAt head l)
    (hl : ∀ p ∈ l, p < t.numofslots) : l.length ≤ t.numofslots := by
  have hsub : l.toFinset ⊆ Finset.range t.numofslots :=
    fun p hp => Finset.mem_range.mpr (hl p (List.mem_toFinset.mp hp))
  calc l.length = l.toFinset.card := (List.toFinset_card_of_nodup hc.nodup).symm
    _ ≤ (Finset.range t.numofslots).card := Finset.card_le_card hsub
    _ = t.numofslots := Finset.card_range _

namespace Counts

/-- A node with another count for its object. -/
theorem setRefs [DecidableEq K] (I : Counts hash t c) {p : Nat} {k : K} (hp : p < t.numofslots)
    (hk : t.objAt p = some k) {r : Nat} (hr : 0 < r) :
    Counts hash (t.setRefs p r) (Function.update c k r) := by
  have hobj := objAt_setRefs (t := t) p r
  constructor
  case chains =>
    intro h hh
    obtain ⟨l, hc, hl⟩ := I.chains h hh
    refine ⟨l, ?_, fun q => ?_⟩
    · rw [nextAt_setRefs]
      exact hc
    · rw [hl q, InBucket, InBucket, hobj]
      rfl
  case free =>
    rw [nextAt_setRefs, hobj]
    exact I.free
  case count =>
    intro q k' hq hk'
    rw [hobj] at hk'
    rw [refs_setRefs]
    -- the slot whose count is written, and the others
    by_cases hqp : q = p
    · obtain rfl : k' = k := Option.some.inj (hk'.symm.trans (hqp ▸ hk))
      rw [if_pos hqp, Function.update_self]
      exact ⟨rfl, hr⟩
    · have hne : k' ≠ k := fun he => hqp (I.inj hq hp hk' (he ▸ hk))
      rw [if_neg hqp, Function.update_of_ne hne]
      exact I.count hq hk'
  case freeRefs =>
    intro q hq hfree
    rw [hobj] at hfree
    have hqp : q ≠ p := by
      rintro rfl
      rw [hk] at hfree
      cases hfree
    rw [refs_setRefs, if_neg hqp]
    exact I.freeRefs hq hfree
  case inj =>
    intro q q' k' hq hq' hk' hk''
    rw [hobj] at hk' hk''
    exact I.inj hq hq' hk' hk''
  case present =>
    intro k' hk'
    rw [hobj]
    by_cases hne : k' = k
    · exact ⟨p, hp, hne ▸ hk⟩
    · rw [Function.update_of_ne hne] at hk'
      exact I.present hk'
  case used =>
    have hocc : (t.setRefs p r).occupied = t.occupied := by
      rw [occupied, occupied, hobj]
      rfl
    rw [hocc]
    exact I.used
  case pos => exact I.pos

/-! ### A new object -/

/-- A node of the free list when not all nodes are in use. -/
theorem freelist_isSome (I : Counts hash t c) (hused : t.slotused < t.numofslots) :
    ∃ p, t.freelist = some p := by
  obtain ⟨l, hc, hl⟩ := I.free
  cases hhead : t.freelist with
  | some p => exact ⟨p, rfl⟩
  | none =>
    rw [hhead] at hc
    cases hc
    -- every node holds an object
    have hfull : t.occupied = Finset.range t.numofslots := by
      refine Finset.filter_true_of_mem fun p hp => ?_
      rw [Option.isSome_iff_ne_none]
      exact fun hnone => absurd ((hl p).mpr ⟨Finset.mem_range.mp hp, hnone⟩) List.not_mem_nil
    have hcard := I.used
    rw [hfull, Finset.card_range] at hcard
    exact absurd hcard (Nat.ne_of_gt hused)

variable [DecidableEq K]

/-- `Add` of an object that is not in the table, with its count. -/
theorem add (I : Counts hash t c) {k : K} (hk : c k = 0) (hused : t.slotused < t.numofslots)
    {r : Nat} (hr : 0 < r) :
    ∃ t' p, t.add (t.mainpos hash k) k = some (t', p) ∧ (t'.nodes p).refs = 0 ∧
      t'.numofslots = t.numofslots ∧ t'.slotused = t.slotused + 1 ∧
      Counts hash (t'.setRefs p r) (Function.update c k r) := by
  -- The first free node gets the object; the rest of the free list stays a chain.
  obtain ⟨p, hfree⟩ := I.freelist_isSome hused
  obtain ⟨free, hcf, hlf⟩ := I.free
  rw [hfree] at hcf
  obtain ⟨rest, rfl⟩ : ∃ rest, free = p :: rest := by
    cases hcf with
    | @cons _ rest _ => exact ⟨rest, rfl⟩
  obtain ⟨hp, hobj⟩ := (hlf p).mp List.mem_cons_self
  have hrest : p ∉ rest := (List.nodup_cons.mp hcf.nodup).1
  -- No node holds the object: its count would be positive.
  have habsent : ∀ {q}, q < t.numofslots → t.objAt q ≠ some k := fun hq he => by
    have := (I.count hq he).2
    omega
  have hne : ∀ {q}, t.objAt q ≠ none → q ≠ p := by
    rintro q hq rfl
    exact hq hobj
  let t' : RefTable K :=
    { t.setNode p { t.nodes p with obj := some k, next := t.buckets (t.mainpos hash k) } with
      buckets := Function.update t.buckets (t.mainpos hash k) (some p)
      freelist := t.nextAt p
      slotused := t.slotused + 1 }
  have hadd : t.add (t.mainpos hash k) k = some (t', p) := by
    unfold RefTable.add
    rw [hfree]
  have hrefs : (t'.nodes p).refs = 0 :=
    (congrArg RefNode.refs (Function.update_self p _ t.nodes)).trans (I.freeRefs hp hobj)
  have hnext : t'.nextAt = Function.update t.nextAt p (t.buckets (t.mainpos hash k)) :=
    nextAt_setNode p _
  have hobj' : t'.objAt = Function.update t.objAt p (some k) := objAt_setNode p _
  refine ⟨t', p, hadd, hrefs, rfl, rfl, ?_⟩
  constructor
  case chains =>
    -- Only the bucket of the object changes: the new node stands in front of its chain.
    intro h hh
    obtain ⟨l, hc, hl⟩ := I.chains h hh
    have hpl : p ∉ l := fun hmem => by
      obtain ⟨-, k', hk', -⟩ := (hl p).mp hmem
      rw [hobj] at hk'
      cases hk'
    have hmem (q : Nat) : (t'.setRefs p r).InBucket hash h q ↔
        (q = p ∧ t.mainpos hash k = h) ∨ t.InBucket hash h q := by
      rw [InBucket, objAt_setRefs, hobj']
      by_cases hqp : q = p
      · subst hqp
        rw [Function.update_self]
        constructor
        · rintro ⟨-, k', hk', hpos⟩
          cases hk'
          exact .inl ⟨rfl, hpos⟩
        · rintro (⟨-, hpos⟩ | hin)
          · exact ⟨hp, k, rfl, hpos⟩
          · exact absurd ((hl q).mpr hin) hpl
      · rw [Function.update_of_ne hqp]
        exact ⟨.inr, fun h => h.resolve_left fun h => hqp h.1⟩
    rw [nextAt_setRefs, hnext]
    by_cases hpos : t.mainpos hash k = h
    · subst hpos
      refine ⟨p :: l, ?_, fun q => ?_⟩
      · rw [show (t'.setRefs p r).buckets (t.mainpos hash k) = some p from Function.update_self ..]
        exact hc.push hpl
      · rw [hmem, List.mem_cons, hl q, and_iff_left rfl]
    · refine ⟨l, ?_, fun q => ?_⟩
      · rw [show (t'.setRefs p r).buckets h = t.buckets h from
          Function.update_of_ne (Ne.symm hpos) ..]
        exact hc.update_of_notMem hpl _
      · rw [hmem, hl q, or_iff_right fun h => hpos h.2]
  case free =>
    -- The free list without its first node.
    refine ⟨rest, ?_, fun q => ?_⟩
    · rw [nextAt_setRefs, hnext]
      exact (Chain.cons_iff.mp hcf).update_of_notMem hrest _
    · rw [objAt_setRefs, hobj']
      by_cases hqp : q = p
      · subst hqp
        rw [Function.update_self]
        exact iff_of_false hrest fun h => nomatch h.2
      · rw [Function.update_of_ne hqp]
        have hcons : q ∈ rest ↔ q ∈ p :: rest :=
          ⟨List.mem_cons_of_mem p, fun h => (List.mem_cons.mp h).resolve_left hqp⟩
        exact hcons.trans (hlf q)
  case count =>
    intro q k' hq hk'
    -- The new node has the count that is set; the others keep theirs.
    rw [objAt_setRefs, hobj'] at hk'
    rw [refs_setRefs]
    by_cases hqp : q = p
    · subst hqp
      rw [Function.update_self] at hk'
      cases hk'
      rw [if_pos rfl, Function.update_self]
      exact ⟨rfl, hr⟩
    · rw [Function.update_of_ne hqp] at hk'
      have hkk : k' ≠ k := by
        rintro rfl
        exact habsent hq hk'
      rw [if_neg hqp, Function.update_of_ne hkk,
        show (t'.nodes q).refs = (t.nodes q).refs from
          congrArg RefNode.refs (Function.update_of_ne hqp ..)]
      exact I.count hq hk'
  case freeRefs =>
    intro q hq hnone
    rw [objAt_setRefs, hobj'] at hnone
    have hqp : q ≠ p := by
      rintro rfl
      rw [Function.update_self] at hnone
      cases hnone
    rw [Function.update_of_ne hqp] at hnone
    rw [refs_setRefs, if_neg hqp, show (t'.nodes q).refs = (t.nodes q).refs from
      congrArg RefNode.refs (Function.update_of_ne hqp ..)]
    exact I.freeRefs hq hnone
  case inj =>
    intro q q' k' hq hq' hk' hk''
    -- The object is in the new node and in no other.
    rw [objAt_setRefs, hobj'] at hk' hk''
    by_cases hqp : q = p <;> by_cases hqp' : q' = p
    · rw [hqp, hqp']
    · subst hqp
      rw [Function.update_self] at hk'
      rw [Function.update_of_ne hqp'] at hk''
      cases hk'
      exact absurd hk'' (habsent hq')
    · subst hqp'
      rw [Function.update_of_ne hqp] at hk'
      rw [Function.update_self] at hk''
      cases hk''
      exact absurd hk' (habsent hq)
    · rw [Function.update_of_ne hqp] at hk'
      rw [Function.update_of_ne hqp'] at hk''
      exact I.inj hq hq' hk' hk''
  case present =>
    intro k' hk'
    -- The object is found in the new node, every other where it was.
    rw [objAt_setRefs, hobj']
    by_cases hkk : k' = k
    · subst hkk
      exact ⟨p, hp, Function.update_self ..⟩
    · rw [Function.update_of_ne hkk] at hk'
      obtain ⟨q, hq, hq'⟩ := I.present hk'
      refine ⟨q, hq, ?_⟩
      rw [Function.update_of_ne (hne (by rw [hq']; exact Option.some_ne_none k'))]
      exact hq'
  case used =>
    -- One node more is occupied.
    have hocc : (t'.setRefs p r).occupied = insert p t.occupied := by
      ext q
      rw [Finset.mem_insert, mem_occupied, mem_occupied, objAt_setRefs, hobj']
      by_cases hqp : q = p
      · subst hqp
        rw [Function.update_self]
        exact iff_of_true ⟨hp, rfl⟩ (.inl rfl)
      · rw [Function.update_of_ne hqp, or_iff_right hqp]
        exact Iff.rfl
    have hnot : p ∉ t.occupied := by
      rw [mem_occupied, hobj]
      exact fun h => nomatch h.2
    rw [hocc, Finset.card_insert_of_notMem hnot, I.used]
    rfl
  case pos => exact I.pos

/-! ### Growth -/

omit [DecidableEq K] in
theorem chain_allocNodes (size : Nat) {m k : Nat} (hm : 0 < m) (hk : k + m = size) :
    Chain (allocNodes (K := K) size).nextAt (some k) (List.range' k m) := by
  induction m generalizing k with
  | zero => exact absurd hm (Nat.lt_irrefl 0)
  | succ m ih =>
    rw [List.range'_succ]
    refine .cons ?_
    show Chain _ (if k + 1 < size then some (k + 1) else none) _
    by_cases hlast : m = 0
    · subst hlast
      rw [if_neg (by omega)]
      exact .nil
    · rw [if_pos (by omega)]
      exact ih (Nat.pos_of_ne_zero hlast) (by omega)

omit [DecidableEq K] in
/-- The empty table. -/
theorem allocNodes {size : Nat} (hsize : 0 < size) :
    Counts hash (allocNodes size) (fun _ => 0) := by
  constructor
  case chains =>
    intro h _
    refine ⟨[], .nil, fun p => iff_of_false List.not_mem_nil ?_⟩
    rintro ⟨-, k, hk, -⟩
    cases hk
  case free =>
    refine ⟨List.range' 0 size, chain_allocNodes size hsize (Nat.zero_add size), fun p => ?_⟩
    rw [List.mem_range'_1]
    exact ⟨fun h => ⟨by show p < size; omega, rfl⟩, fun h => ⟨Nat.zero_le p, by
      have : p < size := h.1
      omega⟩⟩
  case count =>
    intro p k _ hk
    cases hk
  case freeRefs => exact fun _ _ => rfl
  case inj =>
    intro p q k _ _ hk
    cases hk
  case present => exact fun hk => absurd hk (Nat.lt_irrefl 0)
  case used =>
    have hempty : (RefTable.allocNodes (K := K) size).occupied = ∅ :=
      Finset.filter_false_of_mem fun _ _ h => nomatch h
    rw [hempty]
    rfl
  case pos => exact hsize

/-- What the loop of `Resize` has added back from the first `n` nodes. -/
theorem addBack_range (I : Counts hash t c) {size : Nat} (hpos : 0 < size)
    (hsize : t.slotused ≤ size) {n : Nat} (hn : n ≤ t.numofslots) :
    ∃ nt cn, (List.range n).foldlM (addBack hash t) (RefTable.allocNodes size) = some nt ∧
      Counts hash nt cn ∧ nt.numofslots = size ∧
      nt.slotused = (t.occupied.filter (· < n)).card ∧
      (∀ p k, p < n → t.objAt p = some k → cn k = c k) ∧
      ∀ k, (∀ p < n, t.objAt p ≠ some k) → cn k = 0 := by
  induction n with
  | zero =>
    refine ⟨_, _, rfl, .allocNodes hpos, rfl, ?_, fun p _ hp => absurd hp (Nat.not_lt_zero p),
      fun _ _ => rfl⟩
    rw [Finset.filter_false_of_mem fun p _ => Nat.not_lt_zero p]
    rfl
  | succ n ih =>
    -- By induction on the nodes that are added again; the counts of the others are still zero.
    obtain ⟨nt, cn, hfold, J, hsz, hused, hcn, hzero⟩ := ih (Nat.le_of_succ_le hn)
    have hstep : (List.range (n + 1)).foldlM (addBack hash t) (RefTable.allocNodes size) =
        addBack hash t nt n := by
      rw [List.range_succ, List.foldlM_append, hfold]
      show (addBack hash t nt n).bind some = _
      cases addBack hash t nt n <;> rfl
    rw [hstep]
    cases hobj : t.objAt n with
    | none =>
      -- A free node adds nothing.
      refine ⟨nt, cn, by rw [addBack, hobj], J, hsz, ?_, fun p k hp hk => ?_, fun k hk => ?_⟩
      · rw [hused]
        refine congrArg Finset.card (Finset.filter_congr fun p hp => ?_)
        have hne : p ≠ n := by
          rintro rfl
          have hsome := (mem_occupied.mp hp).2
          rw [hobj] at hsome
          cases hsome
        omega
      · have hne : p ≠ n := by
          rintro rfl
          rw [hobj] at hk
          cases hk
        exact hcn p k (by omega) hk
      · exact hzero k fun p hp => hk p (Nat.lt_succ_of_lt hp)
    | some k =>
      -- An occupied node adds its object, which has not been added before.
      have hin : n ∈ t.occupied := mem_occupied.mpr ⟨hn, by rw [hobj]; rfl⟩
      have hfilter : t.occupied.filter (· < n + 1) = insert n (t.occupied.filter (· < n)) := by
        ext p
        rw [Finset.mem_insert, Finset.mem_filter, Finset.mem_filter]
        by_cases hpn : p = n
        · subst hpn
          exact iff_of_true ⟨hin, Nat.lt_succ_self p⟩ (.inl rfl)
        · rw [or_iff_right hpn]
          exact and_congr_right fun _ => by omega
      have hnotin : n ∉ t.occupied.filter (· < n) :=
        fun h => Nat.lt_irrefl n (Finset.mem_filter.mp h).2
      have hcard : (t.occupied.filter (· < n + 1)).card = (t.occupied.filter (· < n)).card + 1 := by
        rw [hfilter, Finset.card_insert_of_notMem hnotin]
      -- There is room, as no more nodes are occupied than in the old table.
      have hlt : nt.slotused < nt.numofslots := by
        have hle := Finset.card_le_card (Finset.filter_subset (· < n + 1) t.occupied)
        rw [hcard, I.used] at hle
        omega
      have hnew : cn k = 0 := hzero k fun p hp hk =>
        absurd (I.inj (Nat.lt_of_lt_of_le hp (Nat.le_of_succ_le hn)) hn hk hobj) (Nat.ne_of_lt hp)
      obtain ⟨hrefs, hck⟩ := I.count hn hobj
      obtain ⟨nt', p', hadd, -, hsz', hused', J'⟩ := J.add hnew hlt hck
      refine ⟨nt'.setRefs p' (c k), _, ?_, J', hsz'.trans hsz, ?_, fun p k' hp hk' => ?_,
        fun k' hk' => ?_⟩
      · rw [addBack, hobj]
        show (nt.add (nt.mainpos hash k) k).map _ = _
        rw [hadd, hrefs]
        rfl
      · rw [hcard, ← hused]
        exact hused'
      · by_cases hkk : k' = k
        · rw [hkk, Function.update_self]
        · have hpn : p ≠ n := by
            rintro rfl
            rw [hobj] at hk'
            exact hkk (Option.some.inj hk').symm
          rw [Function.update_of_ne hkk]
          exact hcn p k' (by omega) hk'
      · have hkk : k' ≠ k := by
          rintro rfl
          exact hk' n (Nat.lt_succ_self n) hobj
        rw [Function.update_of_ne hkk]
        exact hzero k' fun p hp => hk' p (Nat.lt_succ_of_lt hp)

/-- `Resize` to a size that has room for all objects keeps every count. -/
theorem resize (I : Counts hash t c) {size : Nat} (hpos : 0 < size) (hsize : t.slotused ≤ size) :
    ∃ t', t.resize hash size = some t' ∧ Counts hash t' c ∧ t'.numofslots = size ∧
      t'.slotused = t.slotused := by
  obtain ⟨t', cn, hfold, J, hsz, hused, hcn, hzero⟩ := I.addBack_range hpos hsize (Nat.le_refl _)
  have hc : cn = c := by
    funext k
    by_cases hk : 0 < c k
    · obtain ⟨p, hp, hobj⟩ := I.present hk
      exact hcn p k hp hobj
    · rw [hzero k fun p hp hobj => hk (I.count hp hobj).2]
      omega
  refine ⟨t', hfold, hc ▸ J, hsz, ?_⟩
  rw [hused, ← I.used]
  exact congrArg Finset.card (Finset.filter_true_of_mem fun p hp => (mem_occupied.mp hp).1)

/-! ### Lookups -/

/-- The loop of `Get` through a chain. -/
theorem findLoop_chain (k : K) {head : Option Nat} {l : List Nat} (hc : Chain t.nextAt head l)
    {fuel : Nat} (hfuel : l.length ≤ fuel) (prev : Option Nat) :
    (∃ before p after, l = before ++ p :: after ∧ t.objAt p = some k ∧
        t.findLoop k fuel head prev = some (some p, before.getLast?.or prev)) ∨
      ((∀ p ∈ l, t.objAt p ≠ some k) ∧ ∃ prev', t.findLoop k fuel head prev = some (none, prev')) := by
  induction hc generalizing fuel prev with
  | nil =>
    refine .inr ⟨fun p hp => absurd hp List.not_mem_nil, prev, ?_⟩
    cases fuel <;> rfl
  | @cons p l hc ih =>
    cases fuel with
    | zero => exact absurd hfuel (Nat.not_succ_le_zero _)
    | succ fuel =>
      rw [findLoop]
      by_cases hk : t.objAt p = some k
      · rw [if_pos hk]
        exact .inl ⟨[], p, l, rfl, hk, rfl⟩
      · rw [if_neg hk]
        rcases ih (Nat.le_of_succ_le_succ hfuel) (some p) with ⟨before, q, after, rfl, hq, he⟩ |
          ⟨hnone, he⟩
        · refine .inl ⟨p :: before, q, after, rfl, hq, ?_⟩
          rw [he]
          cases before with
          | nil => rfl
          | cons b before =>
            rw [List.getLast?_cons_cons, List.getLast?_eq_some_getLast (List.cons_ne_nil b before)]
            rfl
        · refine .inr ⟨fun q hq => ?_, he⟩
          rcases List.mem_cons.mp hq with rfl | hq
          · exact hk
          · exact hnone q hq

/-- A lookup ends. It finds the node of the object, with the one before it in its chain, or the count
is zero. -/
theorem find_cases (I : Counts hash t c) (k : K) :
    (∃ before p after, Chain t.nextAt (t.buckets (t.mainpos hash k)) (before ++ p :: after) ∧
        (∀ q, q ∈ before ++ p :: after ↔ t.InBucket hash (t.mainpos hash k) q) ∧
        t.objAt p = some k ∧ t.find hash k = some (some p, before.getLast?)) ∨
      (c k = 0 ∧ ∃ prev, t.find hash k = some (none, prev)) := by
  obtain ⟨l, hc, hl⟩ := I.chains _ (mainpos_lt I.pos k)
  have hlen := length_le_numofslots hc fun p hp => ((hl p).mp hp).1
  rcases findLoop_chain k hc hlen none with ⟨before, p, after, rfl, hp, he⟩ | ⟨hnone, prev, he⟩
  · refine .inl ⟨before, p, after, hc, hl, hp, ?_⟩
    rw [find, he, Option.or_none]
  · refine .inr ⟨Nat.eq_zero_of_not_pos fun hpos => ?_, prev, he⟩
    obtain ⟨p, hp, hobj⟩ := I.present hpos
    exact hnone p ((hl p).mpr ⟨hp, k, hobj, rfl⟩) hobj

/-- `GetRefCount` is the count. -/
theorem getRefCount (I : Counts hash t c) (k : K) : t.getRefCount hash k = some (c k) := by
  rw [RefTable.getRefCount]
  rcases I.find_cases k with ⟨before, p, after, -, hl, hp, he⟩ | ⟨hzero, prev, he⟩
  · have hin := (hl p).mp (List.mem_append_right before List.mem_cons_self)
    rw [he]
    exact congrArg some (I.count hin.1 hp).1
  · rw [he, hzero]
    rfl

/-- `AddRef` -/
theorem addRef (I : Counts hash t c) (k : K) :
    ∃ t', t.addRef hash k = some t' ∧ Counts hash t' (Function.update c k (c k + 1)) := by
  rcases I.find_cases k with ⟨before, p, after, -, hl, hp, he⟩ | ⟨hzero, prev, he⟩
  · have hin := (hl p).mp (List.mem_append_right before List.mem_cons_self)
    refine ⟨t.setRefs p ((t.nodes p).refs + 1), ?_, ?_⟩
    · rw [RefTable.addRef, getOrAdd, he]
      rfl
    · rw [(I.count hin.1 hp).1]
      exact I.setRefs hin.1 hp (Nat.succ_pos _)
  · rw [hzero]
    by_cases hfull : t.numofslots = t.slotused
    · -- every node is in use, the table doubles
      obtain ⟨t₁, hresize, J, hsz, hused⟩ := I.resize (Nat.mul_pos I.pos Nat.two_pos)
        (show t.slotused ≤ t.numofslots * 2 by omega)
      have hpos := I.pos
      obtain ⟨t', p, hadd, hrefs, -, -, J'⟩ := J.add hzero (by omega) (r := 1) Nat.one_pos
      refine ⟨t'.setRefs p 1, ?_, J'⟩
      rw [RefTable.addRef, getOrAdd, he]
      simp only [if_pos hfull, hresize, Option.bind_some, hadd, Option.map_some, hrefs]
    · have hle : t.slotused ≤ t.numofslots := by
        rw [← I.used]
        exact (Finset.card_filter_le _ _).trans (Finset.card_range _).le
      obtain ⟨t', p, hadd, hrefs, -, -, J'⟩ := I.add hzero (by omega) (r := 1) Nat.one_pos
      refine ⟨t'.setRefs p 1, ?_, J'⟩
      rw [RefTable.addRef, getOrAdd, he]
      simp only [if_neg hfull, hadd, Option.map_some, hrefs]

/-! ### The last reference -/

omit [DecidableEq K] in
/-- The first half of `unlink` takes the node out of its chain and changes nothing else. -/
theorem exists_detached {h p : Nat} {before after : List Nat}
    (hc : Chain t.nextAt (t.buckets h) (before ++ p :: after)) :
    ∃ t₁ : RefTable K, t.unlink h p before.getLast? =
        { t₁.setNode p ⟨none, 0, t.freelist⟩ with freelist := some p, slotused := t.slotused - 1 } ∧
      t₁.numofslots = t.numofslots ∧ t₁.objAt = t.objAt ∧
      (∀ q, (t₁.nodes q).refs = (t.nodes q).refs) ∧
      (∀ q ∉ before, t₁.nextAt q = t.nextAt q) ∧ (∀ h' ≠ h, t₁.buckets h' = t.buckets h') ∧
      Chain t₁.nextAt (t₁.buckets h) (before ++ after) := by
  rcases List.eq_nil_or_concat before with rfl | ⟨before, prev, rfl⟩
  · refine ⟨{ t with buckets := Function.update t.buckets h (t.nextAt p) }, rfl, rfl, rfl,
      fun _ => rfl, fun _ _ => rfl, fun h' hh' => Function.update_of_ne hh' .., ?_⟩
    rw [show ({ t with buckets := Function.update t.buckets h (t.nextAt p) } : RefTable K).buckets h
      = t.nextAt p from Function.update_self ..]
    have hhead := hc.head_eq
    rw [List.nil_append] at hc hhead
    rw [hhead] at hc
    exact Chain.cons_iff.mp hc
  · refine ⟨t.setNode prev { t.nodes prev with next := t.nextAt p }, ?_, rfl, ?_, fun q => ?_,
      fun q hq => ?_, fun _ _ => rfl, ?_⟩
    · rw [List.concat_eq_append, List.getLast?_append, List.getLast?_singleton]
      rfl
    · rw [objAt_setNode]
      exact Function.update_eq_self prev t.objAt
    · show (Function.update t.nodes prev _ q).refs = _
      by_cases hq : q = prev
      · rw [hq, Function.update_self]
      · rw [Function.update_of_ne hq]
    · rw [nextAt_setNode]
      refine Function.update_of_ne ?_ ..
      rintro rfl
      exact hq (by rw [List.concat_eq_append]; exact List.mem_append_right _ (List.mem_singleton_self q))
    · rw [nextAt_setNode]
      rw [List.concat_eq_append, List.append_assoc] at hc ⊢
      exact hc.unlink

/-- An object that loses its last reference. -/
theorem unlink (I : Counts hash t c) {k : K} {p : Nat} {before after : List Nat}
    (hc : Chain t.nextAt (t.buckets (t.mainpos hash k)) (before ++ p :: after))
    (hl : ∀ q, q ∈ before ++ p :: after ↔ t.InBucket hash (t.mainpos hash k) q)
    (hobj : t.objAt p = some k) :
    Counts hash (t.unlink (t.mainpos hash k) p before.getLast?) (Function.update c k 0) := by
  obtain ⟨t₁, heq, hsz, hobj₁, hrefs₁, hnext₁, hbuckets₁, hchain₁⟩ := exists_detached hc
  have hpl : p ∈ before ++ p :: after := List.mem_append_right before List.mem_cons_self
  have hp : p < t.numofslots := ((hl p).mp hpl).1
  have hnodup := hc.nodup
  have hpnot : p ∉ before ++ after := (List.nodup_middle.mp hnodup |> List.nodup_cons.mp).1
  let t' := t.unlink (t.mainpos hash k) p before.getLast?
  have hnum : t'.numofslots = t.numofslots := by
    show (t.unlink _ _ _).numofslots = _
    rw [heq]
    exact hsz
  have hnext' : t'.nextAt = Function.update t₁.nextAt p t.freelist := by
    show (t.unlink _ _ _).nextAt = _
    rw [heq]
    exact nextAt_setNode p _
  have hobj' : t'.objAt = Function.update t.objAt p none := by
    show (t.unlink _ _ _).objAt = _
    rw [heq, ← hobj₁]
    exact objAt_setNode p _
  have hbuckets' : t'.buckets = t₁.buckets := by
    show (t.unlink _ _ _).buckets = _
    rw [heq]
    rfl
  have hrefs' (q : Nat) : (t'.nodes q).refs = if q = p then 0 else (t.nodes q).refs := by
    show ((t.unlink _ _ _).nodes q).refs = _
    rw [heq]
    show (Function.update t₁.nodes p _ q).refs = _
    by_cases hq : q = p
    · rw [if_pos hq, hq, Function.update_self]
    · rw [if_neg hq, Function.update_of_ne hq, hrefs₁ q]
  have hne {q : Nat} {k' : K} (hk' : t'.objAt q = some k') : q ≠ p ∧ t.objAt q = some k' := by
    rw [hobj'] at hk'
    have hqp : q ≠ p := by
      rintro rfl
      rw [Function.update_self] at hk'
      cases hk'
    rw [Function.update_of_ne hqp] at hk'
    exact ⟨hqp, hk'⟩
  have hmem (h q : Nat) : t'.InBucket hash h q ↔ q ≠ p ∧ t.InBucket hash h q := by
    have hpos (k' : K) : t'.mainpos hash k' = t.mainpos hash k' := by
      rw [mainpos, mainpos, hnum]
    constructor
    · rintro ⟨hq, k', hk', hh⟩
      rw [hnum] at hq
      obtain ⟨hqp, hk'⟩ := hne hk'
      exact ⟨hqp, hq, k', hk', (hpos k').symm.trans hh⟩
    · rintro ⟨hqp, hq, k', hk', hh⟩
      refine ⟨hnum ▸ hq, k', ?_, (hpos k').trans hh⟩
      rw [hobj', Function.update_of_ne hqp]
      exact hk'
  constructor
  case chains =>
    intro h hh
    rw [show (t.unlink _ _ _).nextAt = _ from hnext', show (t.unlink _ _ _).buckets = _ from hbuckets']
    by_cases hpos : h = t.mainpos hash k
    · subst hpos
      refine ⟨before ++ after, hchain₁.update_of_notMem hpnot _, fun q => ?_⟩
      rw [hmem, ← hl q, List.mem_append, List.mem_append, List.mem_cons]
      constructor
      · intro hq
        have hqp : q ≠ p := by
          rintro rfl
          exact hpnot (List.mem_append.mpr hq)
        exact ⟨hqp, hq.imp_right .inr⟩
      · rintro ⟨hqp, hq⟩
        exact hq.imp_right fun h => h.resolve_left hqp
    · obtain ⟨l, hcl, hll⟩ := I.chains h (hnum ▸ hh)
      -- nothing of the other bucket is in this chain
      have hdisjoint {q : Nat} (hq : q ∈ l) : q ∉ before ++ p :: after := fun hq' => by
        obtain ⟨-, k₁, hk₁, hh₁⟩ := (hll q).mp hq
        obtain ⟨-, k₂, hk₂, hh₂⟩ := (hl q).mp hq'
        rw [hk₁] at hk₂
        cases hk₂
        exact hpos (hh₁.symm.trans hh₂)
      have hpl' : p ∉ l := fun hmem => hdisjoint hmem hpl
      refine ⟨l, ?_, fun q => ?_⟩
      · rw [hbuckets₁ h hpos]
        refine (hcl.congr fun q hq => hnext₁ q fun hq' => ?_).update_of_notMem hpl' _
        exact hdisjoint hq (List.mem_append_left _ hq')
      · rw [hmem, hll q]
        refine ⟨fun h => ⟨?_, h⟩, And.right⟩
        rintro rfl
        exact hpl' ((hll q).mpr h)
  case free =>
    obtain ⟨l, hcl, hll⟩ := I.free
    have hocc {q : Nat} (hq : q ∈ l) : q ∉ before ++ p :: after := fun hq' => by
      obtain ⟨-, k', hk', -⟩ := (hl q).mp hq'
      rw [((hll q).mp hq).2] at hk'
      cases hk'
    have hpl' : p ∉ l := fun hmem => hocc hmem hpl
    have hcl₁ : Chain t₁.nextAt t.freelist l :=
      hcl.congr fun q hq => hnext₁ q fun hq' => hocc hq (List.mem_append_left _ hq')
    refine ⟨p :: l, ?_, fun q => ?_⟩
    · rw [show (t.unlink _ _ _).nextAt = _ from hnext',
        show (t.unlink (t.mainpos hash k) p before.getLast?).freelist = some p by rw [heq]]
      exact hcl₁.push hpl'
    · rw [show (t.unlink _ _ _).objAt = _ from hobj', show (t.unlink _ _ _).numofslots = _ from hnum,
        List.mem_cons]
      by_cases hqp : q = p
      · subst hqp
        rw [Function.update_self]
        exact iff_of_true (.inl rfl) ⟨hp, rfl⟩
      · rw [or_iff_right hqp, hll q, Function.update_of_ne hqp]
  case count =>
    intro q k' hq hk'
    obtain ⟨hqp, hkq⟩ := hne hk'
    have hq' : q < t.numofslots := hnum ▸ hq
    have hkk : k' ≠ k := fun he => hqp (I.inj hq' hp (he ▸ hkq) hobj)
    rw [show ((t.unlink _ _ _).nodes q).refs = _ from hrefs' q, if_neg hqp,
      Function.update_of_ne hkk]
    exact I.count hq' hkq
  case freeRefs =>
    intro q hq hnone
    rw [show ((t.unlink _ _ _).nodes q).refs = _ from hrefs' q]
    by_cases hqp : q = p
    · exact if_pos hqp
    · rw [if_neg hqp]
      rw [show (t.unlink _ _ _).objAt = _ from hobj', Function.update_of_ne hqp] at hnone
      exact I.freeRefs (hnum ▸ hq) hnone
  case inj =>
    intro q q' k' hq hq' hk' hk''
    exact I.inj (hnum ▸ hq) (hnum ▸ hq') (hne hk').2 (hne hk'').2
  case present =>
    intro k' hk'
    have hkk : k' ≠ k := by
      rintro rfl
      rw [Function.update_self] at hk'
      exact Nat.lt_irrefl 0 hk'
    rw [Function.update_of_ne hkk] at hk'
    obtain ⟨q, hq, hobjq⟩ := I.present hk'
    have hqp : q ≠ p := by
      rintro rfl
      rw [hobj] at hobjq
      exact hkk (Option.some.inj hobjq).symm
    refine ⟨q, hnum.symm ▸ hq, ?_⟩
    rw [show (t.unlink _ _ _).objAt = _ from hobj', Function.update_of_ne hqp]
    exact hobjq
  case used =>
    have hocc : t'.occupied = t.occupied.erase p := by
      ext q
      rw [Finset.mem_erase, mem_occupied, mem_occupied, hobj', hnum]
      by_cases hqp : q = p
      · subst hqp
        rw [Function.update_self]
        exact iff_of_false (fun h => nomatch h.2) fun h => h.1 rfl
      · rw [Function.update_of_ne hqp]
        exact (and_iff_right hqp).symm
    have hin : p ∈ t.occupied := mem_occupied.mpr ⟨hp, by rw [hobj]; rfl⟩
    rw [show (t.unlink _ _ _).occupied = _ from hocc, Finset.card_erase_of_mem hin, I.used, heq]
  case pos =>
    rw [show (t.unlink _ _ _).numofslots = _ from hnum]
    exact I.pos

/-- `Release`: a reference less, and removal when it was the last one. -/
theorem release (I : Counts hash t c) (k : K) :
    ∃ t', t.release hash k = some (t', if c k = 0 then .absent else if c k = 1 then .removed
        else .kept) ∧ Counts hash t' (Function.update c k (c k - 1)) := by
  rcases I.find_cases k with ⟨before, p, after, hc, hl, hp, he⟩ | ⟨hzero, prev, he⟩
  · have hin := (hl p).mp (List.mem_append_right before List.mem_cons_self)
    obtain ⟨hrefs, hpos⟩ := I.count hin.1 hp
    rw [RefTable.release, he, if_neg (Nat.ne_of_gt hpos), Option.map_some]
    simp only [hrefs]
    by_cases hone : c k = 1
    · rw [if_pos (by omega), if_pos hone, hone]
      exact ⟨_, rfl, I.unlink hc hl hp⟩
    · rw [if_neg (by omega), if_neg hone]
      exact ⟨_, rfl, I.setRefs hin.1 hp (by omega)⟩
  · refine ⟨t, ?_, ?_⟩
    · rw [RefTable.release, he, if_pos hzero]
      rfl
    · rw [hzero, show 0 - 1 = c k from hzero.symm, Function.update_eq_self]
      exact I

end Counts

/-- The free list and the chains of the buckets share out the node array. -/
def Partitioned (t : RefTable K) : Prop :=
  ∃ (free : List Nat) (chain : Nat → List Nat), Chain t.nextAt t.freelist free ∧
    (∀ h < t.numofslots, Chain t.nextAt (t.buckets h) (chain h)) ∧
    (∀ p, p < t.numofslots ↔ p ∈ free ∨ ∃ h < t.numofslots, p ∈ chain h) ∧
    (∀ p h, h < t.numofslots → p ∈ chain h → p ∉ free) ∧
    ∀ p h h', h < t.numofslots → h' < t.numofslots → p ∈ chain h → p ∈ chain h' → h = h'

theorem Counts.partitioned (I : Counts hash t c) : t.Partitioned := by
  obtain ⟨free, hcf, hlf⟩ := I.free
  have hex : ∀ h, ∃ l, h < t.numofslots →
      Chain t.nextAt (t.buckets h) l ∧ ∀ p, p ∈ l ↔ t.InBucket hash h p := by
    intro h
    by_cases hh : h < t.numofslots
    · obtain ⟨l, hl⟩ := I.chains h hh
      exact ⟨l, fun _ => hl⟩
    · exact ⟨[], fun hlt => absurd hlt hh⟩
  choose chain hchain using hex
  refine ⟨free, chain, hcf, fun h hh => (hchain h hh).1, fun p => ⟨fun hp => ?_, ?_⟩, ?_, ?_⟩
  · cases hobj : t.objAt p with
    | none => exact .inl ((hlf p).mpr ⟨hp, hobj⟩)
    | some k =>
      have hlt : t.mainpos hash k < t.numofslots := mainpos_lt I.pos k
      exact .inr ⟨_, hlt, ((hchain _ hlt).2 p).mpr ⟨hp, k, hobj, rfl⟩⟩
  · rintro (hp | ⟨h, hh, hp⟩)
    · exact ((hlf p).mp hp).1
    · exact (((hchain h hh).2 p).mp hp).1
  · intro p h hh hp hfree
    obtain ⟨-, k, hk, -⟩ := ((hchain h hh).2 p).mp hp
    rw [((hlf p).mp hfree).2] at hk
    cases hk
  · intro p h h' hh hh' hp hp'
    obtain ⟨-, k, hk, rfl⟩ := ((hchain h hh).2 p).mp hp
    obtain ⟨-, k', hk', rfl⟩ := ((hchain h' hh').2 p).mp hp'
    rw [hk] at hk'
    cases hk'
    rfl

end RefTable

/-! ## Runs -/

section Runs

variable [DecidableEq K]

/-- The number of `AddRef`s of an object. -/
def addedTimes (obj : K) (es : List (RefEvent K)) : Nat := es.count (.added obj)

/-- The number of `Release`s of an object that found it. -/
def releasedTimes (obj : K) (es : List (RefEvent K)) : Nat :=
  es.count (.released obj .kept) + es.count (.released obj .removed)

/-- One request changes the count as it says. -/
theorem counts_applyOp {t : RefTable K} {c : K → Nat} (I : Counts hash t c) (op : RefOp K) :
    ∃ t' e c', applyOp hash t op = some (t', e) ∧ Counts hash t' c' ∧
      ∀ k, c' k + releasedTimes k [e] = c k + addedTimes k [e] := by
  cases op with
  | addRef obj =>
    obtain ⟨t', heq, J⟩ := I.addRef obj
    refine ⟨t', .added obj, _, by rw [applyOp, heq]; rfl, J, fun k => ?_⟩
    by_cases hk : k = obj
    · subst hk
      simp [releasedTimes, addedTimes]
    · have hne : obj ≠ k := fun he => hk he.symm
      simp [releasedTimes, addedTimes, hk, hne]
  | release obj =>
    obtain ⟨t', heq, J⟩ := I.release obj
    refine ⟨t', .released obj _, _, by rw [applyOp, heq]; rfl, J, fun k => ?_⟩
    by_cases hk : k = obj
    · subst hk
      rw [Function.update_self]
      by_cases h0 : c k = 0
      · simp [releasedTimes, addedTimes, h0]
      by_cases h1 : c k = 1
      · simp [releasedTimes, addedTimes, h1]
      · simp [releasedTimes, addedTimes, h0, h1]
        omega
    · have hne : obj ≠ k := fun he => hk he.symm
      simp [releasedTimes, addedTimes, hk, hne]

theorem counts_runOps {t : RefTable K} {c : K → Nat} (I : Counts hash t c) (ops : List (RefOp K)) :
    ∃ t' es c', runOps hash t ops = some (t', es) ∧ Counts hash t' c' ∧
      ∀ k, c' k + releasedTimes k es = c k + addedTimes k es := by
  induction ops generalizing t c with
  | nil => exact ⟨t, [], c, rfl, I, fun _ => rfl⟩
  | cons op ops ih =>
    obtain ⟨t₁, e, c₁, hstep, J, hc₁⟩ := counts_applyOp hash I op
    obtain ⟨t', es, c', hrun, J', hc'⟩ := ih J
    refine ⟨t', e :: es, c', ?_, J', fun k => ?_⟩
    · rw [runOps, hstep, Option.bind_some, hrun]
      rfl
    · have h₁ := hc₁ k
      have h' := hc' k
      simp only [releasedTimes, addedTimes, List.count_cons, List.count_nil, Nat.zero_add] at h₁ h' ⊢
      omega

/-- After every run: an object's count is the number of its `AddRef`s less the number of its `Release`s
that found it; the object is in the table exactly when that is positive; `Release` reports a removal
exactly when it takes the count to zero; the free list and the chains share out the node array; and
`Resize` keeps every count. -/
theorem refTable_counts (ops : List (RefOp K)) :
    ∃ t es, runOps hash RefTable.new ops = some (t, es) ∧ t.Partitioned ∧
      (∀ k, ∃ n, t.getRefCount hash k = some n ∧ n + releasedTimes k es = addedTimes k es ∧
        ((∃ p < t.numofslots, t.objAt p = some k) ↔ 0 < n) ∧
        ∃ t' r, t.release hash k = some (t', r) ∧ (r = .removed ↔ n = 1) ∧
          t'.getRefCount hash k = some (n - 1)) ∧
      ∀ size, 0 < size → t.slotused ≤ size →
        ∃ t', t.resize hash size = some t' ∧ ∀ k, t'.getRefCount hash k = t.getRefCount hash k := by
  obtain ⟨t, es, c, hrun, I, hc⟩ := counts_runOps hash (.allocNodes (show 0 < 4 by decide)) ops
  refine ⟨t, es, hrun, I.partitioned, fun k => ?_, fun size hpos hsize => ?_⟩
  · refine ⟨c k, I.getRefCount k, (hc k).trans (Nat.zero_add _), ⟨?_, I.present⟩, ?_⟩
    · rintro ⟨p, hp, hk⟩
      exact (I.count hp hk).2
    · obtain ⟨t', hrelease, J⟩ := I.release k
      refine ⟨t', _, hrelease, ?_, by rw [J.getRefCount, Function.update_self]⟩
      split
      case isTrue h0 => exact iff_of_false nofun fun h1 => by omega
      case isFalse h0 =>
        split
        case isTrue h1 => exact iff_of_true rfl h1
        case isFalse h1 => exact iff_of_false nofun h1
  · obtain ⟨t', hresize, J, -, -⟩ := I.resize hpos hsize
    exact ⟨t', hresize, fun k => by rw [J.getRefCount, I.getRefCount]⟩

end Runs

end Quirrel.References
