import Quirrel.Interning.Invariant

/-!
# `Resize`, `Remove` and runs of the string table

`Resize` moves one chain after the other into the new array. While it does so, the strings of the
chains that it has moved are in the new array and all others are untouched (`moveLoop_spec`,
`Interned.resize_below`). `Remove` unlinks a string wherever it stands in its chain
(`removeLoop_eq`). With `Add` this gives the invariant after every run (`strings_interned`).
-/

set_option autoImplicit false

namespace Quirrel.Interning

open Quirrel.Lib SQStringTable

namespace SQStringTable

variable {t : SQStringTable}

/-! ## `Resize` -/

/-- `nt` is an array of chains for the same objects as `t`. -/
structure Rechained (t nt : SQStringTable) (chains : Nat → List Nat) : Prop where
  chain : ∀ h < nt.numofslots, Chain nt.nextAt (nt.strings h) (chains h)
  content : nt.contentAt = t.contentAt
  slotused : nt.slotused = t.slotused

/-- One string put in front of the chain of its slot. -/
theorem Rechained.push {nt : SQStringTable} {chains : Nat → List Nat} (R : Rechained t nt chains)
    {p : Nat} {s : SQString} (hs : nt.heap p = some s) (hp : ∀ h < nt.numofslots, p ∉ chains h) :
    Rechained t ((nt.setNext p (nt.strings (nt.slot s.hash))).setSlot (nt.slot s.hash) (some p))
      (Function.update chains (nt.slot s.hash) (p :: chains (nt.slot s.hash))) where
  chain h hh := by
    have hnext : ((nt.setNext p (nt.strings (nt.slot s.hash))).setSlot (nt.slot s.hash)
        (some p)).nextAt = Function.update nt.nextAt p (nt.strings (nt.slot s.hash)) :=
      nextAt_setNext hs _
    rw [hnext]
    by_cases hslot : h = nt.slot s.hash
    · subst hslot
      have hstr : ((nt.setNext p (nt.strings (nt.slot s.hash))).setSlot (nt.slot s.hash)
          (some p)).strings (nt.slot s.hash) = some p := Function.update_self ..
      rw [hstr, Function.update_self]
      exact (R.chain _ hh).push (hp _ hh)
    · have hstr : ((nt.setNext p (nt.strings (nt.slot s.hash))).setSlot (nt.slot s.hash)
          (some p)).strings h = nt.strings h := Function.update_of_ne hslot ..
      rw [hstr, Function.update_of_ne hslot]
      exact (R.chain h hh).update_of_notMem (hp h hh) _
  content := (contentAt_setNext p _).trans R.content
  slotused := R.slotused

/-- The inner loop moves exactly the strings of the chain, each to the slot of its hash. -/
theorem moveLoop_spec {nt : SQStringTable} {chains : Nat → List Nat} (R : Rechained t nt chains)
    (hpos : 0 < nt.numofslots) {head : Option Nat} {l : List Nat} (hc : Chain nt.nextAt head l)
    (hlive : ∀ p ∈ l, (nt.heap p).isSome) (hout : ∀ p ∈ l, ∀ h < nt.numofslots, p ∉ chains h)
    {fuel : Nat} (hfuel : l.length ≤ fuel) :
    ∃ nt' chains', moveLoop fuel head nt = some nt' ∧ Rechained t nt' chains' ∧
      nt'.numofslots = nt.numofslots ∧ (∀ p, p ∉ l → nt'.heap p = nt.heap p) ∧
      ∀ h < nt.numofslots, ∀ p, p ∈ chains' h ↔ p ∈ chains h ∨ (p ∈ l ∧ nt.InSlot h p) := by
  induction l generalizing nt chains head fuel with
  | nil =>
    cases hc
    refine ⟨nt, chains, ?_, R, rfl, fun _ _ => rfl, fun h _ p => ?_⟩
    · cases fuel <;> rfl
    · simp
  | cons p l ih =>
    cases fuel with
    | zero => exact absurd hfuel (by simp)
    | succ fuel =>
      have hpl : p ∉ l := (List.nodup_cons.mp hc.nodup).1
      have hne : ∀ {q}, q ∈ l → q ≠ p := fun hq heq => hpl (heq ▸ hq)
      cases hc with
      | cons hc =>
        obtain ⟨s, hs⟩ := Option.isSome_iff_exists.mp (hlive p List.mem_cons_self)
        have hpout := hout p List.mem_cons_self
        -- the first string goes to the head of its slot in the new table
        let nt₁ := (nt.setNext p (nt.strings (nt.slot s.hash))).setSlot (nt.slot s.hash) (some p)
        have hstep : moveLoop (fuel + 1) (some p) nt = moveLoop fuel (nt.nextAt p) nt₁ := by
          rw [moveLoop, hs, nextAt_eq hs]
        have hheap : ∀ {q}, q ≠ p → nt₁.heap q = nt.heap q := fun hq => Function.update_of_ne hq ..
        have hcontent : ∀ q, nt₁.contentAt q = nt.contentAt q :=
          congrFun (contentAt_setNext p _)
        have hc₁ : Chain nt₁.nextAt (nt.nextAt p) l := by
          have hnext : nt₁.nextAt = Function.update nt.nextAt p (nt.strings (nt.slot s.hash)) :=
            nextAt_setNext hs _
          rw [hnext]
          exact hc.update_of_notMem hpl _
        have hlive₁ : ∀ q ∈ l, (nt₁.heap q).isSome := fun q hq => by
          rw [hheap (hne hq)]
          exact hlive q (List.mem_cons_of_mem p hq)
        -- the strings still to be moved stay off the chains, also off the one that was extended
        have hout₁ : ∀ q ∈ l, ∀ h < nt₁.numofslots,
            q ∉ Function.update chains (nt.slot s.hash) (p :: chains (nt.slot s.hash)) h := by
          intro q hq h hh
          have hqout := hout q (List.mem_cons_of_mem p hq) h hh
          by_cases hslot : h = nt.slot s.hash
          · subst hslot
            rw [Function.update_self, List.mem_cons]
            exact fun hor => hor.elim (hne hq) hqout
          · rwa [Function.update_of_ne hslot]
        -- the rest of the chain, by the induction hypothesis
        obtain ⟨nt', chains', he, R', hn', hheap', hmem'⟩ :=
          ih (R.push hs hpout) hpos hc₁ hlive₁ hout₁ (Nat.le_of_succ_le_succ hfuel)
        refine ⟨nt', chains', hstep.trans he, R', hn', fun q hq => ?_, fun h hh q => ?_⟩
        · rw [List.mem_cons, not_or] at hq
          exact (hheap' q hq.2).trans (hheap hq.1)
        · have hin : nt₁.InSlot h q ↔ nt.InSlot h q := inSlot_congr (hcontent q) rfl h
          rw [hmem' h hh q, hin, List.mem_cons]
          -- only the slot of the moved string has gained it
          by_cases hslot : h = nt.slot s.hash
          · have hp : nt.InSlot h p := ⟨s, hs, hslot.symm⟩
            subst hslot
            rw [Function.update_self, List.mem_cons]
            constructor
            · rintro ((rfl | hq) | ⟨hq, hslot⟩)
              · exact .inr ⟨.inl rfl, hp⟩
              · exact .inl hq
              · exact .inr ⟨.inr hq, hslot⟩
            · rintro (hq | ⟨rfl | hq, hslot⟩)
              · exact .inl (.inr hq)
              · exact .inl (.inl rfl)
              · exact .inr ⟨hq, hslot⟩
          · have hp : ¬ nt.InSlot h p := fun hp => hslot (hp.slot_unique ⟨s, hs, rfl⟩)
            rw [Function.update_of_ne hslot]
            constructor
            · rintro (hq | ⟨hq, hslot⟩)
              · exact .inl hq
              · exact .inr ⟨.inr hq, hslot⟩
            · rintro (hq | ⟨rfl | hq, hslot⟩)
              · exact .inl hq
              · exact absurd hslot hp
              · exact .inr ⟨hq, hslot⟩

/-- After the first `k` chains exactly their strings are in the new array. -/
theorem Interned.resize_below (I : Interned t) {size : Nat} (hsize : 0 < size) {k : Nat}
    (hk : k ≤ t.numofslots) :
    ∃ nt chains, (List.range k).foldlM (fun nt i => moveLoop t.slotused (t.strings i) nt)
        (t.allocNodes size) = some nt ∧
      Rechained t nt chains ∧ nt.numofslots = size ∧
      (∀ p, (∀ i < k, ¬ t.InSlot i p) → nt.heap p = t.heap p) ∧
      ∀ h < size, ∀ p, p ∈ chains h ↔ (∃ i < k, t.InSlot i p) ∧ nt.InSlot h p := by
  induction k with
  | zero =>
    refine ⟨t.allocNodes size, fun _ => [], rfl, ⟨fun _ _ => .nil, rfl, rfl⟩, rfl,
      fun _ _ => rfl, fun h _ p => ?_⟩
    simp
  | succ k ih =>
    obtain ⟨nt, chains, he, R, hn, hheap, hmem⟩ := ih (Nat.le_of_succ_le hk)
    obtain ⟨l, hc, hl⟩ := I.chains k hk
    -- the strings of chain `k` are in none of the chains before
    have hfar : ∀ p ∈ l, ∀ i < k, ¬ t.InSlot i p := fun p hp i hi hin =>
      Nat.ne_of_lt hi (hin.slot_unique ((hl p).mp hp))
    have hc' : Chain nt.nextAt (t.strings k) l := hc.congr fun p hp => by
      rw [nextAt, nextAt, hheap p (hfar p hp)]
    have hlive : ∀ p ∈ l, (nt.heap p).isSome := fun p hp => by
      rw [hheap p (hfar p hp)]
      exact ((hl p).mp hp).isSome
    have hout : ∀ p ∈ l, ∀ h < nt.numofslots, p ∉ chains h := by
      intro p hp h hh hin
      obtain ⟨⟨i, hi, hslot⟩, -⟩ := (hmem h (hn ▸ hh) p).mp hin
      exact hfar p hp i hi hslot
    have hpos : 0 < nt.numofslots := hn.symm ▸ hsize
    obtain ⟨nt', chains', he', R', hn', hheap', hmem'⟩ := moveLoop_spec R hpos hc' hlive hout
      (I.length_le hc fun p hp => (hl p).mp hp)
    have hfold : (List.range (k + 1)).foldlM
        (fun nt i => moveLoop t.slotused (t.strings i) nt) (t.allocNodes size) = some nt' := by
      simp [List.range_succ, List.foldlM_append, he, he']
    refine ⟨nt', chains', hfold, R', hn'.trans hn, fun p hp => ?_, fun h hh p => ?_⟩
    · have hpl : p ∉ l := fun hpl => hp k (Nat.lt_succ_self k) ((hl p).mp hpl)
      exact (hheap' p hpl).trans (hheap p fun i hi => hp i (Nat.lt_succ_of_lt hi))
    · have hin : nt'.InSlot h p ↔ nt.InSlot h p :=
        inSlot_congr (by rw [R'.content, R.content]) hn' h
      rw [hmem' h (hn.symm ▸ hh) p, hmem h hh p, hin, hl p]
      constructor
      · rintro (⟨⟨i, hi, hslot⟩, hh'⟩ | ⟨hslot, hh'⟩)
        · exact ⟨⟨i, Nat.lt_succ_of_lt hi, hslot⟩, hh'⟩
        · exact ⟨⟨k, Nat.lt_succ_self k, hslot⟩, hh'⟩
      · rintro ⟨⟨i, hi, hslot⟩, hh'⟩
        rcases Nat.lt_succ_iff_lt_or_eq.mp hi with hi | rfl
        · exact .inl ⟨⟨i, hi, hslot⟩, hh'⟩
        · exact .inr ⟨hslot, hh'⟩

/-- The invariant is about the contents and the chains only. -/
theorem Interned.of_content (I : Interned t) {nt : SQStringTable} (hcontent : nt.contentAt = t.contentAt)
    (hused : nt.slotused = t.slotused) (hpos : 0 < nt.numofslots)
    (hchains : ∀ h < nt.numofslots, ∃ l, Chain nt.nextAt (nt.strings h) l ∧
      ∀ p, p ∈ l ↔ nt.InSlot h p) : Interned nt := by
  constructor
  case chains => exact hchains
  case hash_eq =>
    intro p s hs
    obtain ⟨s', hs', hv, hhash⟩ := heap_of_contentAt (congrFun hcontent p) hs
    rw [← hhash, ← hv, I.hash_eq hs']
  case val_inj =>
    intro p q s s' hs hs' hval
    obtain ⟨u, hu, hv, -⟩ := heap_of_contentAt (congrFun hcontent p) hs
    obtain ⟨u', hu', hv', -⟩ := heap_of_contentAt (congrFun hcontent q) hs'
    exact I.val_inj hu hu' (hv.trans (hval.trans hv'.symm))
  case live =>
    obtain ⟨S, hS, hcard⟩ := I.live
    refine ⟨S, fun p => ?_, hcard.trans hused.symm⟩
    rw [hS, ← isSome_contentAt, ← isSome_contentAt, hcontent]
  case numofslots_pos => exact hpos

theorem Interned.resize (I : Interned t) {size : Nat} (hsize : 0 < size) :
    ∃ nt, t.resize size = some nt ∧ Interned nt ∧ nt.contentAt = t.contentAt := by
  obtain ⟨nt, chains, he, R, hn, -, hmem⟩ := I.resize_below hsize (Nat.le_refl t.numofslots)
  refine ⟨nt, he, I.of_content R.content R.slotused (hn.symm ▸ hsize) fun h hh => ?_, R.content⟩
  refine ⟨chains h, R.chain h hh, fun p => ?_⟩
  rw [hmem h (hn ▸ hh) p]
  refine ⟨fun hp => hp.2, fun hp => ⟨?_, hp⟩⟩
  -- every live string was in some chain
  have hsome : (t.heap p).isSome := by
    rw [← isSome_contentAt, ← R.content, isSome_contentAt]
    exact hp.isSome
  exact exists_inSlot I.numofslots_pos hsome

/-! ## `Add` -/

/-- `Add` of any bytes ends. It returns the live string with these bytes, and a new one only when
there is none; it keeps every live string. -/
theorem add_interned (I : Interned t) (news : List UInt8) (len : Int) {addr : Nat}
    (hfresh : t.heap addr = none) :
    ∃ t' p, t.add news len addr = some (t', p) ∧ Interned t' ∧
      (∃ s, t'.heap p = some s ∧ s.val = bytesOf news len) ∧
      (∀ q, (t.heap q).isSome → t'.contentAt q = t.contentAt q) := by
  rcases I.find_cases (bytesOf news len) with ⟨p, s, hs, hv, he⟩ | ⟨hnew, he⟩
  · refine ⟨t, p, ?_, I, ⟨s, hs, hv⟩, fun _ _ => rfl⟩
    simp only [add, he]
  · have I' := I.insertAt hfresh hnew
    have hself : (t.insertAt (bytesOf news len) addr).contentAt addr =
        some (bytesOf news len, hashstr (bytesOf news len)) := by
      rw [contentAt, heap_insertAt, Function.update_self]
      rfl
    have hold : ∀ q, (t.heap q).isSome →
        (t.insertAt (bytesOf news len) addr).contentAt q = t.contentAt q := by
      intro q hq
      have hne : q ≠ addr := by
        rintro rfl
        rw [hfresh] at hq
        exact absurd hq Bool.false_ne_true
      rw [contentAt, contentAt, heap_insertAt, Function.update_of_ne hne]
    have hsome : ¬ (t.heap addr).isSome = true := by
      rw [hfresh]
      exact Bool.false_ne_true
    by_cases hcrowded : (t.insertAt (bytesOf news len) addr).slotused >
        (t.insertAt (bytesOf news len) addr).numofslots
    · obtain ⟨nt, hr, I'', hcontent⟩ :=
        I'.resize (Nat.mul_pos I'.numofslots_pos Nat.two_pos)
      refine ⟨nt, addr, ?_, I'', ?_, fun q hq => ?_⟩
      · simp only [add, he, if_neg hsome, if_pos hcrowded, hr]
        rfl
      · obtain ⟨s, hs, heq⟩ := contentAt_eq_some_iff.mp ((congrFun hcontent addr).trans hself)
        exact ⟨s, hs, (Prod.mk.inj heq).1⟩
      · exact (congrFun hcontent q).trans (hold q hq)
    · refine ⟨_, addr, ?_, I', ?_, hold⟩
      · simp only [add, he, if_neg hsome, if_neg hcrowded]
      · obtain ⟨s, hs, heq⟩ := contentAt_eq_some_iff.mp hself
        exact ⟨s, hs, (Prod.mk.inj heq).1⟩

/-! ## `Remove` -/

/-- The loop of `Remove` stops at the string, with the one before it in `prev`. -/
theorem removeLoop_eq {bs h : Nat} {head prev : Option Nat} {before after : List Nat}
    (hc : Chain t.nextAt head (before ++ bs :: after))
    (hlive : ∀ p ∈ before ++ bs :: after, (t.heap p).isSome) {fuel : Nat}
    (hfuel : before.length < fuel) :
    t.removeLoop bs h fuel prev head =
      some (t.unlink bs h (before.getLast?.or prev) (t.nextAt bs)) := by
  have hnodup := hc.nodup
  induction before generalizing head prev fuel with
  | nil =>
    cases fuel with
    | zero => exact absurd hfuel (Nat.not_lt_zero _)
    | succ fuel =>
      cases hc with
      | cons hc =>
        obtain ⟨s, hs⟩ := Option.isSome_iff_exists.mp (hlive bs List.mem_cons_self)
        simp [removeLoop, hs, nextAt_eq hs]
  | cons q before ih =>
    cases fuel with
    | zero => exact absurd hfuel (Nat.not_lt_zero _)
    | succ fuel =>
      cases hc with
      | cons hc =>
        have hq : q ≠ bs := by
          rintro rfl
          exact (List.nodup_cons.mp hnodup).1 (List.mem_append_right before List.mem_cons_self)
        obtain ⟨s, hs⟩ := Option.isSome_iff_exists.mp (hlive q List.mem_cons_self)
        have hstep : t.removeLoop bs h (fuel + 1) prev (some q) =
            t.removeLoop bs h fuel (some q) (t.nextAt q) := by
          rw [removeLoop, hs, nextAt_eq hs]
          exact if_neg hq
        rw [hstep, ih hc (fun p hp => hlive p (List.mem_cons_of_mem q hp))
          (Nat.lt_of_succ_lt_succ hfuel) (List.nodup_cons.mp hnodup).2]
        cases before with
        | nil => rfl
        | cons r before =>
          rw [List.getLast?_cons_cons, List.getLast?_eq_some_getLast (List.cons_ne_nil r before)]
          rfl

section Unlink

variable {bs h : Nat} {prev next : Option Nat}

theorem heap_unlink_self : (t.unlink bs h prev next).heap bs = none := Function.update_self ..

theorem heap_unlink_of_ne {p : Nat} (hp : p ≠ bs) :
    (t.unlink bs h prev next).contentAt p = t.contentAt p := by
  cases prev with
  | none => simp [contentAt, unlink, setSlot, hp]
  | some q =>
    have hset : (t.unlink bs h (some q) next).contentAt p = (t.setNext q next).contentAt p := by
      simp [contentAt, unlink, hp]
    exact hset.trans (congrFun (contentAt_setNext q next) p)

theorem numofslots_unlink : (t.unlink bs h prev next).numofslots = t.numofslots := by
  cases prev <;> rfl

theorem slotused_unlink : (t.unlink bs h prev next).slotused = t.slotused - 1 := by
  cases prev <;> rfl

/-- The chains of the other slots stay. -/
theorem chain_unlink_other {i : Nat} {head : Option Nat} {l : List Nat} (hc : Chain t.nextAt head l)
    (hbs : bs ∉ l) (hprev : ∀ q, prev = some q → q ∉ l ∧ (t.heap q).isSome) (hi : i ≠ h)
    (hhead : head = t.strings i) :
    Chain (t.unlink bs h prev next).nextAt ((t.unlink bs h prev next).strings i) l := by
  subst hhead
  have hstr : (t.unlink bs h prev next).strings i = t.strings i := by
    cases prev with
    | none => exact Function.update_of_ne hi ..
    | some q => rfl
  rw [hstr]
  refine hc.congr fun p hp => ?_
  have hpbs : p ≠ bs := fun heq => hbs (heq ▸ hp)
  cases prev with
  | none => simp [nextAt, unlink, setSlot, hpbs]
  | some q =>
    have hpq : p ≠ q := fun heq => (hprev q rfl).1 (heq ▸ hp)
    simp [nextAt, unlink, setNext, hpbs, hpq]

/-- The chain of the slot loses the string. -/
theorem chain_unlink {before after : List Nat}
    (hc : Chain t.nextAt (t.strings h) (before ++ bs :: after))
    (hlive : ∀ p ∈ before ++ bs :: after, (t.heap p).isSome) :
    Chain (t.unlink bs h before.getLast? (t.nextAt bs)).nextAt
      ((t.unlink bs h before.getLast? (t.nextAt bs)).strings h) (before ++ after) := by
  have hnodup := hc.nodup
  have hbs : bs ∉ before ++ after :=
    (List.nodup_cons.mp (List.nodup_middle.mp hnodup)).1
  rcases List.eq_nil_or_concat before with rfl | ⟨front, q, rfl⟩
  · have hstr : (t.unlink bs h none (t.nextAt bs)).strings h = t.nextAt bs :=
      Function.update_self ..
    have hafter : Chain t.nextAt (t.nextAt bs) after := by
      have hhead := hc.head_eq
      rw [hhead] at hc
      exact Chain.cons_iff.mp hc
    show Chain (t.unlink bs h none (t.nextAt bs)).nextAt
      ((t.unlink bs h none (t.nextAt bs)).strings h) after
    rw [hstr]
    refine hafter.congr fun p hp => ?_
    have hp' : p ≠ bs := fun heq => hbs (heq ▸ hp)
    simp [nextAt, unlink, setSlot, hp']
  · -- the string before it takes over its link
    rw [List.concat_eq_append] at hc hlive hbs ⊢
    obtain ⟨s, hs⟩ := Option.isSome_iff_exists.mp (hlive q (by simp))
    rw [List.append_assoc] at hc ⊢
    have hlast : (front ++ [q]).getLast? = some q := by simp
    rw [hlast]
    have hcut := hc.unlink
    rw [← nextAt_setNext hs] at hcut
    refine hcut.congr fun p hp => ?_
    have hp' : p ≠ bs := by
      rintro rfl
      exact hbs (by simpa using hp)
    simp [nextAt, unlink, hp']

end Unlink

/-- `Remove` of a live string ends, frees it and keeps every other one. -/
theorem remove_interned (I : Interned t) {bs : Nat} (hbs : (t.heap bs).isSome) :
    ∃ t', t.remove bs = some t' ∧ Interned t' ∧ t'.heap bs = none ∧
      ∀ p, p ≠ bs → t'.contentAt p = t.contentAt p := by
  obtain ⟨b, hb⟩ := Option.isSome_iff_exists.mp hbs
  obtain ⟨l, hc, hl⟩ := I.chains _ (slot_lt I.numofslots_pos b.hash)
  have hmem : bs ∈ l := (hl bs).mpr ⟨b, hb, rfl⟩
  have hin : ∀ p ∈ l, t.InSlot (t.slot b.hash) p := fun p hp => (hl p).mp hp
  have hlen := I.length_le (h := t.slot b.hash) hc hin
  obtain ⟨before, after, rfl⟩ := List.append_of_mem hmem
  have hlive : ∀ p ∈ before ++ bs :: after, (t.heap p).isSome := fun p hp => (hin p hp).isSome
  have hfuel : before.length < t.slotused := by
    rw [List.length_append, List.length_cons] at hlen
    omega
  let t' := t.unlink bs (t.slot b.hash) before.getLast? (t.nextAt bs)
  have hremove : t.remove bs = some t' := by
    rw [remove, hb]
    show t.removeLoop bs (t.slot b.hash) t.slotused none (t.strings (t.slot b.hash)) = _
    rw [removeLoop_eq hc hlive hfuel, Option.or_none]
  have hself : t'.heap bs = none := heap_unlink_self
  have hother : ∀ p, p ≠ bs → t'.contentAt p = t.contentAt p := fun p hp => heap_unlink_of_ne hp
  have hn : t'.numofslots = t.numofslots := numofslots_unlink
  -- a live string of the new table is another one, and it was live before
  have hback : ∀ {p s}, t'.heap p = some s →
      p ≠ bs ∧ ∃ u, t.heap p = some u ∧ u.val = s.val ∧ u.hash = s.hash := by
    intro p s hs
    have hp : p ≠ bs := by
      rintro rfl
      rw [hself] at hs
      exact absurd hs nofun
    exact ⟨hp, heap_of_contentAt (hother p hp) hs⟩
  have hslot : ∀ i p, t'.InSlot i p ↔ p ≠ bs ∧ t.InSlot i p := by
    intro i p
    constructor
    · rintro ⟨s, hs, hi⟩
      have hp := (hback hs).1
      exact ⟨hp, (inSlot_congr (hother p hp) hn i).mp ⟨s, hs, hi⟩⟩
    · rintro ⟨hp, hi⟩
      exact (inSlot_congr (hother p hp) hn i).mpr hi
  refine ⟨t', hremove, ?_, hself, hother⟩
  constructor
  case chains =>
    intro i hi
    by_cases his : i = t.slot b.hash
    · subst his
      refine ⟨before ++ after, chain_unlink hc hlive, fun p => ?_⟩
      have hnot : bs ∉ before ++ after :=
        (List.nodup_cons.mp (List.nodup_middle.mp hc.nodup)).1
      rw [hslot, ← hl p, List.mem_append, List.mem_append, List.mem_cons]
      constructor
      · intro hp
        refine ⟨?_, hp.imp_right .inr⟩
        rintro rfl
        exact hnot (List.mem_append.mpr hp)
      · rintro ⟨hp, hp' | rfl | hp'⟩
        · exact .inl hp'
        · exact absurd rfl hp
        · exact .inr hp'
    · obtain ⟨l', hc', hl'⟩ := I.chains i (hn ▸ hi)
      have hout : ∀ q ∈ before ++ bs :: after, q ∉ l' := fun q hq hq' =>
        his (((hl' q).mp hq').slot_unique (hin q hq))
      refine ⟨l', chain_unlink_other hc' (hout bs hmem) (fun q hq => ?_) his rfl, fun p => ?_⟩
      · have hq' : q ∈ before ++ bs :: after :=
          List.mem_append_left _ (List.mem_of_getLast? hq)
        exact ⟨hout q hq', hlive q hq'⟩
      · rw [hslot, hl' p]
        refine ⟨fun hp => ⟨?_, hp⟩, fun hp => hp.2⟩
        rintro rfl
        exact hout p hmem ((hl' p).mpr hp)
  case hash_eq =>
    intro p s hs
    obtain ⟨-, u, hu, hv, hhash⟩ := hback hs
    rw [← hhash, ← hv, I.hash_eq hu]
  case val_inj =>
    intro p q s s' hs hs' hval
    obtain ⟨-, u, hu, hv, -⟩ := hback hs
    obtain ⟨-, u', hu', hv', -⟩ := hback hs'
    exact I.val_inj hu hu' (hv.trans (hval.trans hv'.symm))
  case live =>
    obtain ⟨S, hS, hcard⟩ := I.live
    refine ⟨S.erase bs, fun p => ?_, ?_⟩
    · rw [Finset.mem_erase, hS]
      by_cases hp : p = bs
      · subst hp
        simp [hself]
      · rw [← isSome_contentAt, ← isSome_contentAt, hother p hp]
        simp [hp]
    · rw [Finset.card_erase_of_mem ((hS bs).mpr hbs), hcard, slotused_unlink]
  case numofslots_pos => exact hn.symm ▸ I.numofslots_pos

end SQStringTable

/-! ## Runs -/

theorem interned_new : Interned SQStringTable.new where
  chains h _ := ⟨[], .nil, fun p => ⟨fun hp => absurd hp List.not_mem_nil,
    fun ⟨_, hs, _⟩ => absurd hs nofun⟩⟩
  hash_eq hs := absurd hs nofun
  val_inj hs := absurd hs nofun
  live := ⟨∅, fun p => ⟨fun hp => absurd hp (Finset.notMem_empty p), fun hs => absurd hs nofun⟩, rfl⟩
  numofslots_pos := by decide

theorem applyOp_interned {t t' : SQStringTable} (I : Interned t) {op : StringOp}
    (h : applyOp t op = some t') : Interned t' := by
  cases op with
  | add news len addr =>
    obtain ⟨⟨t₁, p⟩, h₁, rfl⟩ := Option.map_eq_some_iff.mp h
    cases haddr : t.heap addr with
    | none =>
      obtain ⟨t₂, q, h₂, I₂, -⟩ := add_interned I news len haddr
      obtain ⟨rfl, -⟩ := Prod.mk.inj (Option.some.inj (h₁.symm.trans h₂))
      exact I₂
    | some s =>
      -- an address in use is not asked for: the string was found
      rcases I.find_cases (bytesOf news len) with ⟨q, s', -, -, he⟩ | ⟨-, he⟩
      · simp only [SQStringTable.add, he] at h₁
        obtain ⟨rfl, -⟩ := Prod.mk.inj (Option.some.inj h₁)
        exact I
      · simp only [SQStringTable.add, he, haddr, Option.isSome_some, if_true] at h₁
        exact absurd h₁ nofun
  | remove bs =>
    cases hbs : t.heap bs with
    | none =>
      have hnone : applyOp t (.remove bs) = none := by
        rw [applyOp, SQStringTable.remove, hbs]
      rw [hnone] at h
      exact absurd h nofun
    | some s =>
      have hsome : (t.heap bs).isSome := by
        rw [hbs]
        rfl
      obtain ⟨t₁, h₁, I₁, -⟩ := remove_interned I hsome
      obtain rfl := Option.some.inj (h.symm.trans h₁)
      exact I₁

theorem foldlM_applyOp_interned {ops : List StringOp} {t t' : SQStringTable} (I : Interned t)
    (h : ops.foldlM applyOp t = some t') : Interned t' := by
  induction ops generalizing t with
  | nil =>
    obtain rfl := Option.some.inj h
    exact I
  | cons op ops ih =>
    rw [List.foldlM_cons] at h
    obtain ⟨t₁, h₁, h₂⟩ := Option.bind_eq_some_iff.mp h
    exact ih (applyOp_interned I h₁) h₂

/-- After every run of additions and removals: two live strings have the same bytes exactly when
they are one object, every live string is found by its bytes, and `_slotused` is the number of live
strings. The next addition returns a live string with the bytes asked for, and the next removal of a
live string ends. -/
theorem strings_interned {ops : List StringOp} {t : SQStringTable} (h : runOps ops = some t) :
    (∀ p q s s', t.heap p = some s → t.heap q = some s' → (s.val = s'.val ↔ p = q)) ∧
      (∀ p s, t.heap p = some s → t.find s.val = some (some p)) ∧
      (∃ S : Finset Nat, (∀ p, p ∈ S ↔ (t.heap p).isSome) ∧ S.card = t.slotused) ∧
      (∀ news len addr, t.heap addr = none → ∃ t' p s, t.add news len addr = some (t', p) ∧
        t'.heap p = some s ∧ s.val = bytesOf news len) ∧
      ∀ bs, (t.heap bs).isSome → ∃ t', t.remove bs = some t' ∧ t'.heap bs = none := by
  have I := foldlM_applyOp_interned interned_new h
  refine ⟨fun p q s s' hs hs' => ⟨I.val_inj hs hs', ?_⟩, fun p s hs => I.find_live hs, I.live, ?_, ?_⟩
  · rintro rfl
    rw [Option.some.inj (hs.symm.trans hs')]
  · intro news len addr haddr
    obtain ⟨t', p, he, -, ⟨s, hs, hv⟩, -⟩ := add_interned I news len haddr
    exact ⟨t', p, s, he, hs, hv⟩
  · intro bs hbs
    obtain ⟨t', he, -, hself, -⟩ := remove_interned I hbs
    exact ⟨t', he, hself⟩

/-- Six additions, one of them of bytes that the table has and one of bytes with a NUL, make the
table grow; the removed string was neither first nor last added. -/
def growingRun : List StringOp :=
  [.add [97] 1 10, .add [97, 0, 98] 3 11, .add [97, 0, 99] 3 12, .add [97, 0] (-1) 13,
    .add [98] 1 14, .add [99] 1 15, .remove 12]

theorem strings_interned_growingRun :
    ∃ t, runOps growingRun = some t ∧ t.numofslots = 8 ∧ t.slotused = 4 ∧
      ∀ p s, t.heap p = some s → t.find s.val = some (some p) := by
  have hrun : (runOps growingRun).map (fun t => (t.numofslots, t.slotused)) = some (8, 4) := by
    decide +kernel
  obtain ⟨t, ht, heq⟩ := Option.map_eq_some_iff.mp hrun
  obtain ⟨hslots, hused⟩ := Prod.mk.inj heq
  exact ⟨t, ht, hslots, hused, (strings_interned ht).2.1⟩

end Quirrel.Interning
