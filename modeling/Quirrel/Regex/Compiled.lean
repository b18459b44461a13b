import Quirrel.Regex.Characters

/-!
# The compiler builds

From every pattern the compiler ends within its bound, in an error of its own or in a node array in
which the list that it read is `Built` (`parses_list`).
-/

set_option autoImplicit false

namespace Quirrel.Regex

variable {e e₀ : SQRex}

/-! ## Classes -/

/-- A node without a link at the end keeps links rising. -/
theorem Rising.append {nodes : List SQRexNode} {lo : Nat} {n : SQRexNode}
    (h : Rising nodes lo nodes.length) (hn : n.next = -1) :
    Rising (nodes ++ [n]) lo (nodes ++ [n]).length := by
  intro k hk hk'
  rw [List.length_append, List.length_singleton] at hk' ⊢
  rcases Nat.lt_succ_iff_lt_or_eq.mp hk' with hlt | rfl
  · obtain ⟨m, hm, hnext⟩ := h k hk hlt
    refine ⟨m, by rwa [List.getElem?_append_left hlt], hnext.imp_right ?_⟩
    rintro ⟨j, hj, hkj, hjlt⟩
    exact ⟨j, hj, hkj, hjlt.trans (Nat.lt_succ_self _)⟩
  · exact ⟨n, List.getElem?_concat_length, Or.inl hn⟩

/-- A node with a link further on keeps links rising. -/
theorem Rising.set {nodes : List SQRexNode} {lo hi i : Nat} {n : SQRexNode}
    (h : Rising nodes lo hi) (hn : n.next = -1 ∨ ∃ j : Nat, n.next = j ∧ i < j ∧ j < hi) :
    Rising (nodes.set i n) lo hi := by
  intro k hk hk'
  obtain ⟨m, hm, hnext⟩ := h k hk hk'
  rcases eq_or_ne i k with rfl | hne
  · exact ⟨n, List.getElem?_set_self (List.getElem?_eq_some_iff.mp hm).1, hn⟩
  · exact ⟨m, by rwa [List.getElem?_set_ne hne], hnext⟩

/-- The class that was begun in the state `e₀`: its head is the first node after those of `e₀`, and
the nodes are linked up to `chain`. The character `first` is in the array and not linked. -/
structure SQRex.InClass (e₀ : SQRex) (chain : Nat) (first : Option Nat) (e : SQRex) : Prop where
  agree : Agree e₀.nodes e.nodes 0 e₀.nodes.length
  nsubexpr : e.nsubexpr = e₀.nsubexpr
  shorter : e.p.length ≤ e₀.p.length
  rising : Rising e.nodes e₀.nodes.length e.nodes.length
  le_chain : e₀.nodes.length ≤ chain
  chain_lt : chain < e.nodes.length
  first_mem : ∀ f, first = some f → chain < f ∧ f < e.nodes.length
  head : ∃ n, e.nodes[e₀.nodes.length]? = some n ∧ n.type.isSet = true ∧
    (chain = e₀.nodes.length ∨ n.next ≠ -1)

namespace SQRex.InClass

variable {chain : Nat} {first : Option Nat}

theorem of_reads {e' : SQRex} (h : e₀.InClass chain first e) (hnodes : e'.nodes = e.nodes)
    (hsub : e'.nsubexpr = e.nsubexpr) (hp : e'.p.length ≤ e.p.length) :
    e₀.InClass chain first e' where
  agree := hnodes ▸ h.agree
  nsubexpr := hsub.trans h.nsubexpr
  shorter := hp.trans h.shorter
  rising := hnodes ▸ h.rising
  le_chain := h.le_chain
  chain_lt := hnodes ▸ h.chain_lt
  first_mem := hnodes ▸ h.first_mem
  head := hnodes ▸ h.head

/-- A class has its own node. -/
theorem base_lt (h : e₀.InClass chain first e) : e₀.nodes.length < e.nodes.length :=
  h.le_chain.trans_lt h.chain_lt

/-- A new node can be the next one to link. -/
theorem append {e' : SQRex} {n : SQRexNode} {first' : Option Nat} (h : e₀.InClass chain first e)
    (hnodes : e'.nodes = e.nodes ++ [n]) (hn : n.next = -1) (hsub : e'.nsubexpr = e.nsubexpr)
    (hp : e'.p.length ≤ e.p.length) (hfirst : first' = first ∨ first' = some e.nodes.length) :
    e₀.InClass chain first' e' where
  agree := fun k hk hk' => by
    rw [hnodes, List.getElem?_append_left (hk'.trans h.base_lt)]
    exact h.agree k hk hk'
  nsubexpr := hsub.trans h.nsubexpr
  shorter := hp.trans h.shorter
  rising := hnodes ▸ h.rising.append hn
  le_chain := h.le_chain
  chain_lt := by
    rw [hnodes, List.length_append]
    exact h.chain_lt.trans_le (Nat.le_add_right _ _)
  first_mem := by
    intro f hf
    rw [hnodes, List.length_append, List.length_singleton]
    rcases hfirst with rfl | rfl
    · exact ⟨(h.first_mem f hf).1, (h.first_mem f hf).2.trans (Nat.lt_succ_self _)⟩
    · cases hf
      exact ⟨h.chain_lt, Nat.lt_succ_self _⟩
  head := by
    rw [hnodes, List.getElem?_append_left h.base_lt]
    exact h.head

/-- A later node of the array may get another `left` and `right`. -/
theorem put {i : Nat} {n m : SQRexNode} (h : e₀.InClass chain first e) (hi : e₀.nodes.length < i)
    (hn : e.nodes[i]? = some n) (hnext : m.next = n.next) : e₀.InClass chain first (e.put i m) where
  agree := fun k hk hk' => by
    rw [SQRex.put, List.getElem?_set_ne (hk'.trans hi).ne']
    exact h.agree k hk hk'
  nsubexpr := h.nsubexpr
  shorter := h.shorter
  rising := by
    have hlt := (List.getElem?_eq_some_iff.mp hn).1
    obtain ⟨n', hn', hrise⟩ := h.rising i hi.le hlt
    cases hn.symm.trans hn'
    rw [SQRex.put, List.length_set]
    exact h.rising.set (hnext ▸ hrise)
  le_chain := h.le_chain
  chain_lt := by
    rw [SQRex.put, List.length_set]
    exact h.chain_lt
  first_mem := by
    rw [SQRex.put, List.length_set]
    exact h.first_mem
  head := by
    rw [SQRex.put, List.getElem?_set_ne hi.ne']
    exact h.head

/-- The chain goes on with a later node. -/
theorem link {j : Nat} {n : SQRexNode} (h : e₀.InClass chain first e)
    (hn : e.nodes[chain]? = some n) (hj : chain < j) (hlt : j < e.nodes.length) :
    e₀.InClass j none (e.put chain { n with next := j }) where
  agree := fun k hk hk' => by
    rw [SQRex.put, List.getElem?_set_ne (hk'.trans_le h.le_chain).ne']
    exact h.agree k hk hk'
  nsubexpr := h.nsubexpr
  shorter := h.shorter
  rising := by
    rw [SQRex.put, List.length_set]
    exact h.rising.set (Or.inr ⟨j, rfl, hj, hlt⟩)
  le_chain := h.le_chain.trans hj.le
  chain_lt := by
    rw [SQRex.put, List.length_set]
    exact hlt
  first_mem := nofun
  head := by
    obtain ⟨m, hm, hset, hnext⟩ := h.head
    rcases eq_or_ne chain e₀.nodes.length with heq | hne
    · rw [heq] at hn
      cases hm.symm.trans hn
      refine ⟨{ n with next := j }, ?_, hset, Or.inr fun hneg => ?_⟩
      · rw [heq]
        exact SQRex.put_self _ hm
      · cases hneg
    · refine ⟨m, ?_, hset, Or.inr (hnext.resolve_left hne)⟩
      rw [SQRex.put, List.getElem?_set_ne hne]
      exact hm

end SQRex.InClass

theorem getElem?_of_lt {nodes : List SQRexNode} {i : Nat} (h : i < nodes.length) :
    ∃ n, nodes[i]? = some n :=
  ⟨nodes[i], List.getElem?_eq_getElem h⟩

/-- A node that is added for a range, with its ends, is not a class of characters. -/
theorem SQRex.InClass.range {chain f : Nat} (h : e₀.InClass chain (some f) e) {left : Int}
    (right : Int) {e' : SQRex} (hread : (SQRex.put (e.push .opRange) e.nodes.length
      { (e.fresh .opRange) with left := left }).Reads e') :
    e₀.InClass chain (some f) (e'.put e.nodes.length
      { (e.fresh .opRange) with left := left, right := right }) := by
  have hpush : e₀.InClass chain (some f) (e.push .opRange) :=
    h.append (n := e.fresh .opRange) rfl rfl rfl (Nat.le_refl _) (Or.inl rfl)
  have hleft := hpush.put (m := { (e.fresh .opRange) with left := left }) h.base_lt (e.push_last _) rfl
  have hread' := hleft.of_reads hread.nodes hread.nsubexpr hread.shorter.le
  refine hread'.put h.base_lt ?_ rfl (n := { (e.fresh .opRange) with left := left })
  rw [hread.nodes]
  exact SQRex.put_self _ (e.push_last _)

/-- The class is not empty: a character was read, or the next one is not its end. -/
def SQRex.Begun (e₀ : SQRex) (chain : Nat) (first : Option Nat) (e : SQRex) : Prop :=
  first.isSome = true ∨ e₀.nodes.length < chain ∨ e.head ≠ code ']'

/-- The loop over a class adds nodes in a rising list. -/
theorem parses_classLoop {fuel chain : Nat} {first : Option Nat} (h : e₀.InClass chain first e)
    (hbegun : e₀.Begun chain first e) (hfuel : e.p.length < fuel) :
    Parses (classLoop fuel chain first) e fun r e' =>
      e₀.InClass r.1 r.2 e' ∧ e₀.Begun r.1 r.2 e' ∧ (e'.head = code ']' ∨ e'.head = 0) := by
  induction fuel generalizing e chain first with
  | zero => exact absurd hfuel (Nat.not_lt_zero _)
  | succ fuel ih =>
    have hrest : ∀ {e' : SQRex}, e'.p.length < e.p.length → e'.p.length < fuel :=
      fun hp => hp.trans_le (Nat.lt_succ_iff.mp hfuel)
    refine .peek_bind (.ite (fun hend => .pure ⟨h, hbegun, hend⟩) fun hgo => ?_)
    cases first with
    | none =>
      refine (parses_charnode true).bind fun i e' hleaf => ?_
      obtain ⟨n, hnodes, hnext, -⟩ := hleaf.nodes
      refine ih ?_ (Or.inl rfl) (hrest hleaf.shorter)
      exact h.append hnodes hnext hleaf.nsubexpr hleaf.shorter.le (Or.inr (congrArg some hleaf.index))
    | some f =>
      obtain ⟨hchain, hf⟩ := h.first_mem f rfl
      obtain ⟨n, hn⟩ := getElem?_of_lt h.chain_lt
      refine .ite (fun hdash => ?_) fun _ => ?_
      · -- a range: its node is linked, the character it starts with is not
        have hskip : e.skip.p.length < e.p.length := SQRex.skip_lt_of_eq hdash (by decide)
        obtain ⟨start, hstart⟩ := getElem?_of_lt hf
        have hpushed : (e.skip.push .opRange).nodes[f]? = some start :=
          (List.getElem?_append_left hf).trans hstart
        refine .advance_bind (.peek_bind (.errorIf_bind fun _ => .newnode_bind ?_))
        refine .node_bind hpushed (.errorIf_bind fun _ => .setLeft_bind (SQRex.push_last e.skip _) ?_)
        refine parses_escapechar.bind fun t e' hread => .errorIf_bind fun _ => ?_
        have hnode : e'.nodes[e.skip.nodes.length]? =
            some { (e.skip.fresh .opRange) with left := start.type.value } := by
          rw [hread.nodes]
          exact SQRex.put_self _ (SQRex.push_last e.skip _)
        refine .setRight_bind hnode ?_
        have hafter : e₀.InClass chain (some f) e.skip := h.of_reads rfl rfl hskip.le
        have hin := hafter.range t hread
        obtain ⟨m, hm⟩ := getElem?_of_lt hin.chain_lt
        refine .setNext_bind hm ?_
        have hlink := hin.link hm h.chain_lt (by
          rw [SQRex.put, List.length_set]
          exact (List.getElem?_eq_some_iff.mp hnode).1)
        refine ih hlink (Or.inr (Or.inl h.base_lt)) (hrest ?_)
        exact hread.shorter.trans hskip
      · refine .setNext_bind hn ((parses_charnode true).bind fun i e' hleaf => ?_)
        have hlink := h.link hn hchain hf
        obtain ⟨m, hnodes, hnext, -⟩ := hleaf.nodes
        refine ih ?_ (Or.inl rfl) (hrest hleaf.shorter)
        exact hlink.append hnodes hnext hleaf.nsubexpr hleaf.shorter.le
          (Or.inr (congrArg some hleaf.index))

/-! ## What a part of the pattern adds -/

/-- `e'` has read a part of the pattern and built `part` after the nodes of `e`. -/
structure SQRex.Adds (e : SQRex) (part : Part) (e' : SQRex) : Prop where
  agree : Agree e.nodes e'.nodes 0 e.nodes.length
  nsubexpr : e.nsubexpr ≤ e'.nsubexpr
  built : Built e'.nsubexpr e'.nodes part e.nodes.length e'.nodes.length

/-- A node that is not linked yet. -/
structure SQRex.AddsItem (e : SQRex) (i : Nat) (e' : SQRex) : Prop extends e.Adds (.item i) e' where
  unlinked : ∃ n, e'.nodes[i]? = some n ∧ n.next = -1

theorem SQRex.AddsLeaf.addsItem {i : Nat} (h : e₀.AddsLeaf i e) : e₀.AddsItem i e where
  agree := by
    obtain ⟨n, hnodes, -, -⟩ := h.nodes
    intro k _ hk
    rw [hnodes, List.getElem?_append_left hk]
  nsubexpr := h.nsubexpr.ge
  built := by
    obtain ⟨n, hnodes, -, hleaf⟩ := h.nodes
    rw [h.index, hnodes, List.length_append, List.length_singleton]
    exact .leaf List.getElem?_concat_length hleaf
  unlinked := by
    obtain ⟨n, hnodes, hnext, -⟩ := h.nodes
    rw [h.index, hnodes]
    exact ⟨n, List.getElem?_concat_length, hnext⟩

/-- The end of a class: what its head was linked to becomes its `left`. -/
theorem SQRex.InClass.close {chain : Nat} {n : SQRexNode} (h : e₀.InClass chain none e)
    (hn : e.nodes[e₀.nodes.length]? = some n) (hne : e₀.nodes.length < chain) :
    e₀.AddsItem e₀.nodes.length
      ((e.put e₀.nodes.length { n with left := n.next }).put e₀.nodes.length
        { n with left := n.next, next := -1 }) := by
  have hself := SQRex.put_self { n with left := n.next, next := -1 }
    (SQRex.put_self { n with left := n.next } hn)
  have hagree : ∀ lo hi, e₀.nodes.length < lo ∨ hi ≤ e₀.nodes.length → Agree e.nodes
      ((e.put e₀.nodes.length { n with left := n.next }).put e₀.nodes.length
        { n with left := n.next, next := -1 }).nodes lo hi := by
    intro lo hi hor k hk hk'
    have hne : e₀.nodes.length ≠ k := by
      rcases hor with hlo | hhi
      · exact (hlo.trans_le hk).ne
      · exact (hk'.trans_le hhi).ne'
    exact (List.getElem?_set_ne hne).trans (List.getElem?_set_ne hne)
  obtain ⟨m, hm, hset, hnext⟩ := h.head
  cases hn.symm.trans hm
  obtain ⟨m, hm, hrise⟩ := h.rising _ (Nat.le_refl _) h.base_lt
  cases hn.symm.trans hm
  obtain ⟨j, hj, hlt, hjlt⟩ := hrise.resolve_left (hnext.resolve_left hne.ne')
  refine ⟨⟨fun k hk hk' => ?_, h.nsubexpr.ge, ?_⟩, _, hself, rfl⟩
  · exact (hagree 0 _ (Or.inr (Nat.le_refl _)) k hk hk').trans (h.agree k hk hk')
  · rw [SQRex.put, SQRex.put, List.length_set, List.length_set]
    refine .set hself hset hj hlt hjlt ?_
    exact Rising.frame (fun k hk hk' => h.rising k (Nat.le_of_succ_le hk) hk')
      (hagree _ _ (Or.inl (Nat.lt_succ_self _)))

/-- The end of a class gives it its list. -/
theorem parses_closeClass {chain : Nat} {first : Option Nat} (h : e₀.InClass chain first e)
    (hbegun : e₀.Begun chain first e) (hend : e.head = code ']' ∨ e.head = 0) :
    Parses (closeClass e₀.nodes.length chain first) e fun _ e' =>
      e₀.AddsItem e₀.nodes.length e' ∧ e'.p.length ≤ e₀.p.length := by
  refine .peek_bind (.errorIf_bind fun hzero => ?_)
  cases first with
  | some f =>
    obtain ⟨hchain, hf⟩ := h.first_mem f rfl
    obtain ⟨n, hn⟩ := getElem?_of_lt h.chain_lt
    refine .setNext_bind hn ?_
    have hlink := h.link hn hchain hf
    obtain ⟨m, hm⟩ := getElem?_of_lt hlink.base_lt
    refine .node_bind hm (.setLeft_bind hm ?_)
    refine parses_setNext (SQRex.put_self _ hm) ?_
    exact ⟨hlink.close hm (h.le_chain.trans_lt hchain), hlink.shorter⟩
  | none =>
    have hne : e₀.nodes.length < chain := by
      rcases hbegun with hsome | hlt | hne
      · cases hsome
      · exact hlt
      · exact absurd (hend.resolve_right hzero) hne
    obtain ⟨m, hm⟩ := getElem?_of_lt h.base_lt
    refine .node_bind hm (.setLeft_bind hm ?_)
    refine parses_setNext (SQRex.put_self _ hm) ?_
    exact ⟨h.close hm hne, h.shorter⟩

theorem SQRex.InClass.of_push {type : NodeType} (ht : type.isSet = true)
    (hsub : (e.push type).nsubexpr = e.nsubexpr) :
    e.InClass e.nodes.length none (e.push type) where
  agree := fun _ _ hk => List.getElem?_append_left hk
  nsubexpr := hsub
  shorter := Nat.le_refl _
  rising := by
    have hnil : Rising e.nodes e.nodes.length e.nodes.length :=
      fun _ hk hk' => absurd hk' (Nat.not_lt.mpr hk)
    exact hnil.append rfl
  le_chain := Nat.le_refl _
  chain_lt := by
    rw [push, List.length_append]
    exact Nat.lt_succ_self _
  first_mem := nofun
  head := ⟨_, e.push_last _, ht, Or.inl rfl⟩

/-- The head of a class is one node. -/
theorem parses_classHead :
    Parses classHead e fun i e' => i = e.nodes.length ∧ e.InClass i none e' := by
  refine .peek_bind (.ite (fun _ => ?_) fun _ => ?_)
  · refine .newnode_bind (.advance_bind (.pure ⟨rfl, ?_⟩))
    exact (SQRex.InClass.of_push rfl rfl).of_reads rfl rfl (SQRex.skip_le _)
  · refine (parses_newnode _).mono ?_
    rintro _ _ ⟨rfl, rfl⟩
    exact ⟨rfl, .of_push rfl rfl⟩

/-- A class of characters is one item. -/
theorem parses_charset {fuel : Nat} (hfuel : e.p.length < fuel) :
    Parses (charset fuel) e fun i e' => e.AddsItem i e' ∧ e'.p.length ≤ e.p.length := by
  refine parses_classHead.bind ?_
  rintro _ e' ⟨rfl, hin⟩
  refine .peek_bind (.errorIf_bind fun hne => ?_)
  refine (parses_classLoop hin (Or.inr (Or.inr hne)) (hin.shorter.trans_lt hfuel)).bind ?_
  rintro ⟨chain, first⟩ e'' ⟨hin', hbegun, hend⟩
  exact (parses_closeClass hin' hbegun hend).bind fun _ _ h => .pure h

/-! ## Quantifiers -/

/-- Nothing but `_p` is different, and that is not before where it was. -/
structure SQRex.Keeps (e e' : SQRex) : Prop where
  nodes : e'.nodes = e.nodes
  nsubexpr : e'.nsubexpr = e.nsubexpr
  shorter : e'.p.length ≤ e.p.length

theorem SQRex.Keeps.refl (e : SQRex) : e.Keeps e := ⟨rfl, rfl, Nat.le_refl _⟩

theorem SQRex.Keeps.skip (h : e₀.Keeps e) : e₀.Keeps e.skip :=
  ⟨h.nodes, h.nsubexpr, e.skip_le.trans h.shorter⟩

/-- An expected character is passed. -/
theorem parses_expect (c : Char) : Parses (expect c) e fun _ e' => e' = e.skip :=
  .peek_bind (.errorIf_bind fun _ => Lib.Fallible.Ensures.modifyGet rfl)

/-- Digits build nothing. -/
theorem parses_digits {fuel : Nat} {ret positions : Int} (h : e₀.Keeps e) (hfuel : e.p.length < fuel) :
    Parses (digits fuel ret positions) e fun _ e' => e₀.Keeps e' := by
  induction fuel generalizing e ret positions with
  | zero => exact absurd hfuel (Nat.not_lt_zero _)
  | succ fuel ih =>
    refine .peek_bind (.ite (fun hdigit => ?_) fun _ => .pure h)
    refine .advance_bind (.errorIf_bind fun _ => ih h.skip ?_)
    exact (e.skip_lt (isdigit_ne_zero hdigit)).trans_le (Nat.lt_succ_iff.mp hfuel)

/-- A bound builds nothing. -/
theorem parses_bound {fuel : Nat} (h : e₀.Keeps e) (hfuel : e.p.length < fuel) :
    Parses (bound fuel) e fun _ e' => e₀.Keeps e' := by
  refine Parses.bind (Q := fun _ e' => e₀.Keeps e') ?_ fun _ _ h' => .errorIf_bind fun _ => .pure h'
  exact .peek_bind (.advance_bind (parses_digits h.skip (e.skip_le.trans_lt hfuel)))

/-- An upper bound builds nothing. -/
theorem parses_upperBound {fuel : Nat} (h : e₀.Keeps e) (hfuel : e.p.length < fuel) :
    Parses (upperBound fuel) e fun _ e' => e₀.Keeps e' :=
  .peek_bind (.ite (fun _ => parses_bound h hfuel) fun _ => .pure h)

/-- Bounds in braces build nothing. -/
theorem parses_braces {fuel : Nat} (h : e₀.Keeps e) (hfuel : e₀.p.length < fuel) :
    Parses (braces fuel) e fun _ e' => e₀.Keeps e' := by
  refine .peek_bind (.errorIf_bind fun _ => ?_)
  refine (parses_bound h (h.shorter.trans_lt hfuel)).bind fun p0 e' h' => .peek_bind ?_
  refine .ite (fun _ => .advance_bind (.pure h'.skip)) fun _ => .ite (fun _ => ?_) fun _ =>
    parses_error _
  refine .advance_bind ((parses_upperBound h'.skip (h'.skip.shorter.trans_lt hfuel)).bind ?_)
  intro p1 e'' h''
  refine (parses_expect _).bind ?_
  rintro _ _ rfl
  exact .errorIf_bind fun _ => .pure h''.skip

/-- A quantifier builds nothing. -/
theorem parses_quantifier {fuel : Nat} (hfuel : e.p.length < fuel) :
    Parses (quantifier fuel) e fun _ e' => e.Keeps e' := by
  have hskip : e.Keeps e.skip := (SQRex.Keeps.refl e).skip
  refine .peek_bind (.ite (fun _ => .advance_bind (.pure hskip)) fun _ => ?_)
  refine .ite (fun _ => .advance_bind (.pure hskip)) fun _ => ?_
  refine .ite (fun _ => .advance_bind (.pure hskip)) fun _ => ?_
  refine .ite (fun _ => .advance_bind ?_) fun _ => .pure (.refl e)
  exact Parses.map (R := fun _ e' => e.Keeps e') some (parses_braces hskip hfuel)

/-- The node of a quantifier over the node that was built before it. -/
theorem SQRex.AddsItem.greedy {i : Nat} {n : SQRexNode} (h : e₀.AddsItem i e)
    (hn : n.type = .opGreedy) (hleft : n.left = i) (hnext : n.next = -1) {e' : SQRex}
    (hnodes : e'.nodes = e.nodes ++ [n]) (hsub : e'.nsubexpr = e.nsubexpr) :
    e₀.AddsItem e.nodes.length e' := by
  have hmem := h.built.index_mem
  have hagree : Agree e.nodes e'.nodes 0 e.nodes.length := fun k _ hk => by
    rw [hnodes, List.getElem?_append_left hk]
  obtain ⟨m, hm, hlast⟩ := h.unlinked
  have hself : e'.nodes[e.nodes.length]? = some n := by
    rw [hnodes, List.getElem?_concat_length]
  refine ⟨⟨fun k hk hk' => ?_, hsub ▸ h.nsubexpr, ?_⟩, n, hself, hnext⟩
  · exact (hagree k hk (hk'.trans h.built.lt)).trans (h.agree k hk hk')
  · have hlen : e'.nodes.length = e.nodes.length + 1 := by
      rw [hnodes, List.length_append, List.length_singleton]
    rw [hlen]
    refine .greedy hself hn hleft ((hagree i (Nat.zero_le _) hmem.2).trans hm) hlast ?_
    exact h.built.frame (hagree.mono (Nat.zero_le _) (Nat.le_refl _)) hsub.ge

/-- A quantified item is an item. -/
theorem parses_quantify {i : Nat} (h : e₀.AddsItem i e) (quant : Option (Int × Int)) :
    Parses (quantify i quant) e fun i' e' => e₀.AddsItem i' e' ∧ e'.p = e.p := by
  cases quant with
  | none => exact .pure ⟨h, rfl⟩
  | some bounds =>
    obtain ⟨p0, p1⟩ := bounds
    have hpush := e.push_last .opGreedy
    refine .newnode_bind (.setLeft_bind hpush (.setRight_bind (SQRex.put_self _ hpush) (.pure ⟨?_, rfl⟩)))
    refine h.greedy (n := ⟨.opGreedy, i, p0 * 0x10000 + p1, -1⟩) rfl rfl rfl ?_ rfl
    show ((e.nodes ++ [e.fresh .opGreedy]).set e.nodes.length _).set e.nodes.length _ = _
    rw [List.set_set, List.set_append_right _ _ (Nat.le_refl _), Nat.sub_self, List.set_cons_zero]
    rfl

/-! ## Elements and lists -/

theorem SQRex.AddsItem.chain {i : Nat} (h : e₀.AddsItem i e) : e₀.Adds (.chain i) e where
  agree := h.agree
  nsubexpr := h.nsubexpr
  built := by
    obtain ⟨n, hn, hnext⟩ := h.unlinked
    exact .last hn hnext h.built

/-- The `next` of a node becomes the chain that was built after it. -/
theorem SQRex.AddsItem.link {i j : Nat} {n : SQRexNode} {e' : SQRex} (h : e₀.AddsItem i e)
    (hchain : e.Adds (.chain j) e') (hn : e'.nodes[i]? = some n) :
    e₀.Adds (.chain i) (e'.put i { n with next := j }) := by
  have hmem := h.built.index_mem
  have hitem : Built e'.nsubexpr e'.nodes (.item i) e₀.nodes.length e.nodes.length :=
    h.built.frame (hchain.agree.mono (Nat.zero_le _) (Nat.le_refl _)) hchain.nsubexpr
  refine ⟨fun k hk hk' => ?_, h.nsubexpr.trans hchain.nsubexpr, ?_⟩
  · refine (Agree.set_of_le _ hmem.1 k hk hk').trans ?_
    exact (hchain.agree k hk (hk'.trans h.built.lt)).trans (h.agree k hk hk')
  · rw [SQRex.put, List.length_set]
    refine .next (SQRex.put_self _ hn) rfl (hitem.setNext hn j) ?_
    exact hchain.built.frame (.set_of_lt _ hmem.2) (Nat.le_refl _)

/-- A group around the list that was built after its node. -/
theorem SQRex.Adds.group {j : Nat} {type : NodeType} {e' : SQRex}
    (h : (e.push type).Adds (.chain j) e')
    (ht : type = .opExpr ∨ type = .opNocapexpr) (x : Int) (hx : x = j) :
    e.AddsItem e.nodes.length (e'.put e.nodes.length { (e.fresh type) with left := x }) := by
  have hlen : (e.push type).nodes.length = e.nodes.length + 1 := List.length_append
  have hnode : e'.nodes[e.nodes.length]? = some (e.fresh type) :=
    (h.agree _ (Nat.zero_le _) (by rw [hlen]; exact Nat.lt_succ_self _)).trans (e.push_last type)
  have hself := SQRex.put_self { (e.fresh type) with left := x } hnode
  have hpush : e.nsubexpr ≤ (e.push type).nsubexpr := by
    rw [SQRex.push]
    dsimp only
    split
    · exact Nat.le_succ _
    · exact Nat.le_refl _
  refine ⟨⟨fun k hk hk' => ?_, hpush.trans h.nsubexpr, ?_⟩, _, hself, rfl⟩
  · refine (Agree.set_of_le _ (Nat.le_refl _) k hk hk').trans ?_
    exact (h.agree k hk (hlen ▸ Nat.lt_succ_of_lt hk')).trans (List.getElem?_append_left hk')
  · rw [SQRex.put, List.length_set]
    have hbuilt := h.built
    rw [hlen] at hbuilt
    refine .group hself ?_ hx (hbuilt.frame (.set_of_lt _ (Nat.lt_succ_self _)) (Nat.le_refl _))
    rcases ht with rfl | rfl
    · refine Or.inr ⟨rfl, Int.natCast_nonneg _, Int.ofNat_lt.mpr ?_⟩
      exact Nat.lt_of_succ_le h.nsubexpr
    · exact Or.inl rfl

/-- An alternative between the list that was built before its node and the one after it. -/
theorem SQRex.Adds.or {j k : Nat} {e₁ e' : SQRex} (h : e₀.Adds (.chain j) e)
    (hpush : e₁ = (e.push .opOr).put e.nodes.length { (e.fresh .opOr) with left := j })
    (h' : e₁.Adds (.chain k) e') :
    e₀.Adds (.chain e.nodes.length)
      (e'.put e.nodes.length { (e.fresh .opOr) with left := j, right := k }) := by
  have hlen : e₁.nodes.length = e.nodes.length + 1 := by
    rw [hpush, SQRex.put, List.length_set, SQRex.push, List.length_append, List.length_singleton]
  have hagree : Agree e.nodes e₁.nodes 0 e.nodes.length := fun i _ hi => by
    rw [hpush, SQRex.put, List.getElem?_set_ne hi.ne']
    exact List.getElem?_append_left hi
  have hnode : e'.nodes[e.nodes.length]? = some { (e.fresh .opOr) with left := j } := by
    rw [h'.agree _ (Nat.zero_le _) (by rw [hlen]; exact Nat.lt_succ_self _), hpush]
    exact SQRex.put_self _ (e.push_last _)
  have hself := SQRex.put_self { (e.fresh .opOr) with left := (j : Int), right := (k : Int) } hnode
  have hsub : e.nsubexpr ≤ e'.nsubexpr := by
    refine Nat.le_trans ?_ h'.nsubexpr
    rw [hpush]
    exact Nat.le_refl _
  have hall : Agree e.nodes e'.nodes 0 e.nodes.length := fun i hi hi' =>
    (h'.agree i hi (by rw [hlen]; exact Nat.lt_succ_of_lt hi')).trans (hagree i hi hi')
  have hlt := h.built.lt
  refine ⟨fun i hi hi' => ?_, h.nsubexpr.trans hsub, .last hself rfl ?_⟩
  · refine (Agree.set_of_le _ hlt.le i hi hi').trans ?_
    exact (hall i hi (hi'.trans hlt)).trans (h.agree i hi hi')
  · rw [SQRex.put, List.length_set]
    have hright := h'.built
    rw [hlen] at hright
    refine .or hself rfl rfl rfl ?_ (hright.frame (.set_of_lt _ (Nat.lt_succ_self _)) (Nat.le_refl _))
    refine (h.built.frame (hall.mono (Nat.zero_le _) (Nat.le_refl _)) hsub).frame ?_ (Nat.le_refl _)
    exact .set_of_le _ (Nat.le_refl _)

/-- The nodes that were there stay. -/
theorem SQRex.Adds.getElem? {i : Nat} {part : Part} {e' : SQRex} {n : SQRexNode}
    (h : e.Adds part e') (hn : e.nodes[i]? = some n) : e'.nodes[i]? = some n :=
  (h.agree i (Nat.zero_le _) (List.getElem?_eq_some_iff.mp hn).1).trans hn

/-- What the functions of the recursion do with a bound that is large enough for what is left of the
pattern. -/
structure Compiles (fuel : Nat) : Prop where
  atom : ∀ e : SQRex, 4 * e.p.length + 1 ≤ fuel →
    Parses (atom fuel) e fun i e' => e.AddsItem i e' ∧ e'.p.length < e.p.length
  element : ∀ e : SQRex, 4 * e.p.length + 2 ≤ fuel →
    Parses (element fuel) e fun i e' => e.Adds (.chain i) e' ∧ e'.p.length ≤ e.p.length
  branch : ∀ e : SQRex, 4 * e.p.length + 3 ≤ fuel →
    Parses (branch fuel) e fun i e' => e.Adds (.chain i) e' ∧ e'.p.length ≤ e.p.length
  list : ∀ e : SQRex, 4 * e.p.length + 4 ≤ fuel →
    Parses (list fuel) e fun i e' => e.Adds (.chain i) e' ∧ e'.p.length ≤ e.p.length

/-- The head of a group is one node. -/
theorem parses_openGroup :
    Parses openGroup e fun i e' => ∃ e₁ : SQRex, ∃ type : NodeType,
      e₁.nodes = e.nodes ∧ e₁.nsubexpr = e.nsubexpr ∧ e₁.p.length ≤ e.p.length ∧
        (type = .opExpr ∨ type = .opNocapexpr) ∧ i = e.nodes.length ∧ e' = e₁.push type := by
  refine .peek_bind (.ite (fun _ => .advance_bind ((parses_expect _).bind ?_)) fun _ => ?_)
  · rintro _ _ rfl
    refine (parses_newnode _).mono ?_
    rintro _ _ ⟨rfl, rfl⟩
    exact ⟨e.skip.skip, _, rfl, rfl, e.skip.skip_le.trans e.skip_le, Or.inr rfl, rfl, rfl⟩
  · refine (parses_newnode _).mono ?_
    rintro _ _ ⟨rfl, rfl⟩
    exact ⟨_, _, rfl, rfl, Nat.le_refl _, Or.inl rfl, rfl, rfl⟩

theorem SQRex.AddsItem.of_nodes {i : Nat} {e₁ e' e'' : SQRex} (h : e₁.AddsItem i e')
    (hnodes : e₁.nodes = e.nodes) (hsub : e₁.nsubexpr = e.nsubexpr) (hnodes' : e''.nodes = e'.nodes)
    (hsub' : e''.nsubexpr = e'.nsubexpr) : e.AddsItem i e'' where
  agree := hnodes ▸ hnodes' ▸ h.agree
  nsubexpr := hsub ▸ hsub' ▸ h.nsubexpr
  built := hnodes ▸ hnodes' ▸ hsub' ▸ h.built
  unlinked := hnodes' ▸ h.unlinked

/-- An atom, given what is one level down. -/
theorem Compiles.atom_succ {fuel : Nat} (ih : Compiles fuel) (hfuel : 4 * e.p.length + 1 ≤ fuel + 1) :
    Parses (Regex.atom (fuel + 1)) e fun i e' => e.AddsItem i e' ∧ e'.p.length < e.p.length := by
  rw [Regex.atom]
  refine .peek_bind (.ite (fun hparen => ?_) fun _ => .ite (fun hset => ?_) fun _ => ?_)
  · have hskip := SQRex.skip_lt_of_eq hparen (by decide)
    refine .advance_bind (parses_openGroup.bind ?_)
    rintro _ _ ⟨e₁, type, hnodes, hsub, hp, htype, rfl, rfl⟩
    rw [show e.skip.nodes.length = e₁.nodes.length by rw [hnodes]]
    have hlt : (e₁.push type).p.length < e.p.length := hp.trans_lt hskip
    refine (ih.list (e₁.push type) (by omega)).bind fun j e' hlist => ?_
    have hnode := hlist.1.getElem? (e₁.push_last type)
    refine .setLeft_bind hnode ((parses_expect _).bind ?_)
    rintro _ _ rfl
    refine .pure ⟨(hlist.1.group htype j rfl).of_nodes hnodes hsub rfl rfl, ?_⟩
    exact (SQRex.skip_le _).trans_lt (hlist.2.trans_lt hlt)
  · have hskip := SQRex.skip_lt_of_eq hset (by decide)
    refine .advance_bind ((parses_charset (by omega)).bind fun i e' hclass => ?_)
    refine (parses_expect _).bind ?_
    rintro _ _ rfl
    refine .pure ⟨hclass.1.of_nodes rfl rfl rfl rfl, ?_⟩
    exact (SQRex.skip_le _).trans_lt (hclass.2.trans_lt hskip)
  · refine .ite (fun heol => ?_) fun _ => .ite (fun hdot => ?_) fun _ => ?_
    · have hskip := SQRex.skip_lt_of_eq heol (by decide)
      have hleaf : Parses (newnode .opEol) e.skip fun i e' => e.AddsLeaf i e' :=
        parses_leaf _ rfl rfl hskip rfl
      exact .advance_bind (hleaf.mono fun _ _ h => ⟨h.addsItem, h.shorter⟩)
    · have hskip := SQRex.skip_lt_of_eq hdot (by decide)
      have hleaf : Parses (newnode .opDot) e.skip fun i e' => e.AddsLeaf i e' :=
        parses_leaf _ rfl rfl hskip rfl
      exact .advance_bind (hleaf.mono fun _ _ h => ⟨h.addsItem, h.shorter⟩)
    · exact (parses_charnode _).mono fun _ _ h => ⟨h.addsItem, h.shorter⟩

/-- An element, given what is one level down. -/
theorem Compiles.element_succ {fuel : Nat} (ih : Compiles fuel)
    (hfuel : 4 * e.p.length + 2 ≤ fuel + 1) :
    Parses (Regex.element (fuel + 1)) e fun i e' =>
      e.Adds (.chain i) e' ∧ e'.p.length ≤ e.p.length := by
  rw [Regex.element]
  refine .modify_bind (.get_bind (.errorIf_bind fun _ => .errorIf_bind fun _ => ?_))
  refine (ih.atom { e with depth := e.depth + 1 } (Nat.le_of_succ_le_succ hfuel)).bind ?_
  intro i e₁ hatom
  have hlt : e₁.p.length < e.p.length := hatom.2
  refine (parses_quantifier (by omega)).bind fun quant e₂ hquant => ?_
  have hitem : e.AddsItem i e₂ := hatom.1.of_nodes rfl rfl hquant.nodes hquant.nsubexpr
  refine (parses_quantify hitem quant).bind fun i' e₃ hq => .peek_bind ?_
  have hlt₃ : e₃.p.length < e.p.length := (hq.2 ▸ hquant.shorter).trans_lt hlt
  refine .ite (fun _ => ?_) fun _ => ?_
  · have hchain := hq.1.chain
    exact .modify_bind (.pure ⟨⟨hchain.agree, hchain.nsubexpr, hchain.built⟩, hlt₃.le⟩)
  · refine (ih.element e₃ (by omega)).bind fun j e₄ hrest => ?_
    obtain ⟨n, hn, -⟩ := hq.1.unlinked
    refine .setNext_bind (hrest.1.getElem? hn) (.modify_bind (.pure ?_))
    have hlink := hq.1.link hrest.1 (hrest.1.getElem? hn)
    exact ⟨⟨hlink.agree, hlink.nsubexpr, hlink.built⟩, hrest.2.trans hlt₃.le⟩

/-- A branch, given what is one level down. -/
theorem Compiles.branch_succ {fuel : Nat} (ih : Compiles fuel)
    (hfuel : 4 * e.p.length + 3 ≤ fuel + 1) :
    Parses (Regex.branch (fuel + 1)) e fun i e' =>
      e.Adds (.chain i) e' ∧ e'.p.length ≤ e.p.length := by
  rw [Regex.branch]
  refine .peek_bind (.ite (fun hbol => ?_) fun _ => ih.element e (Nat.le_of_succ_le_succ hfuel))
  have hskip := SQRex.skip_lt_of_eq hbol (by decide)
  have hleaf : e.AddsLeaf e.nodes.length (e.skip.push .opBol) :=
    SQRex.AddsLeaf.of_push (e := e.skip) rfl rfl hskip rfl
  refine .advance_bind (.newnode_bind ?_)
  have hp : (e.skip.push .opBol).p.length < e.p.length := hskip
  refine (ih.element (e.skip.push .opBol) (by omega)).bind fun j e₁ hrest => ?_
  have hn := hrest.1.getElem? (e.skip.push_last .opBol)
  refine .setNext_bind hn (.pure ⟨hleaf.addsItem.link hrest.1 hn, hrest.2.trans hp.le⟩)

/-- A list of branches, given what is one level down. -/
theorem Compiles.list_succ {fuel : Nat} (ih : Compiles fuel)
    (hfuel : 4 * e.p.length + 4 ≤ fuel + 1) :
    Parses (Regex.list (fuel + 1)) e fun i e' =>
      e.Adds (.chain i) e' ∧ e'.p.length ≤ e.p.length := by
  rw [Regex.list]
  refine (ih.branch e (Nat.le_of_succ_le_succ hfuel)).bind fun i e₁ hleft => ?_
  refine .peek_bind (.ite (fun hbar => ?_) fun _ => .pure hleft)
  have hskip : e₁.skip.p.length < e.p.length :=
    (SQRex.skip_lt_of_eq hbar (by decide)).trans_le hleft.2
  have hpush := e₁.skip.push_last .opOr
  refine .advance_bind (.newnode_bind (.setLeft_bind hpush ?_))
  refine (ih.list _ ?_).bind fun k e₂ hright => ?_
  · show 4 * e₁.skip.p.length + 4 ≤ fuel
    omega
  · have hn := hright.1.getElem? (SQRex.put_self _ hpush)
    refine .setRight_bind hn (.pure ⟨?_, hright.2.trans hskip.le⟩)
    have hleft' : e.Adds (.chain i) e₁.skip :=
      ⟨hleft.1.agree, hleft.1.nsubexpr, hleft.1.built⟩
    exact hleft'.or rfl hright.1

/-- What each function of the compiler builds, by induction on the fuel. -/
theorem compiles (fuel : Nat) : Compiles fuel := by
  induction fuel with
  | zero => constructor <;> (intro e h; exact absurd h (Nat.not_succ_le_zero _))
  | succ fuel ih =>
    exact ⟨fun _ => ih.atom_succ, fun _ => ih.element_succ, fun _ => ih.branch_succ,
      fun _ => ih.list_succ⟩

/-- What `sqstd_rex_compile` returns for a pattern that it accepts: the root is the group of the
whole array. -/
structure SQRex.Compiled (e : SQRex) : Prop where
  built : Built e.nsubexpr e.nodes (.item 0) 0 e.nodes.length
  unlinked : ∃ n, e.nodes[0]? = some n ∧ n.next = -1

/-- What is compiled is a pattern whose nodes are built. -/
theorem parses_compileM (pattern : CString) :
    Parses (compileM (patternFuel pattern)) ⟨pattern, [], 0, 0⟩ fun _ e' => e'.Compiled := by
  have hpush := SQRex.push_last ⟨pattern, [], 0, 0⟩ .opExpr
  refine .newnode_bind ?_
  refine ((compiles _).list (SQRex.push ⟨pattern, [], 0, 0⟩ .opExpr) (Nat.le_refl _)).bind ?_
  intro j e₁ hlist
  refine .setLeft_bind (hlist.1.getElem? hpush) (.peek_bind ?_)
  have hroot := hlist.1.group (Or.inl rfl) j rfl
  exact .ite (fun _ => parses_error _) fun _ => .pure ⟨hroot.built, hroot.unlinked⟩

/-- The compiler ends for every pattern, and it never runs out of its bound or of the array. -/
theorem compile_compiled (pattern : CString) :
    match compile pattern with
    | .ok e => e.Compiled
    | .error s => ∃ message, s = .error message := by
  have h := parses_compileM pattern
  unfold Parses Lib.Fallible.Ensures at h
  unfold compile
  rcases hc : (compileM (patternFuel pattern)).result ⟨pattern, [], 0, 0⟩ with ⟨r, e⟩
  rw [hc] at h
  cases r with
  | ok a => exact h
  | error s => exact h

end Quirrel.Regex
