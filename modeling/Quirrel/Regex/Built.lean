import Mathlib.Order.Basic
import Mathlib.Algebra.Order.Ring.Int
import Quirrel.Regex.Basic

/-!
# What the compiler builds

`Built` says that a part of a regular expression stands in an interval of the node array: what the
indices in it name is in the interval too, and no node is named twice. So a node whose `next` is set
later is none of those that another part uses (`Built.frame`, `Built.setNext`).
-/

set_option autoImplicit false

namespace Quirrel.Regex

/-- The types whose nodes name no other node by `left` or `right`. -/
def NodeType.isLeaf : NodeType → Bool
  | opGreedy | opOr | opExpr | opNocapexpr | opClass | opNclass => false
  | _ => true

/-- The nodes with a list of characters. -/
def NodeType.isSet : NodeType → Bool
  | opClass | opNclass => true
  | _ => false

/-- A node with what is below it, or with all that `next` leads to too. -/
inductive Part where
  | item (i : Nat)
  | chain (i : Nat)

/-- The index of the first node. -/
def Part.index : Part → Nat
  | item i | chain i => i

/-- A group, and for a capturing one its number. -/
def SQRexNode.IsGroup (n : SQRexNode) (nsubexpr : Nat) : Prop :=
  n.type = .opNocapexpr ∨ n.type = .opExpr ∧ 0 ≤ n.right ∧ n.right < nsubexpr

/-- The `next` of every node between `lo` and `hi` leads on to a later one. -/
def Rising (nodes : List SQRexNode) (lo hi : Nat) : Prop :=
  ∀ k, lo ≤ k → k < hi →
    ∃ n, nodes[k]? = some n ∧ (n.next = -1 ∨ ∃ j : Nat, n.next = j ∧ k < j ∧ j < hi)

/-- What the compiler builds of a part of the pattern, and in which range of nodes. -/
inductive Built (nsubexpr : Nat) (nodes : List SQRexNode) : Part → Nat → Nat → Prop
  | leaf {i : Nat} {n : SQRexNode} : nodes[i]? = some n → n.type.isLeaf = true →
      Built nsubexpr nodes (.item i) i (i + 1)
  | set {i j hi : Nat} {n : SQRexNode} : nodes[i]? = some n → n.type.isSet = true → n.left = j →
      i < j → j < hi → Rising nodes (i + 1) hi → Built nsubexpr nodes (.item i) i hi
  | group {i j hi : Nat} {n : SQRexNode} : nodes[i]? = some n → n.IsGroup nsubexpr → n.left = j →
      Built nsubexpr nodes (.chain j) (i + 1) hi → Built nsubexpr nodes (.item i) i hi
  | greedy {i j lo : Nat} {n m : SQRexNode} : nodes[i]? = some n → n.type = .opGreedy →
      n.left = j → nodes[j]? = some m → m.next = -1 → Built nsubexpr nodes (.item j) lo i →
      Built nsubexpr nodes (.item i) lo (i + 1)
  | or {i j k lo hi : Nat} {n : SQRexNode} : nodes[i]? = some n → n.type = .opOr → n.left = j →
      n.right = k → Built nsubexpr nodes (.chain j) lo i → Built nsubexpr nodes (.chain k) (i + 1) hi →
      Built nsubexpr nodes (.item i) lo hi
  | last {i lo hi : Nat} {n : SQRexNode} : nodes[i]? = some n → n.next = -1 →
      Built nsubexpr nodes (.item i) lo hi → Built nsubexpr nodes (.chain i) lo hi
  | next {i j lo mid hi : Nat} {n : SQRexNode} : nodes[i]? = some n → n.next = j →
      Built nsubexpr nodes (.item i) lo mid → Built nsubexpr nodes (.chain j) mid hi →
      Built nsubexpr nodes (.chain i) lo hi

variable {nsubexpr nsubexpr' lo hi : Nat} {nodes nodes' : List SQRexNode} {part : Part}

/-- The two arrays have the same nodes from `lo` to `hi`. -/
def Agree (nodes nodes' : List SQRexNode) (lo hi : Nat) : Prop :=
  ∀ k, lo ≤ k → k < hi → nodes'[k]? = nodes[k]?

theorem Agree.mono {lo' hi' : Nat} (h : Agree nodes nodes' lo hi) (hlo : lo ≤ lo') (hhi : hi' ≤ hi) :
    Agree nodes nodes' lo' hi' :=
  fun k hk hk' => h k (hlo.trans hk) (hk'.trans_le hhi)

theorem Agree.set_of_lt {i : Nat} (n : SQRexNode) (h : i < lo) :
    Agree nodes (nodes.set i n) lo hi :=
  fun _ hk _ => List.getElem?_set_ne (h.trans_le hk).ne

theorem Agree.set_of_le {i : Nat} (n : SQRexNode) (h : hi ≤ i) :
    Agree nodes (nodes.set i n) lo hi :=
  fun _ _ hk => List.getElem?_set_ne (hk.trans_le h).ne'

theorem Rising.frame (h : Rising nodes lo hi) (hagree : Agree nodes nodes' lo hi) :
    Rising nodes' lo hi := by
  intro k hk hk'
  rw [hagree k hk hk']
  exact h k hk hk'

theorem SQRexNode.IsGroup.mono {n : SQRexNode} (h : n.IsGroup nsubexpr)
    (hle : nsubexpr ≤ nsubexpr') : n.IsGroup nsubexpr' := by
  rcases h with h | ⟨ht, h0, hr⟩
  · exact Or.inl h
  · exact Or.inr ⟨ht, h0, hr.trans_le (Int.ofNat_le.mpr hle)⟩

/-- The first node is in the interval. -/
theorem Built.index_mem (h : Built nsubexpr nodes part lo hi) :
    lo ≤ part.index ∧ part.index < hi := by
  induction h with
  | leaf _ _ => exact ⟨Nat.le_refl _, Nat.lt_succ_self _⟩
  | set _ _ _ hj hhi _ => exact ⟨Nat.le_refl _, hj.trans hhi⟩
  | group _ _ _ _ ih => exact ⟨Nat.le_refl _, (Nat.lt_of_succ_le ih.1).trans ih.2⟩
  | greedy _ _ _ _ _ _ ih => exact ⟨ih.1.trans ih.2.le, Nat.lt_succ_self _⟩
  | or _ _ _ _ _ _ ihl ihr =>
    exact ⟨ihl.1.trans ihl.2.le, (Nat.lt_of_succ_le ihr.1).trans ihr.2⟩
  | last _ _ _ ih => exact ih
  | next _ _ _ _ ih ihr => exact ⟨ih.1, ih.2.trans (ihr.1.trans_lt ihr.2)⟩

theorem Built.lt (h : Built nsubexpr nodes part lo hi) : lo < hi :=
  h.index_mem.1.trans_lt h.index_mem.2

/-- A part depends on the nodes in its interval only. -/
theorem Built.frame (h : Built nsubexpr nodes part lo hi) (hagree : Agree nodes nodes' lo hi)
    (hle : nsubexpr ≤ nsubexpr') : Built nsubexpr' nodes' part lo hi := by
  induction h with
  | leaf hi ht => exact .leaf ((hagree _ (Nat.le_refl _) (Nat.lt_succ_self _)).trans hi) ht
  | set hi ht hl hj hhi hrise =>
    exact .set ((hagree _ (Nat.le_refl _) (hj.trans hhi)).trans hi) ht hl hj hhi
      (hrise.frame (hagree.mono (Nat.le_succ _) (Nat.le_refl _)))
  | group hi hg hl hb ih =>
    have hlt := hb.lt
    exact .group ((hagree _ (Nat.le_refl _) (Nat.lt_of_succ_lt hlt)).trans hi) (hg.mono hle) hl
      (ih (hagree.mono (Nat.le_succ _) (Nat.le_refl _)))
  | greedy hi ht hl hm hnext hb ih =>
    have hmem := hb.index_mem
    exact .greedy ((hagree _ hb.lt.le (Nat.lt_succ_self _)).trans hi) ht hl
      ((hagree _ hmem.1 (Nat.lt_succ_of_lt hmem.2)).trans hm) hnext
      (ih (hagree.mono (Nat.le_refl _) (Nat.le_succ _)))
  | or hi ht hl hr hbl hbr ihl ihr =>
    have hlt := Nat.lt_of_succ_lt hbr.lt
    exact .or ((hagree _ hbl.lt.le hlt).trans hi) ht hl hr
      (ihl (hagree.mono (Nat.le_refl _) hlt.le))
      (ihr (hagree.mono (hbl.lt.le.trans (Nat.le_succ _)) (Nat.le_refl _)))
  | last hi hn hb ih =>
    exact .last ((hagree _ hb.index_mem.1 hb.index_mem.2).trans hi) hn (ih hagree)
  | next hi hn hb hbr ih ihr =>
    exact .next ((hagree _ hb.index_mem.1 (hb.index_mem.2.trans hbr.lt)).trans hi) hn
      (ih (hagree.mono (Nat.le_refl _) hbr.lt.le)) (ihr (hagree.mono hb.lt.le (Nat.le_refl _)))

/-- What is below a node does not depend on its own `next`. -/
theorem Built.setNext {i : Nat} {n : SQRexNode} (h : Built nsubexpr nodes (.item i) lo hi)
    (hn : nodes[i]? = some n) (x : Int) :
    Built nsubexpr (nodes.set i { n with next := x }) (.item i) lo hi := by
  have hset : (nodes.set i { n with next := x })[i]? = some { n with next := x } :=
    List.getElem?_set_self (List.getElem?_eq_some_iff.mp hn).1
  cases h with
  | leaf hi ht =>
    cases hn.symm.trans hi
    exact .leaf hset ht
  | set hi ht hl hj hhi hrise =>
    cases hn.symm.trans hi
    exact .set hset ht hl hj hhi (hrise.frame (.set_of_lt _ (Nat.lt_succ_self _)))
  | group hi hg hl hb =>
    cases hn.symm.trans hi
    exact .group hset hg hl (hb.frame (.set_of_lt _ (Nat.lt_succ_self _)) (Nat.le_refl _))
  | greedy hi ht hl hm hnext hb =>
    cases hn.symm.trans hi
    refine .greedy hset ht hl ?_ hnext (hb.frame (.set_of_le _ (Nat.le_refl _)) (Nat.le_refl _))
    exact (List.getElem?_set_ne hb.index_mem.2.ne').trans hm
  | or hi ht hl hr hbl hbr =>
    cases hn.symm.trans hi
    exact .or hset ht hl hr (hbl.frame (.set_of_le _ (Nat.le_refl _)) (Nat.le_refl _))
      (hbr.frame (.set_of_lt _ (Nat.lt_succ_self _)) (Nat.le_refl _))

end Quirrel.Regex
