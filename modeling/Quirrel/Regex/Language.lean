import Mathlib.Order.Nat
import Quirrel.Regex.Match

/-!
# What a compiled pattern means

The usual meaning of the nodes, without an order in which a matcher tries them: `Spans` relates a
form to the two ends of every stretch of the text that it describes. A repetition takes its element as
often as its bounds say, an alternation either side. `Sound` shows that the matcher keeps to it.
-/

set_option autoImplicit false

namespace Quirrel.Regex

section Characters

variable (nodes : List SQRexNode) (text : CString)

/-- The node with an index. -/
def NodeAt (i : Int) (n : SQRexNode) : Prop := ∃ k : Nat, i = k ∧ nodes[k]? = some n

/-- A character of the class whose chain begins with the node. -/
inductive InClass : SQRexNode → Int → Prop
  | here {n : SQRexNode} {c : Int} : n.hasChar c = true → InClass n c
  | there {n m : SQRexNode} {c : Int} : n.next ≠ -1 → NodeAt nodes n.next m → InClass m c →
      InClass n c

/-- A text in which each opening character has its closing one. -/
inductive Balanced (cb ce : Int) : CString → Prop
  | nil : Balanced cb ce []
  | other {c : Int8} {cs : CString} : c.toInt ≠ ce → c.toInt ≠ cb → Balanced cb ce cs →
      Balanced cb ce (c :: cs)
  | nest {o c : Int8} {inner rest : CString} : o.toInt ≠ ce → o.toInt = cb → Balanced cb ce inner →
      c.toInt = ce → Balanced cb ce rest → Balanced cb ce (o :: (inner ++ c :: rest))

/-- Nothing or a blank stands before the position. -/
def BlankBefore (i : Nat) : Prop :=
  i = 0 ∨ ∃ c, text[i - 1]? = some c ∧ isspace c.toInt = true

/-- The text ends here, or a space follows. -/
def BlankAfter (i : Nat) : Prop :=
  i = text.length ∨ ∃ c, text[i]? = some c ∧ isspace c.toInt = true

/-- A space, or an end of the text, on one side only. -/
def WordBoundary (i : Nat) : Prop := ¬ (BlankBefore text i ↔ BlankAfter text i)

/-- The character at the position, if it passes the test. -/
def CharFrom (test : Int → Prop) (i j : Nat) : Prop :=
  ∃ c, text[i]? = some c ∧ test c.toInt ∧ j = i + 1

/-- The stretches that a node without elements describes. -/
def SQRexNode.Accepts (n : SQRexNode) (i j : Nat) : Prop :=
  match n.type with
  | .opBol => i = 0 ∧ j = i
  | .opEol => i = text.length ∧ j = i
  | .opWb => (WordBoundary text i ↔ n.left = code 'b') ∧ j = i
  | .opDot => CharFrom text (fun _ => True) i j
  | .opClass => CharFrom text (fun c => ∃ m, NodeAt nodes n.left m ∧ InClass nodes m c) i j
  | .opNclass => CharFrom text (fun c => ∃ m, NodeAt nodes n.left m ∧ ¬ InClass nodes m c) i j
  | .opCclass => CharFrom text (fun c => matchcclass n.left c = true) i j
  | .opMb => ∃ o body c rest, text.drop i = o :: (body ++ c :: rest) ∧ o.toInt = n.left ∧
      Balanced n.left n.right body ∧ c.toInt = n.right ∧ j = i + body.length + 2
  | .char c => CharFrom text (fun d => d = c) i j
  | .opRange => CharFrom text (fun d => d = NodeType.opRange.value) i j
  | .opGreedy | .opOr | .opExpr | .opNocapexpr => False

/-- A node, the chain that begins with it, or a number of times the node with an index. -/
inductive Form where
  | node (n : SQRexNode)
  | chain (n : SQRexNode)
  | times (k : Nat) (index : Int)

/-- What a node, a chain or an item matches between two places, apart from the matcher. -/
inductive Spans : Form → Nat → Nat → Prop
  | single {n : SQRexNode} {i j : Nat} : n.Accepts nodes text i j → Spans (.node n) i j
  | left {n m : SQRexNode} {i j : Nat} : n.type = .opOr → NodeAt nodes n.left m →
      Spans (.chain m) i j → Spans (.node n) i j
  | right {n m : SQRexNode} {i j : Nat} : n.type = .opOr → NodeAt nodes n.right m →
      Spans (.chain m) i j → Spans (.node n) i j
  | group {n m : SQRexNode} {i j : Nat} : n.type = .opExpr ∨ n.type = .opNocapexpr →
      NodeAt nodes n.left m → Spans (.chain m) i j → Spans (.node n) i j
  | greedy {n : SQRexNode} {k i j : Nat} : n.type = .opGreedy → n.p0 ≤ k →
      (n.p1 = 0xFFFF ∨ k ≤ n.p1) → Spans (.times k n.left) i j → Spans (.node n) i j
  | last {n : SQRexNode} {i j : Nat} : n.next = -1 → Spans (.node n) i j → Spans (.chain n) i j
  | next {n m : SQRexNode} {i k j : Nat} : n.next ≠ -1 → NodeAt nodes n.next m →
      Spans (.node n) i k → Spans (.chain m) k j → Spans (.chain n) i j
  | zero {index : Int} {i : Nat} : Spans (.times 0 index) i i
  | succ {n : SQRexNode} {index : Int} {k i m j : Nat} : Spans (.times k index) i m →
      NodeAt nodes index n → Spans (.node n) m j → Spans (.times (k + 1) index) i j

end Characters

variable {nodes : List SQRexNode} {text : CString}

theorem NodeAt.unique {i : Int} {n m : SQRexNode} (hn : NodeAt nodes i n) (hm : NodeAt nodes i m) :
    n = m := by
  obtain ⟨k, rfl, hk⟩ := hn
  obtain ⟨l, hl, hm⟩ := hm
  cases Int.ofNat_inj.mp hl
  exact Option.some.inj (hk.symm.trans hm)

theorem CharFrom.within {test : Int → Prop} {i j : Nat} (h : CharFrom text test i j) :
    i ≤ j ∧ j ≤ text.length := by
  obtain ⟨c, hc, -, rfl⟩ := h
  exact ⟨Nat.le_succ i, (List.getElem?_eq_some_iff.mp hc).1⟩

theorem SQRexNode.Accepts.within {n : SQRexNode} {i j : Nat} (h : n.Accepts nodes text i j)
    (hi : i ≤ text.length) : i ≤ j ∧ j ≤ text.length := by
  unfold SQRexNode.Accepts at h
  split at h
  · exact ⟨h.2.ge, h.2.trans_le hi⟩
  · exact ⟨h.2.ge, h.2.trans_le hi⟩
  · exact ⟨h.2.ge, h.2.trans_le hi⟩
  · exact h.within
  · exact h.within
  · exact h.within
  · exact h.within
  · obtain ⟨o, body, c, rest, hdrop, -, -, -, rfl⟩ := h
    have hlength := congrArg List.length hdrop
    simp only [List.length_drop, List.length_cons, List.length_append] at hlength
    omega
  · exact h.within
  · exact h.within
  all_goals exact h.elim

/-- A stretch is one of the text. -/
theorem Spans.within {f : Form} {i j : Nat} (h : Spans nodes text f i j) (hi : i ≤ text.length) :
    i ≤ j ∧ j ≤ text.length := by
  induction h with
  | single h => exact h.within hi
  | left _ _ _ ih => exact ih hi
  | right _ _ _ ih => exact ih hi
  | group _ _ _ ih => exact ih hi
  | greedy _ _ _ _ ih => exact ih hi
  | last _ _ ih => exact ih hi
  | next _ _ _ _ ih ihr =>
    obtain ⟨hk, hlen⟩ := ih hi
    exact ⟨hk.trans (ihr hlen).1, (ihr hlen).2⟩
  | zero => exact ⟨Nat.le_refl _, hi⟩
  | succ _ _ _ ih ihr =>
    obtain ⟨hm, hlen⟩ := ih hi
    exact ⟨hm.trans (ihr hlen).1, (ihr hlen).2⟩

end Quirrel.Regex
