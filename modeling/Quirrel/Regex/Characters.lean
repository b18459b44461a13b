import Quirrel.Regex.Built

/-!
# The steps of the compiler

What a function of the compiler does from a state is described by `Parses`: it ends in an error that
it reports, or in a value with what it added to the node array and the part of the pattern that it
left. Here are the single steps and the functions that read one character.
-/

set_option autoImplicit false

namespace Quirrel.Regex

open Quirrel.Lib Quirrel.Lib.Fallible

variable {α β : Type} {e : SQRex} {Q : α → SQRex → Prop} {R : β → SQRex → Prop}

/-- The computation ends in an error that the source reports, or in a value. -/
def Parses (c : RexM α) (e : SQRex) (Q : α → SQRex → Prop) : Prop :=
  Ensures c e (fun s _ => ∃ message, s = .error message) Q

/-! ## Steps -/

theorem Parses.pure {a : α} (h : Q a e) : Parses (Pure.pure a) e Q := Ensures.pure h

/-- One computation after the other. -/
theorem Parses.bind {c : RexM α} {k : α → RexM β} (h : Parses c e Q)
    (hk : ∀ a e', Q a e' → Parses (k a) e' R) : Parses (c >>= k) e R :=
  Ensures.bind (Ensures.mono h (fun _ _ he => he) hk)

/-- The rule of consequence. -/
theorem Parses.mono {Q' : α → SQRex → Prop} {c : RexM α} (h : Parses c e Q)
    (hQ : ∀ a e', Q a e' → Q' a e') : Parses c e Q' :=
  Ensures.mono h (fun _ _ he => he) hQ

theorem Parses.map {c : RexM α} (f : α → β) (h : Parses c e fun a e' => R (f a) e') :
    Parses (f <$> c) e R := by
  rw [map_eq_pure_bind]
  exact h.bind fun _ _ ha => .pure ha

/-- A branch, with what its test says. -/
theorem Parses.ite {p : Prop} [Decidable p] {c d : RexM α} (hc : p → Parses c e Q)
    (hd : ¬p → Parses d e Q) : Parses (if p then c else d) e Q := by
  split
  · exact hc ‹_›
  · exact hd ‹_›

/-- An error parses with any result. -/
theorem parses_error (message : String) : Parses (error message) e Q :=
  Ensures.throw ⟨message, rfl⟩

/-- The character at the head of the pattern. -/
def SQRex.head (e : SQRex) : Int :=
  match e.p with
  | [] => 0
  | c :: _ => c.toInt

/-- The pattern behind its first character. -/
def SQRex.skip (e : SQRex) : SQRex := { e with p := e.p.tail }

/-- The node of a new type, with the number of the next group for a capturing one. -/
def SQRex.fresh (e : SQRex) (type : NodeType) : SQRexNode :=
  ⟨type, -1, if type = .opExpr then e.nsubexpr else -1, -1⟩

/-- The compiler after a new node. -/
def SQRex.push (e : SQRex) (type : NodeType) : SQRex :=
  { e with
    nodes := e.nodes ++ [e.fresh type]
    nsubexpr := if type = .opExpr then e.nsubexpr + 1 else e.nsubexpr }

/-- The compiler after a node is replaced. -/
def SQRex.put (e : SQRex) (i : Nat) (n : SQRexNode) : SQRex := { e with nodes := e.nodes.set i n }

theorem Parses.peek_bind {k : Int → RexM β} (h : Parses (k e.head) e R) :
    Parses (peek >>= k) e R := h

theorem Parses.advance_bind {k : Unit → RexM β} (h : Parses (k ()) e.skip R) :
    Parses (advance >>= k) e R := h

theorem Parses.modify_bind {f : SQRex → SQRex} {k : Unit → RexM β} (h : Parses (k ()) (f e) R) :
    Parses (modify f >>= k) e R := h

theorem Parses.get_bind {k : SQRex → RexM β} (h : Parses (k e) e R) : Parses (get >>= k) e R := h

/-- Behind an error check its condition is false. -/
theorem Parses.errorIf_bind {p : Prop} [Decidable p] {message : String} {k : Unit → RexM β}
    (h : ¬p → Parses (k ()) e R) : Parses (errorIf p message >>= k) e R :=
  Parses.bind (Q := fun _ e' => ¬p ∧ e' = e)
    (.ite (fun _ => parses_error message) fun hp => .pure ⟨hp, rfl⟩)
    fun _ _ he => he.2 ▸ h he.1

/-- A new node is the last one. -/
theorem Parses.newnode_bind {type : NodeType} {k : Nat → RexM β}
    (h : Parses (k e.nodes.length) (e.push type) R) : Parses (newnode type >>= k) e R := h

theorem parses_newnode (type : NodeType) :
    Parses (newnode type) e fun i e' => i = e.nodes.length ∧ e' = e.push type :=
  Ensures.modifyGet ⟨rfl, rfl⟩

/-- A node that is there is read. -/
theorem Parses.node_bind {i : Nat} {n : SQRexNode} {k : SQRexNode → RexM β}
    (hn : e.nodes[i]? = some n) (h : Parses (k n) e R) : Parses (node i >>= k) e R := by
  refine Parses.bind (Q := fun m e' => m = n ∧ e' = e) ?_ fun _ _ he => he.1 ▸ he.2 ▸ h
  refine Parses.get_bind ?_
  rw [hn]
  exact .pure ⟨rfl, rfl⟩

/-- A node that is there is changed. -/
theorem Parses.update_bind {i : Nat} {n : SQRexNode} {f : SQRexNode → SQRexNode}
    {k : Unit → RexM β} (hn : e.nodes[i]? = some n) (h : Parses (k ()) (e.put i (f n)) R) :
    Parses ((node i >>= fun n => setNode i (f n)) >>= k) e R :=
  Parses.bind (Q := fun _ e' => e' = e.put i (f n)) (.node_bind hn (.pure rfl)) fun _ _ he => he ▸ h

/-- The left link of a node that is there is set. -/
theorem Parses.setLeft_bind {i : Nat} {n : SQRexNode} {x : Int} {k : Unit → RexM β}
    (hn : e.nodes[i]? = some n) (h : Parses (k ()) (e.put i { n with left := x }) R) :
    Parses (setLeft i x >>= k) e R :=
  .update_bind hn h

/-- The right link of a node that is there is set. -/
theorem Parses.setRight_bind {i : Nat} {n : SQRexNode} {x : Int} {k : Unit → RexM β}
    (hn : e.nodes[i]? = some n) (h : Parses (k ()) (e.put i { n with right := x }) R) :
    Parses (setRight i x >>= k) e R :=
  .update_bind hn h

/-- The next link of a node that is there is set. -/
theorem Parses.setNext_bind {i : Nat} {n : SQRexNode} {x : Int} {k : Unit → RexM β}
    (hn : e.nodes[i]? = some n) (h : Parses (k ()) (e.put i { n with next := x }) R) :
    Parses (setNext i x >>= k) e R :=
  .update_bind hn h

theorem parses_setNext {i : Nat} {n : SQRexNode} {x : Int} {Q : Unit → SQRex → Prop}
    (hn : e.nodes[i]? = some n) (h : Q () (e.put i { n with next := x })) :
    Parses (setNext i x) e Q :=
  .node_bind hn (Ensures.modifyGet h)

theorem SQRex.skip_le (e : SQRex) : e.skip.p.length ≤ e.p.length := by
  rw [skip, List.length_tail]
  exact Nat.sub_le _ _

/-- Only at the end of the pattern there is no character to skip. -/
theorem SQRex.skip_lt (h : e.head ≠ 0) : e.skip.p.length < e.p.length := by
  rw [head] at h
  cases hp : e.p with
  | nil =>
    rw [hp] at h
    exact absurd rfl h
  | cons c cs =>
    rw [skip, hp]
    exact Nat.lt_succ_self _

/-- A character that is there is passed. -/
theorem SQRex.skip_lt_of_eq {c : Char} (h : e.head = code c) (hc : code c ≠ 0) :
    e.skip.p.length < e.p.length :=
  e.skip_lt (h ▸ hc)

/-! ## Characters -/

/-- `e'` has read a part of the pattern, and nothing else is different. -/
structure SQRex.Reads (e e' : SQRex) : Prop where
  nodes : e'.nodes = e.nodes
  nsubexpr : e'.nsubexpr = e.nsubexpr
  shorter : e'.p.length < e.p.length

/-- `e'` has one node more, with the index `i`, that names no other node. -/
structure SQRex.AddsLeaf (e : SQRex) (i : Nat) (e' : SQRex) : Prop where
  index : i = e.nodes.length
  nodes : ∃ n, e'.nodes = e.nodes ++ [n] ∧ n.next = -1 ∧ n.type.isLeaf = true
  nsubexpr : e'.nsubexpr = e.nsubexpr
  shorter : e'.p.length < e.p.length

/-- The node just pushed is the last one. -/
theorem SQRex.push_last (e : SQRex) (type : NodeType) :
    (e.push type).nodes[e.nodes.length]? = some (e.fresh type) :=
  List.getElem?_concat_length

/-- A printable character is not the end of the pattern. -/
theorem isprint_ne_zero {c : Int} (h : isprint c = true) : c ≠ 0 := by
  rintro rfl
  exact absurd h (by decide)

/-- A digit is not the end of the pattern. -/
theorem isdigit_ne_zero {c : Int} (h : isdigit c = true) : c ≠ 0 := by
  rintro rfl
  exact absurd h (by decide)

/-- A leaf pushed after progress in the pattern. -/
theorem SQRex.AddsLeaf.of_push {e₀ : SQRex} {type : NodeType} (hnodes : e.nodes = e₀.nodes)
    (hsub : e.nsubexpr = e₀.nsubexpr) (hp : e.p.length < e₀.p.length)
    (ht : type.isLeaf = true) : e₀.AddsLeaf e.nodes.length (e.push type) where
  index := congrArg List.length hnodes
  nodes := ⟨e.fresh type, congrArg (· ++ _) hnodes, rfl, ht⟩
  nsubexpr := by
    rw [push, if_neg (by rintro rfl; cases ht), hsub]
  shorter := hp

/-- The new node may get another `left` or `right`. -/
theorem SQRex.AddsLeaf.put {e₀ : SQRex} {i : Nat} {n m : SQRexNode} (h : e₀.AddsLeaf i e)
    (hn : e.nodes[i]? = some n) (hnext : m.next = n.next) (htype : m.type = n.type) :
    e₀.AddsLeaf i (e.put i m) where
  index := h.index
  nodes := by
    obtain ⟨l, hl, hlnext, hleaf⟩ := h.nodes
    rw [hl, h.index, List.getElem?_concat_length] at hn
    cases hn
    refine ⟨m, ?_, hnext.trans hlnext, htype ▸ hleaf⟩
    show e.nodes.set i m = _
    rw [hl, h.index, List.set_append_right _ _ (Nat.le_refl _), Nat.sub_self, List.set_cons_zero]
  nsubexpr := h.nsubexpr
  shorter := h.shorter

theorem SQRex.AddsLeaf.of_p {e₀ : SQRex} {i : Nat} (h : e₀.AddsLeaf i e) : e₀.AddsLeaf i e.skip where
  index := h.index
  nodes := h.nodes
  nsubexpr := h.nsubexpr
  shorter := e.skip_le.trans_lt h.shorter

/-- A new leaf behind characters that were read. -/
theorem parses_leaf {e₀ : SQRex} (type : NodeType) (hnodes : e.nodes = e₀.nodes)
    (hsub : e.nsubexpr = e₀.nsubexpr) (hp : e.p.length < e₀.p.length) (ht : type.isLeaf = true) :
    Parses (newnode type) e fun i e' => e₀.AddsLeaf i e' := by
  refine (parses_newnode type).mono ?_
  rintro _ _ ⟨rfl, rfl⟩
  exact .of_push hnodes hsub hp ht

/-- A class of characters is one leaf. -/
theorem parses_charclass {e₀ : SQRex} (classid : Int) (hnodes : e.nodes = e₀.nodes)
    (hsub : e.nsubexpr = e₀.nsubexpr) (hp : e.p.length < e₀.p.length) :
    Parses (charclass classid) e fun i e' => e₀.AddsLeaf i e' := by
  refine .newnode_bind (.setLeft_bind (e.push_last _) (.pure ?_))
  exact (SQRex.AddsLeaf.of_push hnodes hsub hp rfl).put (e.push_last _) rfl rfl

theorem SQRex.put_self {i : Nat} {n : SQRexNode} (m : SQRexNode) (hn : e.nodes[i]? = some n) :
    (e.put i m).nodes[i]? = some m :=
  List.getElem?_set_self (List.getElem?_eq_some_iff.mp hn).1

/-- A balanced match is one leaf. -/
theorem parses_balanced {e₀ : SQRex} (hnodes : e.nodes = e₀.nodes)
    (hsub : e.nsubexpr = e₀.nsubexpr) (hp : e.p.length < e₀.p.length) :
    Parses balanced e fun i e' => e₀.AddsLeaf i e' := by
  refine .peek_bind (.errorIf_bind fun _ => .advance_bind (.peek_bind (.errorIf_bind fun _ => ?_)))
  refine .advance_bind (.errorIf_bind fun _ => .newnode_bind ?_)
  have hpush := SQRex.push_last e.skip.skip .opMb
  have hlen : e.skip.skip.p.length < e₀.p.length := (e.skip.skip_le.trans e.skip_le).trans_lt hp
  refine .setLeft_bind hpush (.setRight_bind (SQRex.put_self _ hpush) (.pure ?_))
  have hnew : e₀.AddsLeaf e.skip.skip.nodes.length (e.skip.skip.push .opMb) :=
    SQRex.AddsLeaf.of_push (e := e.skip.skip) hnodes hsub hlen rfl
  refine (hnew.put hpush ?_ ?_).put (SQRex.put_self _ hpush) ?_ ?_ <;> rfl

/-- A character is one leaf. -/
theorem parses_charnode (isclass : Bool) :
    Parses (charnode isclass) e fun i e' => e.AddsLeaf i e' := by
  refine .peek_bind (.ite (fun hesc => ?_) fun _ => ?_)
  case refine_2 =>
    refine .errorIf_bind fun hprint => .advance_bind ?_
    have hprint : isprint e.head = true := by simpa using hprint
    exact parses_leaf _ rfl rfl (e.skip_lt (isprint_ne_zero hprint)) rfl
  -- whatever is read after the back slash, the back slash itself is
  have hlt : e.skip.p.length < e.p.length := SQRex.skip_lt_of_eq hesc (by decide)
  have hlt' : e.skip.skip.p.length < e.p.length := e.skip.skip_le.trans_lt hlt
  refine .advance_bind (.peek_bind ?_)
  cases controlOf e.skip.head with
  | some control => exact .advance_bind (parses_leaf _ rfl rfl hlt' rfl)
  | none =>
    refine .ite (fun _ => .advance_bind (parses_charclass _ rfl rfl hlt')) fun _ => ?_
    refine .ite (fun _ => .advance_bind (parses_balanced rfl rfl hlt')) fun _ => ?_
    refine .ite (fun _ => parses_error _) fun _ => .ite (fun _ => ?_) fun _ => ?_
    · have hpush := SQRex.push_last e.skip .opWb
      refine .newnode_bind (.setLeft_bind hpush (.advance_bind (.pure ?_)))
      have hnew : e.AddsLeaf e.skip.nodes.length (e.skip.push .opWb) :=
        SQRex.AddsLeaf.of_push (e := e.skip) rfl rfl hlt rfl
      refine (hnew.put hpush ?_ ?_).of_p <;> rfl
    · exact .advance_bind (parses_leaf _ rfl rfl hlt' rfl)

/-- An escape reads characters and builds nothing. -/
theorem parses_escapechar : Parses escapechar e fun _ e' => e.Reads e' := by
  refine .peek_bind (.ite (fun hesc => ?_) fun _ => ?_)
  · have hlt : e.skip.p.length < e.p.length := SQRex.skip_lt_of_eq hesc (by decide)
    refine .advance_bind (.peek_bind (.errorIf_bind fun _ => .advance_bind (.pure ?_)))
    exact ⟨rfl, rfl, e.skip.skip_le.trans_lt hlt⟩
  · refine .peek_bind (.errorIf_bind fun hprint => .advance_bind (.pure ?_))
    have hprint : isprint e.head = true := by simpa using hprint
    exact ⟨rfl, rfl, e.skip_lt (isprint_ne_zero hprint)⟩

end Quirrel.Regex
