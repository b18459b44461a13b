import Quirrel.Strings.SplitJoin
import Quirrel.Strings.Subst

/-!
# When `subst` is one pass over the format string

The scan over the buffer never reads again what it has inserted. It differs from the one pass in what
it takes for a group's index or key: an index is computed in `int`, which the digits of a group can
overflow, and `GetStr` compares keys up to a NUL. Main theorem `stringSubstitute_iff`: for strings
shorter than 2^31 characters it is the one pass exactly if neither happens in a group that the pass
meets. The control example is `subst_overflows_index`.
-/

set_option autoImplicit false

namespace Quirrel.Strings

open Quirrel.Lib Quirrel.Vm Quirrel.Table

/-! ## Indices -/

theorem le_foldl_digits (digits : List UInt8) (v : Nat) :
    v ≤ digits.foldl (fun v c => v * 10 + (c.toNat - 48)) v := by
  induction digits generalizing v with
  | nil => exact Nat.le_refl v
  | cons c cs ih => exact Nat.le_trans (show v ≤ v * 10 + (c.toNat - 48) by omega) (ih _)

/-- The computation overflows exactly if the digits in front have a value from 2^31 - 48 on. -/
theorem parseIndex_eq (content : List UInt8) {v : Nat} (hv : v < 2 ^ 31 - 48) :
    parseIndex content v =
      if (content.takeWhile isDigit).foldl (fun v c => v * 10 + (c.toNat - 48)) v < 2 ^ 31 - 48 then
        .ok (if content.all isDigit then
          some (content.foldl (fun v c => v * 10 + (c.toNat - 48)) v) else none)
      else .error .overflow := by
  induction content generalizing v with
  | nil => exact (if_pos hv).symm
  | cons c cs ih =>
    rw [parseIndex, List.all_cons, List.takeWhile_cons]
    by_cases hc : isDigit c
    · have hc48 : 48 ≤ c.toNat := by
        rw [isDigit, Bool.and_eq_true, decide_eq_true_eq] at hc
        exact UInt8.le_iff_toNat_le.1 hc.1
      have hnext : v * 10 + c.toNat - 48 = v * 10 + (c.toNat - 48) := by omega
      rw [if_pos hc, if_pos hc, hc, Bool.true_and, List.foldl_cons, List.foldl_cons, hnext]
      by_cases hover : v * 10 + c.toNat < 2 ^ 31
      · rw [if_pos hover, ih (by omega)]
      · have hle := le_foldl_digits (cs.takeWhile isDigit) (v * 10 + (c.toNat - 48))
        rw [if_neg hover, if_neg (by omega)]
    · rw [if_neg hc, if_neg hc, List.foldl_nil, if_pos hv, Bool.not_eq_true _ |>.mp hc,
        Bool.false_and]
      rfl

theorem takeWhile_of_all {content : List UInt8} (h : content.all isDigit) :
    content.takeWhile isDigit = content :=
  List.takeWhile_eq_self_iff.2 (List.all_eq_true.1 h)

section

variable (world : World) (args : List SQObject)

/-- The digits that the group begins with are computed without an overflow. -/
def IndexRight (content : List UInt8) : Prop :=
  decimalValue (content.takeWhile isDigit) < 2 ^ 31 - 48

/-- A key that is looked up is found where the very key is. -/
def KeyRight (w : Nat) (content : List UInt8) : Prop :=
  ¬(content.all isDigit ∧ decimalValue content < args.length) →
    keySource world args w content = exactKey world args w content

/-- A key that is found is a key of the table. -/
theorem findKey_eq_key {world : World} {lookup : SQTable SQObject SQObject → Option (Option Nat)}
    {w : Nat} {args : List SQObject} {a : Nat} {src : Source}
    (h : findKey world lookup w args a = some src) :
    ∃ i addr node, src = .key (a + i) node ∧ args[i]? = some (.ref .table addr) := by
  induction args generalizing a with
  | nil => cases h
  | cons arg args ih =>
    have hrec (h : findKey world lookup w args (a + 1) = some src) :
        ∃ i addr node, src = .key (a + i) node ∧ (arg :: args)[i]? = some (.ref .table addr) := by
      obtain ⟨i, addr, node, hsrc, harg⟩ := ih h
      exact ⟨i + 1, addr, node, by rw [hsrc, Nat.add_assoc, Nat.add_comm 1], harg⟩
    rw [findKey.eq_def] at h
    split at h
    · cases h
    · rename_i addr rest heq
      obtain ⟨rfl, rfl⟩ := List.cons.inj heq
      split at h
      · cases h
        exact ⟨0, addr, _, rfl, rfl⟩
      · exact hrec h
    · rename_i heq
      obtain ⟨rfl, rfl⟩ := List.cons.inj heq
      exact hrec h

theorem exactKey_ne_argument {w : Nat} {content : List UInt8} {n : Nat} :
    exactKey world args w content ≠ some (.argument n) := by
  intro h
  obtain ⟨i, addr, node, hsrc, -⟩ := findKey_eq_key h
  cases hsrc

/-- What the source does with a group. -/
theorem groupSource_of_indexRight {content : List UInt8} (h : IndexRight content) (w : Nat) :
    groupSource world args w content =
      .ok (if content.all isDigit ∧ decimalValue content < args.length then
        some (.argument (decimalValue content)) else keySource world args w content) := by
  rw [groupSource, (parseIndex_eq content (v := 0) (by decide)).trans (if_pos h)]
  by_cases hdig : content.all isDigit
  · rw [if_pos hdig]
    by_cases hlt : decimalValue content < args.length
    · exact (if_pos (Nat.succ_le_succ hlt)).trans
        (congrArg Except.ok (if_pos (show _ ∧ _ from ⟨hdig, hlt⟩)).symm)
    · exact (if_neg fun hle => hlt (Nat.lt_of_succ_le (Nat.le_of_succ_le_succ hle))).trans
        (congrArg Except.ok (if_neg fun hand => hlt hand.2).symm)
  · rw [if_neg hdig, if_neg fun hand => hdig hand.1]

/-- An index that overflows is no source. -/
theorem groupSource_of_overflow {content : List UInt8} (h : ¬IndexRight content) (w : Nat) :
    groupSource world args w content = .error .overflow := by
  rw [groupSource, (parseIndex_eq content (v := 0) (by decide)).trans (if_neg h)]

/-- The group stands for what the pass takes it for. -/
theorem groupSource_eq_iff (w : Nat) (content : List UInt8) :
    groupSource world args w content = .ok (exactSource world args w content) ↔
      IndexRight content ∧ KeyRight world args w content := by
  by_cases h : IndexRight content
  · rw [groupSource_of_indexRight world args h, Except.ok.injEq, exactSource,
      and_iff_right (show IndexRight content from h), KeyRight]
    by_cases harg : content.all isDigit ∧ decimalValue content < args.length
    · rw [if_pos harg, if_pos harg]
      exact iff_of_true rfl fun hn => absurd harg hn
    · rw [if_neg harg, if_neg harg]
      exact ⟨fun heq _ => heq, fun heq => heq harg⟩
  · rw [groupSource_of_overflow world args h]
    exact iff_of_false nofun fun hr => h hr.1

/-! ## Keys -/

theorem throughNul_eq_self {key : List UInt8} (h : 0 ∉ key) : throughNul key = key := by
  induction key with
  | nil => rfl
  | cons b bs ih =>
    have hb : b ≠ 0 := fun h0 => h (h0 ▸ List.mem_cons_self)
    rw [throughNul, if_neg hb, ih fun hm => h (List.mem_cons_of_mem _ hm)]

/-- Without a NUL, `GetStr` compares whole keys. -/
theorem sameStr_iff {key : List UInt8} (h : 0 ∉ key) (k : Option SQObject) :
    sameStr key k ↔ k = some (.string key) := by
  rw [sameStr.eq_def]
  split
  · rename_i s
    rw [Bool.and_eq_true, decide_eq_true_eq, decide_eq_true_eq, Option.some.injEq,
      SQObject.string.injEq]
    constructor
    · rintro ⟨hlen, hcmp⟩
      have hp := (strncmp_eq_zero_iff hlen.le).1 hcmp
      rw [throughNul_eq_self h] at hp
      exact (hp.eq_of_length hlen).symm
    · rintro rfl
      exact ⟨rfl, (strncmp_eq_zero_iff (Nat.le_refl _)).2 (throughNul_isPrefix s)⟩
  · rename_i hs
    exact iff_of_false Bool.false_ne_true fun heq => hs key heq

/-- Without zero bytes the two look-ups of a key agree. -/
theorem getStrLoop_eq {key : List UInt8} (h : 0 ∉ key) (t : SQTable SQObject SQObject)
    (fuel n : Nat) : getStrLoop t key fuel n = getLoop t (.string key) fuel n := by
  induction fuel generalizing n with
  | zero => rfl
  | succ fuel ih =>
    rw [getStrLoop, getLoop]
    refine if_congr (sameStr_iff h _) rfl ?_
    cases (t.nodes n).next with
    | none => rfl
    | some n' => exact ih n'

/-- A key without a NUL is found where it is. -/
theorem keyRight_of_no_nul {content : List UInt8} (h : 0 ∉ content) (w : Nat) :
    KeyRight world args w content := by
  intro _
  have hsame : (fun t => getStr world.ops t content) =
      fun t => getNode world.ops t (.string content) := by
    funext t
    exact getStrLoop_eq h t _ _
  rw [keySource, exactKey, hsame]

end

/-! ## Braces -/

/-- The closing brace stands behind the content. -/
theorem matchBrace_append {depth : Nat} {cs content after : List UInt8}
    (h : matchBrace depth cs = some (content, after)) : cs = content ++ closeBrace :: after := by
  induction cs generalizing depth content with
  | nil => cases h
  | cons c cs ih =>
    have hrec {d : Nat} (hr : (matchBrace d cs).map (fun p => (c :: p.1, p.2)) =
        some (content, after)) : c :: cs = content ++ closeBrace :: after := by
      obtain ⟨p, hm, heq⟩ := Option.map_eq_some_iff.1 hr
      obtain ⟨hcontent, hafter⟩ := Prod.mk.inj heq
      rw [← hcontent, ih (show matchBrace d cs = some (p.1, after) by rw [hm, ← hafter])]
      rfl
    rw [matchBrace] at h
    split at h
    · rename_i hc
      split at h
      · cases h
        rw [hc]
        rfl
      · exact hrec h
    · split at h
      · exact hrec h
      · exact hrec h

/-- The loop over `j` in the buffer is the search for the brace in what follows. -/
theorem findClose_eq (front cs : List UInt8) (depth : Nat) :
    findClose (front ++ cs) front.length depth =
      (matchBrace depth cs).map fun p => front.length + p.1.length := by
  induction cs generalizing front depth with
  | nil => rw [findClose, List.append_nil, if_neg (Nat.lt_irrefl _)]; rfl
  | cons c cs ih =>
    have hlt : front.length < (front ++ c :: cs).length := by
      rw [List.length_append, List.length_cons]
      omega
    have hget : (front ++ c :: cs).getD front.length 0 = c := by
      rw [List.getD_eq_getElem?_getD, List.getElem?_append_right (Nat.le_refl _), Nat.sub_self]
      rfl
    have hnext (d : Nat) : findClose (front ++ c :: cs) (front.length + 1) d =
        ((matchBrace d cs).map fun p => (c :: p.1, p.2)).map fun p =>
          front.length + p.1.length := by
      have hrec := ih (front ++ [c]) d
      rw [List.append_assoc, List.singleton_append, List.length_append, List.length_singleton]
        at hrec
      rw [hrec, Option.map_map]
      congr 1
      funext p
      simp only [Function.comp, List.length_cons]
      omega
    rw [findClose, if_pos hlt, hget, matchBrace]
    -- both searches count the braces in the same way
    by_cases hc : c = closeBrace
    · rw [if_pos hc, if_pos hc]
      cases depth with
      | zero =>
        rw [if_pos (by decide), if_pos rfl]
        rfl
      | succ depth =>
        rw [if_neg (by omega), if_neg (Nat.succ_ne_zero depth)]
        have hd : ((depth + 1 : Nat) : Int) - 1 = (depth : Nat) := by omega
        rw [hd]
        exact hnext depth
    · rw [if_neg hc, if_neg hc]
      by_cases ho : c = openBrace
      · rw [if_pos ho, if_pos ho]
        exact hnext (depth + 1)
      · rw [if_neg ho, if_neg ho]
        exact hnext depth

/-! ## Steps of the loop -/

section

variable (world : World) (args : List SQObject)

theorem int32_eq {n : Nat} (h : n < 2 ^ 31) : int32 n = n :=
  Int.bmod_eq_of_le (by omega) (by omega)

/-- The loop ends two bytes before the end. -/
theorem substLoop_end {w : Nat} {out rest : List UInt8} (hlen : (out ++ rest).length < 2 ^ 31)
    (h : rest.length ≤ 2) :
    substLoop world args w (out ++ rest) out.length = ⟨.ok (out ++ rest), []⟩ := by
  have hi : ¬(out.length : Int) < int32 (out ++ rest).length - 2 := by
    rw [int32_eq hlen, List.length_append]
    omega
  rw [substLoop.eq_def, dif_neg hi]

theorem getD_append_cons (out : List UInt8) (c : UInt8) (cs : List UInt8) :
    (out ++ c :: cs).getD out.length 0 = c := by
  rw [List.getD_eq_getElem?_getD, List.getElem?_append_right (Nat.le_refl _), Nat.sub_self]
  rfl

/-- A byte that opens no group is passed. -/
theorem substLoop_plain {w : Nat} {out cs : List UInt8} {c : UInt8}
    (hlen : (out ++ c :: cs).length < 2 ^ 31)
    (h : c = openBrace → matchBrace 0 cs = none ∨ ∃ after, matchBrace 0 cs = some ([], after)) :
    substLoop world args w (out ++ c :: cs) out.length =
      substLoop world args w ((out ++ [c]) ++ cs) (out ++ [c]).length := by
  have happ : (out ++ [c]) ++ cs = out ++ c :: cs := List.append_cons out c cs ▸ rfl
  by_cases hcs : cs.length ≤ 1
  · rw [substLoop_end world args hlen (Nat.succ_le_succ hcs),
      substLoop_end world args (happ ▸ hlen) (Nat.le_succ_of_le hcs), happ]
  have hi : (out.length : Int) < int32 (out ++ c :: cs).length - 2 := by
    rw [int32_eq hlen, List.length_append, List.length_cons]
    omega
  have hnext : substLoop world args w ((out ++ [c]) ++ cs) (out ++ [c]).length =
      substLoop world args w (out ++ c :: cs) (out.length + 1) := by
    rw [List.append_assoc, List.singleton_append, List.length_append, List.length_singleton]
  rw [hnext, substLoop.eq_def, dif_pos hi, getD_append_cons]
  split
  · rename_i hc
    have hclose := findClose_eq (out ++ [c]) cs 0
    rw [List.append_assoc, List.singleton_append, List.length_append, List.length_singleton]
      at hclose
    split
    · rfl
    · rename_i j hj
      have hj : findClose (out ++ c :: cs) (out.length + 1) ((0 : Nat) : Int) = some j := hj
      rw [hclose] at hj
      rcases h hc with hm | ⟨after, hm⟩
      · rw [hm] at hj
        cases hj
      · rw [hm] at hj
        obtain rfl := Option.some.inj hj
        exact if_pos rfl
  · rfl

/-- What the loop does at the brace of a group. -/
theorem substLoop_group {w : Nat} {out cs content after : List UInt8}
    (hlen : (out ++ openBrace :: cs).length < 2 ^ 31)
    (hm : matchBrace 0 cs = some (content, after)) (hne : content ≠ []) :
    substLoop world args w (out ++ openBrace :: cs) out.length =
      match groupSource world args w content with
      | .error e => ⟨.error e, []⟩
      | .ok none => substLoop world args w ((out ++ [openBrace]) ++ cs) (out ++ [openBrace]).length
      | .ok (some src) =>
        match sourceText world args w src with
        | .error e => ⟨.error e, [(cs.length + 1, src)]⟩
        | .ok text =>
          (substLoop world args (w + 1) ((out ++ text) ++ after) (out ++ text).length).cons
            (cs.length + 1, src) := by
  have hcs := length_matchBrace hm
  have happ := matchBrace_append hm
  have hpos : 0 < content.length := List.length_pos_of_ne_nil hne
  have hi : (out.length : Int) < int32 (out ++ openBrace :: cs).length - 2 := by
    rw [int32_eq hlen, List.length_append, List.length_cons]
    omega
  have hclose := findClose_eq (out ++ [openBrace]) cs 0
  rw [List.append_assoc, List.singleton_append, List.length_append, List.length_singleton, hm]
    at hclose
  -- the text between the braces
  have hcontent : ((out ++ openBrace :: cs).drop (out.length + 1)).take
      (out.length + 1 + content.length - (out.length + 1)) = content := by
    have hdrop : (out ++ openBrace :: cs).drop (out.length + 1) = cs := by
      rw [← List.drop_drop, List.drop_left]
      rfl
    rw [hdrop, Nat.add_sub_cancel_left, happ, List.take_left]
  have hplace : (out ++ openBrace :: cs).length - out.length = cs.length + 1 := by
    rw [List.length_append, List.length_cons, Nat.add_sub_cancel_left]
  have hnone : substLoop world args w ((out ++ [openBrace]) ++ cs) (out ++ [openBrace]).length =
      substLoop world args w (out ++ openBrace :: cs) (out.length + 1) := by
    rw [List.append_assoc, List.singleton_append, List.length_append, List.length_singleton]
  -- what the replacement leaves
  have hreplace (text : List UInt8) : replaceBytes (out ++ openBrace :: cs) out.length
      (out.length + 1 + content.length + 1 - out.length) text = (out ++ text) ++ after := by
    have hdrop : (out ++ openBrace :: cs).drop
        (out.length + (out.length + 1 + content.length + 1 - out.length)) = after := by
      have hsplit : out ++ openBrace :: cs =
          (out ++ openBrace :: content ++ [closeBrace]) ++ after := by
        rw [happ]
        simp only [List.append_assoc, List.cons_append, List.nil_append]
      rw [hsplit]
      apply List.drop_left'
      simp only [List.length_append, List.length_cons, List.length_nil]
      omega
    rw [replaceBytes, List.take_left, hdrop]
  -- the closing brace is found, so the pass looks at the group
  rw [hnone, substLoop.eq_def, dif_pos hi, getD_append_cons, if_pos rfl]
  split
  · rename_i hj
    have hj : findClose (out ++ openBrace :: cs) (out.length + 1) ((0 : Nat) : Int) = none := hj
    rw [hclose] at hj
    cases hj
  · rename_i j hj
    have hj : findClose (out ++ openBrace :: cs) (out.length + 1) ((0 : Nat) : Int) = some j := hj
    rw [hclose] at hj
    obtain rfl := Option.some.inj hj
    rw [if_neg (by dsimp only; omega)]
    dsimp only
    rw [hcontent, hplace]
    cases groupSource world args w content with
    | error e => rfl
    | ok group =>
      cases group with
      | none => rfl
      | some src =>
        dsimp only
        cases sourceText world args w src with
        | error e => rfl
        | ok text =>
          dsimp only
          rw [hreplace, List.length_append]

/-! ## Places -/

/-- The groups are inside the text. -/
theorem place_le_substLoop (w : Nat) (s : List UInt8) (i : Nat) :
    ∀ g ∈ (substLoop world args w s i).groups, g.1 ≤ s.length - i := by
  fun_induction substLoop world args w s i with
  | case1 w s i hi hc hj ih => exact fun g hg => Nat.le_trans (ih g hg) (by omega)
  | case2 w s i hi hc hj ih => exact fun g hg => Nat.le_trans (ih g hg) (by omega)
  | case3 => exact nofun
  | case4 w s i hi hc j hj hne hg ih => exact fun g hg => Nat.le_trans (ih g hg) (by omega)
  | case5 w s i hi hc j hj hne src hg e he =>
    intro g hg
    rw [List.mem_singleton.1 hg]
  | case6 w s i hi hc j hj hne src hg text ht ih =>
    intro g hg
    have hjj := le_findClose hj
    rcases List.mem_cons.1 hg with rfl | hg
    · exact Nat.le_refl _
    · have hle := ih g hg
      rw [length_replaceBytes (by omega)] at hle
      omega
  | case7 w s i hi hc ih => exact fun g hg => Nat.le_trans (ih g hg) (by omega)
  | case8 => exact nofun

/-- The pieces are inside the text. -/
theorem place_le_assemble (w : Nat) (rest out : List UInt8) :
    ∀ g ∈ (assemble out (onePass world args w rest)).groups, g.1 ≤ rest.length := by
  fun_induction onePass world args w rest generalizing out with
  | case1 => exact nofun
  | case2 w cs hm ih => exact fun g hg => Nat.le_succ_of_le (ih _ g hg)
  | case3 w cs after hm ih => exact fun g hg => Nat.le_succ_of_le (ih _ g hg)
  | case4 w cs content after hm hne hs ih => exact fun g hg => Nat.le_succ_of_le (ih _ g hg)
  | case5 w cs content after hm hne src hs e he =>
    intro g hg
    rw [List.mem_singleton.1 hg, List.length_cons]
  | case6 w cs content after hm hne src hs text ht ih =>
    intro g hg
    have hlen := length_matchBrace hm
    rw [List.length_cons]
    rcases List.mem_cons.1 hg with rfl | hg
    · exact Nat.le_refl _
    · have hle := ih _ g hg
      omega
  | case7 w c cs hc ih => exact fun g hg => Nat.le_succ_of_le (ih _ g hg)

/-! ## The scan and the pass -/

/-- The source takes the group of a piece for what it is. -/
def Piece.Right : Piece → Prop
  | .plain _ => True
  | .opened w content => IndexRight content ∧ KeyRight world args w content
  | .replaced w _ content _ _ => IndexRight content ∧ KeyRight world args w content
  | .failed w _ content _ _ => IndexRight content ∧ KeyRight world args w content

end

/-- The length of the text that is put in for a piece. -/
def Piece.inserted : Piece → Nat
  | .replaced _ _ _ _ text => text.length
  | _ => 0

/-- The number of bytes inserted. -/
def inserted (ps : List Piece) : Nat := (ps.map Piece.inserted).sum

theorem inserted_cons (p : Piece) (ps : List Piece) :
    inserted (p :: ps) = p.inserted + inserted ps := by
  rw [inserted, List.map_cons, List.sum_cons, inserted]

/-- A character moves from the rest of the format string to what has been made. -/
theorem fits_next {out cs : List UInt8} {c d : UInt8} {p : Piece} {ps : List Piece}
    (hlen : out.length + (c :: cs).length + inserted (p :: ps) < 2 ^ 31) :
    (out ++ [d]).length + cs.length + inserted ps < 2 ^ 31 := by
  rw [inserted_cons, List.length_cons] at hlen
  rw [List.length_append, List.length_singleton]
  omega

section

variable (world : World) (args : List SQObject)

theorem cons_injective {g : Nat × Source} {x y : Substituted} (h : x.cons g = y.cons g) : x = y := by
  obtain ⟨hresult, hgroups⟩ := Substituted.mk.inj h
  obtain ⟨result, groups⟩ := x
  obtain ⟨result', groups'⟩ := y
  rw [Substituted.mk.injEq]
  exact ⟨hresult, (List.cons.inj hgroups).2⟩

/-- A character that stays. -/
theorem substLoop_iff_plain {w : Nat} {out cs : List UInt8} {c : UInt8} {p : Piece}
    (hp : p.text = [c]) (hasm : ∀ ps, assemble out (p :: ps) = assemble (out ++ p.text) ps)
    (hright : p.Right world args)
    (hstep : substLoop world args w (out ++ c :: cs) out.length =
      substLoop world args w ((out ++ [c]) ++ cs) (out ++ [c]).length)
    (ih : substLoop world args w ((out ++ [c]) ++ cs) (out ++ [c]).length =
        assemble (out ++ [c]) (onePass world args w cs) ↔
      ∀ p ∈ onePass world args w cs, p.Right world args) :
    substLoop world args w (out ++ c :: cs) out.length =
        assemble out (p :: onePass world args w cs) ↔
      ∀ q ∈ p :: onePass world args w cs, q.Right world args := by
  rw [hstep, hasm, hp, ih, List.forall_mem_cons]
  exact ⟨fun h => ⟨hright, h⟩, fun h => h.2⟩

/-- A group that is taken for something else shows in the result or in the list of groups. -/
theorem substLoop_ne {w : Nat} {out cs content after : List UInt8}
    (hlen : (out ++ openBrace :: cs).length < 2 ^ 31)
    (hm : matchBrace 0 cs = some (content, after)) (hne : content ≠ [])
    {x : Substituted} (hover : x.result ≠ .error .overflow)
    (hx : ∀ src, groupSource world args w content = .ok src →
      x.groups.head? ≠ src.map fun src => (cs.length + 1, src))
    (hnone : groupSource world args w content = .ok none →
      ∃ src, x.groups.head? = some (cs.length + 1, src)) :
    substLoop world args w (out ++ openBrace :: cs) out.length ≠ x := by
  intro heq
  rw [substLoop_group world args hlen hm hne] at heq
  by_cases hright : IndexRight content
  · rw [groupSource_of_indexRight world args hright] at heq hx hnone
    revert heq hx hnone
    generalize (if content.all isDigit ∧ decimalValue content < args.length then
      some (Source.argument (decimalValue content)) else keySource world args w content) = group
    intro hx hnone heq
    cases group with
    | none =>
      obtain ⟨src, hsrc⟩ := hnone rfl
      have hmem := List.mem_of_mem_head? (Option.mem_def.2 hsrc)
      rw [← heq] at hmem
      have hle := place_le_substLoop world args _ _ _ _ hmem
      rw [List.length_append, Nat.add_sub_cancel_left] at hle
      exact absurd hle (by simp)
    | some src =>
      apply hx _ rfl
      rw [← heq]
      dsimp only
      cases sourceText world args w src with
      | error e => rfl
      | ok text => rfl
  · rw [groupSource_of_overflow world args hright] at heq
    exact hover (heq ▸ rfl)

/-- A source that is found does not overflow. -/
theorem sourceText_ne_overflow {w : Nat} {src : Source} :
    sourceText world args w src ≠ .error .overflow := by
  rw [sourceText]
  split
  · exact nofun
  · split
    · exact nofun
    · exact nofun

/-- Nothing overflows in the pass. -/
theorem result_assemble_ne_overflow (w : Nat) (rest out : List UInt8) :
    (assemble out (onePass world args w rest)).result ≠ .error .overflow := by
  fun_induction onePass world args w rest generalizing out with
  | case1 => exact nofun
  | case2 w cs hm ih => exact ih _
  | case3 w cs after hm ih => exact ih _
  | case4 w cs content after hm hne hs ih => exact ih _
  | case5 w cs content after hm hne src hs e he =>
    intro h
    exact sourceText_ne_overflow world args (he.trans h)
  | case6 w cs content after hm hne src hs text ht ih => exact ih _
  | case7 w c cs hc ih => exact ih _

/-- The loop is one pass over the text if and only if every piece is kept. -/
theorem substLoop_iff (w : Nat) (out rest : List UInt8)
    (hlen : out.length + rest.length + inserted (onePass world args w rest) < 2 ^ 31) :
    substLoop world args w (out ++ rest) out.length = assemble out (onePass world args w rest) ↔
      ∀ p ∈ onePass world args w rest, p.Right world args := by
  -- the buffer is what has been made so far, and the rest of the format string
  have hbuf : (out ++ rest).length < 2 ^ 31 := by
    rw [List.length_append]
    omega
  fun_induction onePass world args w rest generalizing out with
  | case1 w =>
    rw [substLoop_end world args hbuf (Nat.zero_le _), List.append_nil]
    exact iff_of_true rfl nofun
  | case2 w cs hm ih =>
    have hnext := fits_next (d := openBrace) hlen
    exact substLoop_iff_plain world args rfl (fun _ => rfl) trivial
      (substLoop_plain world args hbuf fun _ => .inl hm)
      (ih _ hnext (by rw [List.length_append]; omega))
  | case3 w cs after hm ih =>
    have hnext := fits_next (d := openBrace) hlen
    exact substLoop_iff_plain world args rfl (fun _ => rfl) trivial
      (substLoop_plain world args hbuf fun _ => .inr ⟨after, hm⟩)
      (ih _ hnext (by rw [List.length_append]; omega))
  | case4 w cs content after hm hne hs ih =>
    have hnext := fits_next (d := openBrace) hlen
    by_cases heq : groupSource world args w content = .ok (exactSource world args w content)
    · refine substLoop_iff_plain world args rfl (fun _ => rfl)
        ((groupSource_eq_iff world args w content).1 heq) ?_
        (ih _ hnext (by rw [List.length_append]; omega))
      rw [substLoop_group world args hbuf hm hne, heq, hs]
    · refine iff_of_false (substLoop_ne world args hbuf hm hne
        (result_assemble_ne_overflow world args w cs _) (fun src hsrc => ?_) fun hnone => ?_)
        fun h => heq ((groupSource_eq_iff world args w content).2 (h _ List.mem_cons_self))
      · -- the groups of the pass are further behind
        intro hhead
        cases src with
        | none => exact heq (hsrc.trans (congrArg Except.ok hs.symm))
        | some src =>
          have hle := place_le_assemble world args w cs _ _ (List.mem_of_mem_head? hhead)
          exact absurd hle (Nat.not_succ_le_self _)
      · exact absurd (hnone.trans (congrArg Except.ok hs.symm)) heq
  | case5 w cs content after hm hne src hs e he =>
    by_cases heq : groupSource world args w content = .ok (exactSource world args w content)
    · rw [substLoop_group world args hbuf hm hne, heq, hs]
      dsimp only
      rw [he]
      refine iff_of_true rfl fun p hp => ?_
      rw [List.mem_singleton.1 hp]
      exact (groupSource_eq_iff world args w content).1 heq
    · refine iff_of_false (substLoop_ne world args hbuf hm hne ?_ (fun group hgroup => ?_)
        fun _ => ⟨src, rfl⟩) fun h =>
          heq ((groupSource_eq_iff world args w content).2 (h _ List.mem_cons_self))
      · exact fun h => sourceText_ne_overflow world args (he.trans h)
      · intro hhead
        obtain ⟨src', hsrc', hpair⟩ := Option.map_eq_some_iff.1 hhead.symm
        exact heq (by rw [hgroup, hs, hsrc', (Prod.mk.inj hpair).2])
  | case6 w cs content after hm hne src hs text ht ih =>
    by_cases heq : groupSource world args w content = .ok (exactSource world args w content)
    · have hcs := length_matchBrace hm
      rw [inserted_cons, List.length_cons, Piece.inserted] at hlen
      have hnext : (out ++ text).length + after.length +
          inserted (onePass world args (w + 1) after) < 2 ^ 31 := by
        rw [List.length_append]
        omega
      have ih := ih _ hnext (by rw [List.length_append]; omega)
      rw [substLoop_group world args hbuf hm hne, heq, hs]
      dsimp only
      rw [ht]
      dsimp only
      rw [List.forall_mem_cons]
      constructor
      · intro h
        exact ⟨(groupSource_eq_iff world args w content).1 heq, ih.1 (cons_injective h)⟩
      · rintro ⟨-, h⟩
        rw [ih.2 h]
        rfl
    · refine iff_of_false (substLoop_ne world args hbuf hm hne
        (result_assemble_ne_overflow world args _ _ _) (fun group hgroup => ?_)
        fun _ => ⟨src, rfl⟩) fun h =>
          heq ((groupSource_eq_iff world args w content).2 (h _ List.mem_cons_self))
      intro hhead
      obtain ⟨src', hsrc', hpair⟩ := Option.map_eq_some_iff.1 hhead.symm
      exact heq (by rw [hgroup, hs, hsrc', (Prod.mk.inj hpair).2])
  | case7 w c cs hc ih =>
    have hnext := fits_next (d := c) hlen
    exact substLoop_iff_plain world args rfl (fun _ => rfl) trivial
      (substLoop_plain world args hbuf fun h => absurd h hc)
      (ih _ hnext (by rw [List.length_append]; omega))

/-! ## `string_substitute` -/

/-- An argument that a group is replaced by is one of the arguments. -/
def Inside (r : Substituted) : Prop :=
  ∀ g ∈ r.groups, ∀ n, g.2 = .argument n → n < args.length

theorem inside_exactSource {w : Nat} {content : List UInt8} {src : Source}
    (h : exactSource world args w content = some src) {n : Nat} (hn : src = .argument n) :
    n < args.length := by
  rw [exactSource] at h
  split at h
  · rename_i hd
    cases h
    cases hn
    exact hd.2
  · rw [hn] at h
    exact absurd h (exactKey_ne_argument world args)

/-- One pass reads arguments that are there. -/
theorem inside_assemble (w : Nat) (rest out : List UInt8) :
    Inside args (assemble out (onePass world args w rest)) := by
  fun_induction onePass world args w rest generalizing out with
  | case1 => exact nofun
  | case2 w cs hm ih => exact ih _
  | case3 w cs after hm ih => exact ih _
  | case4 w cs content after hm hne hs ih => exact ih _
  | case5 w cs content after hm hne src hs e he =>
    intro g hg n hn
    rw [List.mem_singleton.1 hg] at hn
    exact inside_exactSource world args hs hn
  | case6 w cs content after hm hne src hs text ht ih =>
    intro g hg n hn
    rcases List.mem_cons.1 hg with rfl | hg
    · exact inside_exactSource world args hs hn
    · exact ih _ g hg n hn
  | case7 w c cs hc ih => exact ih _

/-- The result is that of one pass over the format string, with the same groups replaced by the same
arguments and keys, and no argument is read that is not there. -/
def SubstIsOnePass (fmt : List UInt8) : Prop :=
  stringSubstitute world args fmt = assemble [] (onePass world args 0 fmt) ∧
    Inside args (stringSubstitute world args fmt)

/-- `subst` is one pass if and only if every piece is kept. -/
theorem stringSubstitute_iff (fmt : List UInt8)
    (hlen : fmt.length + inserted (onePass world args 0 fmt) < 2 ^ 31) :
    SubstIsOnePass world args fmt ↔ ∀ p ∈ onePass world args 0 fmt, p.Right world args := by
  have hiff := substLoop_iff world args 0 [] fmt (by rw [List.length_nil, Nat.zero_add]; exact hlen)
  constructor
  · exact fun h => hiff.1 h.1
  · intro h
    have heq : stringSubstitute world args fmt = assemble [] (onePass world args 0 fmt) :=
      hiff.2 h
    exact ⟨heq, heq ▸ inside_assemble world args 0 fmt []⟩

end

/-! ## `{0}` and `{4294967296}` -/

/-- Strings, which are their own texts, and no tables. -/
def stringWorld : World where
  ops := ⟨fun _ => 0, fun _ => none, .null, id⟩
  tableAt _ _ := create ⟨fun _ => 0, fun _ => none, .null, id⟩ 0
  convert _
    | .string s => some s
    | _ => none

/-- One placeholder. -/
theorem stringSubstitute_iff_zero :
    SubstIsOnePass stringWorld [.string [120]] [123, 48, 125] := by
  have hpass : onePass stringWorld [.string [120]] 0 [123, 48, 125] =
      [.replaced 0 3 [48] (.argument 0) [120]] := by decide +kernel
  refine (stringSubstitute_iff stringWorld [.string [120]] [123, 48, 125] ?_).2 ?_
  · rw [hpass]
    decide
  · rw [hpass]
    intro p hp
    rw [List.mem_singleton.1 hp]
    exact ⟨show decimalValue ([48].takeWhile isDigit) < 2 ^ 31 - 48 by decide,
      fun h => absurd (by decide) h⟩

/-- The index 2^32 overflows an `int`; the pass leaves the group as it is. -/
theorem subst_overflows_index :
    (stringSubstitute stringWorld [.string [120]]
        [123, 52, 50, 57, 52, 57, 54, 55, 50, 57, 54, 125]).result = .error .overflow ∧
      (assemble [] (onePass stringWorld [.string [120]] 0
        [123, 52, 50, 57, 52, 57, 54, 55, 50, 57, 54, 125])).result =
          .ok [123, 52, 50, 57, 52, 57, 54, 55, 50, 57, 54, 125] ∧
      ¬SubstIsOnePass stringWorld [.string [120]]
        [123, 52, 50, 57, 52, 57, 54, 55, 50, 57, 54, 125] := by
  have hsubst : (stringSubstitute stringWorld [.string [120]]
      [123, 52, 50, 57, 52, 57, 54, 55, 50, 57, 54, 125]).result = .error .overflow := by
    decide +kernel
  have hpass : (assemble [] (onePass stringWorld [.string [120]] 0
      [123, 52, 50, 57, 52, 57, 54, 55, 50, 57, 54, 125])).result =
        .ok [123, 52, 50, 57, 52, 57, 54, 55, 50, 57, 54, 125] := by decide +kernel
  refine ⟨hsubst, hpass, fun h => ?_⟩
  rw [h.1, hpass] at hsubst
  cases hsubst

end Quirrel.Strings
