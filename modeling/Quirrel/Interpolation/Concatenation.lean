import Mathlib.Data.List.TakeWhile
import Quirrel.Interpolation.Substitute

/-!
# Interpolation and concatenation

The value of an interpolated literal, compared with the concatenation of its unescaped parts and the
texts of its expressions. A literal part can hold a zero byte, which cuts it off in the format
string, or an escaped brace that `subst` takes for the start of a placeholder. A literal without
either equals the concatenation whatever its expressions are, and no other literal does
(`interpolation_iff`). The format string and the texts are together shorter than 2^31 bytes, since
the positions in the buffer are `int`s.
-/

set_option autoImplicit false

namespace Quirrel.Interpolation

open Quirrel.Vm Quirrel.Table Quirrel.Strings

variable {ε : Type}

/-! ## The value of a literal -/

/-- `MAX_FUNC_STACKSIZE`: an argument of a call takes a register, so that the compiler refuses a
literal with more expressions. -/
def maxFuncStackSize : Nat := 255

/-- The value of the parsed expression, where its arguments have the values `vals`. -/
def TemplateExpr.value (world : World) (vals : List SQObject) :
    TemplateExpr ε → Except SubstError Bytes
  | .literal s => .ok s
  | .callSubst fmt _ => (stringSubstitute world vals fmt).result

/-- The parts and the texts of the values in turn, after `w` conversions. -/
def concatenation (world : World) : Nat → List Bytes → List SQObject → Except SubstError Bytes
  | _, [], _ => .ok []
  | w, part :: parts, [] => prepend part (concatenation world w parts [])
  | w, part :: parts, val :: vals =>
    match world.convert w val with
    | some s => prepend (part ++ s) (concatenation world (w + 1) parts vals)
    | none => .error .conversion

/-- The length of the texts of the values, after `w` conversions. -/
def textLength (world : World) : Nat → List SQObject → Nat
  | _, [] => 0
  | w, val :: vals => ((world.convert w val).getD []).length + textLength world (w + 1) vals

/-- At every escaped brace of the literal, `keeps` holds of the format string behind it, for the
number of conversions that have been made there. -/
def Template.Inert (keeps : Nat → Bytes → Prop) (idx : Nat) : Template ε → Prop
  | .last svalue => Interpolation.Inert (keeps idx) svalue []
  | .cons svalue _ tail =>
    Interpolation.Inert (keeps idx) svalue.dropLast
        (openBrace :: (printIndex idx ++ closeBrace :: tail.format (idx + 1))) ∧
      tail.Inert keeps (idx + 1)

/-- The text behind a brace begins no placeholder: no brace closes it, or the next byte does. -/
def Harmless (rest : Bytes) : Prop :=
  ∀ content after, matchBrace 0 rest = some (content, after) → content = []

/-- No text of the template has a zero byte. -/
def Template.NoNul (t : Template ε) : Prop :=
  ∀ part ∈ t.parts, (0 : UInt8) ∉ part

/-- The expression of a literal. -/
def Template.expr (t : Template ε) : TemplateExpr ε :=
  if t.args.isEmpty then .literal (cString (t.format 0)) else .callSubst (cString (t.format 0)) t.args

/-- The literal equals the concatenation, whatever the values of its expressions are. -/
def Template.Concatenates (t : Template ε) : Prop :=
  ∀ (world : World) (vals : List SQObject), vals.length = t.args.length →
    (t.format 0).length + textLength world 0 vals < 2 ^ 31 →
      t.expr.value world vals = concatenation world 0 t.parts vals

/-! ## The format string -/

theorem cString_of_notMem {s : Bytes} (h : (0 : UInt8) ∉ s) : cString s = s := by
  rw [cString, List.takeWhile_eq_self_iff]
  intro c hc
  simp only [decide_eq_true_eq]
  exact fun h0 => h (h0 ▸ hc)

theorem zero_notMem_cString (s : Bytes) : (0 : UInt8) ∉ cString s := by
  intro h
  have hne := List.mem_takeWhile_imp h
  exact absurd hne (by decide)

theorem zero_notMem_printIndex (k : Nat) : (0 : UInt8) ∉ printIndex k := by
  intro h
  exact absurd ((printIndex_spec k).1 0 h) (by decide)

theorem Template.zero_notMem_format (t : Template ε) (idx : Nat) :
    (0 : UInt8) ∉ t.format idx := by
  induction t generalizing idx with
  | last svalue => exact zero_notMem_cString svalue
  | cons svalue arg tail ih =>
    intro h
    rw [Template.format, List.mem_append, List.mem_append, List.mem_append] at h
    rcases h with ((h | h) | h) | h
    · exact zero_notMem_cString svalue h
    · exact zero_notMem_printIndex idx h
    · exact absurd (List.mem_singleton.mp h) (by decide)
    · exact ih (idx + 1) h

/-- Without zero bytes a piece is the literal part and the brace of the expression behind it. -/
theorem Template.format_cons {svalue : Bytes} {arg : ε} {tail : Template ε} (idx : Nat)
    (hb : (Template.cons svalue arg tail).Braced) (hnul : (Template.cons svalue arg tail).NoNul) :
    (Template.cons svalue arg tail).format idx =
      svalue.dropLast ++ openBrace :: (printIndex idx ++ closeBrace :: tail.format (idx + 1)) := by
  have hpart : (0 : UInt8) ∉ svalue.dropLast := hnul _ (List.mem_cons_self ..)
  have hwhole : (0 : UInt8) ∉ svalue := by
    rw [hb.1, List.mem_append]
    rintro (h | h)
    · exact hpart h
    · exact absurd (List.mem_singleton.mp h) (by decide)
  rw [Template.format, cString_of_notMem hwhole]
  conv => lhs; rw [hb.1]
  simp

theorem Template.format_last {svalue : Bytes}
    (hnul : (Template.last svalue : Template ε).NoNul) (idx : Nat) :
    (Template.last svalue : Template ε).format idx = svalue :=
  cString_of_notMem (hnul svalue List.mem_cons_self)

theorem Template.NoNul.tail {svalue : Bytes} {arg : ε} {tail : Template ε}
    (h : (Template.cons svalue arg tail).NoNul) : tail.NoNul :=
  fun part hpart => h part (List.mem_cons_of_mem _ hpart)

theorem Template.value_expr (t : Template ε) (world : World) (vals : List SQObject) :
    t.expr.value world vals =
      if t.args = [] then .ok (t.format 0)
      else (substLoop world vals 0 (t.format 0) 0).result := by
  have hfmt := cString_of_notMem (t.zero_notMem_format 0)
  rw [Template.expr, hfmt]
  by_cases h : t.args = []
  · rw [if_pos h, if_pos (List.isEmpty_iff.mpr h)]
    rfl
  · rw [if_neg h, if_neg (fun he => h (List.isEmpty_iff.mp he))]
    rfl

/-! ## Literals that equal the concatenation -/

/-- The expressions from number `idx` on, with the values from there on. -/
theorem Template.result_format {world : World} {vals : List SQObject}
    (hargs : vals.length < maxFuncStackSize) (t : Template ε) {idx : Nat} {out : Bytes}
    (hb : t.Braced) (hnul : t.NoNul) (hcount : idx + t.args.length = vals.length)
    (hlen : out.length + (t.format idx).length + textLength world idx (vals.drop idx) < 2 ^ 31)
    (h : t.Inert (KeptFor world vals) idx) :
    (substLoop world vals idx (out ++ t.format idx) out.length).result =
      prepend out (concatenation world idx t.parts (vals.drop idx)) := by
  induction t generalizing idx out with
  | last svalue =>
    have hdone : vals.drop idx = [] := List.drop_of_length_le (Nat.le_of_eq hcount.symm)
    rw [Template.format_last hnul] at hlen ⊢
    have hbuf : (out ++ (svalue ++ [])).length < 2 ^ 31 := by
      rw [List.append_nil, List.length_append]
      omega
    have hscan := substLoop_inert hbuf (show Interpolation.Inert _ svalue [] from h)
    rw [List.append_nil] at hscan
    have hend : ((out ++ svalue) ++ []).length < 2 ^ 31 := by
      rwa [List.append_assoc]
    rw [hscan, substLoop_end world vals hend (Nat.zero_le _), hdone, List.append_nil]
    rw [Template.parts, concatenation, concatenation, prepend_ok, prepend_ok, List.append_nil]
  | cons svalue arg tail ih =>
    have hlt : idx < vals.length := by
      rw [← hcount, Template.args, List.length_cons]
      omega
    have hcell : vals[idx]? = some vals[idx] := List.getElem?_eq_getElem hlt
    have hdrop : vals.drop idx = vals[idx] :: vals.drop (idx + 1) := List.drop_eq_getElem_cons hlt
    rw [Template.format_cons idx hb hnul] at hlen ⊢
    rw [hdrop, textLength] at hlen
    have hbuf : (out ++ (svalue.dropLast ++
        openBrace :: (printIndex idx ++ closeBrace :: tail.format (idx + 1)))).length < 2 ^ 31 := by
      rw [List.length_append]
      omega
    have hbuf' := hbuf
    rw [← List.append_assoc] at hbuf'
    rw [substLoop_inert hbuf h.1, substLoop_placeholder world vals hcell
      (hargs.trans (by decide)) hbuf', hdrop, Template.parts, concatenation]
    cases hconv : world.convert idx vals[idx] with
    | none => rfl
    | some text =>
      rw [hconv, Option.getD_some] at hlen
      simp only [List.length_append, List.length_cons] at hlen
      have htail := @ih (idx + 1) ((out ++ svalue.dropLast) ++ text) hb.2 hnul.tail
        (by rw [← hcount, Template.args, List.length_cons]; omega)
        (by simp only [List.length_append]; omega) h.2
      dsimp only
      rw [htail, prepend_prepend, List.append_assoc]

theorem Inert.mono {keeps keeps' : Bytes → Prop} {part tail : Bytes}
    (himp : ∀ pre rest, part ++ tail = pre ++ openBrace :: rest → keeps rest → keeps' rest)
    (h : Inert keeps part tail) : Inert keeps' part tail := by
  induction part with
  | nil => trivial
  | cons c part ih =>
    refine ⟨fun hc => himp [] (part ++ tail) (by rw [hc]; rfl) (h.1 hc), ih ?_ h.2⟩
    intro pre rest heq
    exact himp (c :: pre) rest (by rw [List.cons_append, heq]; rfl)

/-- `keeps` can be replaced where it holds in the format string. -/
theorem Template.Inert.mono {keeps keeps' : Nat → Bytes → Prop} {t : Template ε} {idx : Nat}
    (hb : t.Braced) (hnul : t.NoNul)
    (himp : ∀ w pre rest, t.format idx = pre ++ openBrace :: rest → keeps w rest → keeps' w rest)
    (h : t.Inert keeps idx) : t.Inert keeps' idx := by
  induction t generalizing idx with
  | last svalue =>
    refine Interpolation.Inert.mono (fun pre rest heq => himp idx pre rest ?_) h
    rw [Template.format_last hnul, ← heq, List.append_nil]
  | cons svalue arg tail ih =>
    have hformat := Template.format_cons idx hb hnul
    refine ⟨Interpolation.Inert.mono (fun pre rest heq => himp idx pre rest ?_) h.1,
      ih hb.2 hnul.tail (fun w pre rest heq => ?_) h.2⟩
    · rw [hformat, heq]
    · refine himp w (svalue.dropLast ++ openBrace :: (printIndex idx ++ closeBrace :: pre)) rest ?_
      rw [hformat, heq]
      simp

/-- A brace that begins no placeholder is kept for all values. -/
theorem Harmless.keptFor {rest : Bytes} (h : Harmless rest) (world : World)
    (vals : List SQObject) (w : Nat) : KeptFor world vals w rest :=
  fun content after hm hne => absurd (h content after hm) hne

/-- With the values at hand it is enough that they leave the escaped braces alone. -/
theorem Template.value_eq_concatenation {t : Template ε} (hb : t.Braced) (hnul : t.NoNul)
    {world : World} {vals : List SQObject} (hlen : vals.length = t.args.length)
    (hmax : t.args.length < maxFuncStackSize)
    (hfit : (t.format 0).length + textLength world 0 vals < 2 ^ 31)
    (h : t.args = [] ∨ t.Inert (KeptFor world vals) 0) :
    t.expr.value world vals = concatenation world 0 t.parts vals := by
  rw [t.value_expr]
  by_cases hargs : t.args = []
  · rw [if_pos hargs]
    cases t with
    | last svalue =>
      have hvals : vals = [] := List.eq_nil_of_length_eq_zero hlen
      rw [hvals, Template.format_last hnul, Template.parts, concatenation, concatenation, prepend_ok,
        List.append_nil]
    | cons svalue arg tail => cases hargs
  · have hresult := @Template.result_format ε world vals (hlen ▸ hmax) t 0 [] hb hnul
      (by rw [Nat.zero_add, hlen]) (by rw [List.length_nil, List.drop_zero]; omega)
      (h.resolve_left hargs)
    rw [if_neg hargs]
    rwa [List.drop_zero, prepend_nil] at hresult

/-! ## Empty strings -/

/-- Every text is empty, and there are no tables. -/
def emptyWorld : World where
  ops := ⟨fun _ => 0, fun _ => none, .null, id⟩
  tableAt _ _ := create ⟨fun _ => 0, fun _ => none, .null, id⟩ 1
  convert _ _ := some []

/-- The values of a literal whose expressions are all the empty string. -/
def emptyStrings (n : Nat) : List SQObject := List.replicate n (.string [])

theorem keySource_emptyStrings (n w : Nat) (content : Bytes) :
    keySource emptyWorld (emptyStrings n) w content = none := by
  have hnone (a : Nat) : findKey emptyWorld (fun t => getStr emptyWorld.ops t content) w
      (emptyStrings n) a = none := by
    induction n generalizing a with
    | zero => rfl
    | succ n ih => exact ih (a + 1)
  exact hnone 0

theorem textLength_replicate {world : World} {val : SQObject}
    (h : ∀ w, world.convert w val = some []) (n w : Nat) :
    textLength world w (List.replicate n val) = 0 := by
  induction n generalizing w with
  | zero => rfl
  | succ n ih =>
    rw [List.replicate_succ, textLength, h, ih]
    rfl

theorem concatenation_replicate {world : World} {val : SQObject}
    (h : ∀ w, world.convert w val = some []) (parts : List Bytes) (n w : Nat) :
    concatenation world w parts (List.replicate n val) = .ok parts.flatten := by
  induction parts generalizing n w with
  | nil => cases n <;> rfl
  | cons part parts ih =>
    cases n with
    | zero => rw [List.replicate_zero, concatenation, ← List.replicate_zero (a := val), ih]; rfl
    | succ n =>
      rw [List.replicate_succ, concatenation, h]
      dsimp only
      rw [ih, List.append_nil, prepend_ok, List.flatten_cons]

/-- The group is the number of an argument. -/
def ByNumber (n : Nat) (content : Bytes) : Prop :=
  content.all isDigit ∧ decimalValue content < n

/-- A group that is replaced by an argument, which is empty. -/
theorem substLoop_of_byNumber {world : World} {vals : List SQObject} {w : Nat}
    {out cs content after : Bytes} (hlen : (out ++ openBrace :: cs).length < 2 ^ 31)
    (hm : matchBrace 0 cs = some (content, after)) (hne : content ≠ [])
    (hright : IndexRight content) (hnum : ByNumber vals.length content)
    (hempty : ∀ val ∈ vals, world.convert w val = some []) :
    (substLoop world vals w (out ++ openBrace :: cs) out.length).result =
      (substLoop world vals (w + 1) (out ++ after) out.length).result := by
  have hcell := List.getElem?_eq_getElem hnum.2
  rw [substLoop_group world vals hlen hm hne, groupSource_of_indexRight world vals hright,
    if_pos (show _ ∧ _ from hnum)]
  dsimp only
  rw [sourceText_argument world vals hcell, hempty _ (List.getElem_mem _)]
  dsimp only
  rw [result_cons, List.append_nil]

theorem groupSource_emptyStrings (n w w' : Nat) (content : Bytes) :
    groupSource emptyWorld (emptyStrings n) w content =
      groupSource emptyWorld (emptyStrings n) w' content := by
  simp only [groupSource, keySource_emptyStrings]

/-- What follows a group that ends within the part. -/
theorem exists_rest {part tail content after : Bytes}
    (h : part ++ tail = content ++ closeBrace :: after) (hlt : content.length < part.length) :
    ∃ part', part'.length + content.length + 1 = part.length ∧ after = part' ++ tail := by
  refine ⟨part.drop (content.length + 1), ?_, ?_⟩
  · rw [List.length_drop]
    omega
  · have hdrop := congrArg (List.drop (content.length + 1)) h
    rw [List.drop_append_of_le_length (by omega), List.append_cons,
      List.drop_left' (by rw [List.length_append, List.length_singleton])] at hdrop
    exact hdrop.symm

/-- A group of digits that begins in a part also ends in it. -/
theorem length_lt_part {part tail content after : Bytes}
    (htail : tail = [] ∨ ∃ rest, tail = openBrace :: rest)
    (hm : matchBrace 0 (part ++ tail) = some (content, after)) (hdig : content.all isDigit) :
    content.length < part.length := by
  obtain rfl | ⟨rest, rfl⟩ := htail
  · have hlen := length_matchBrace hm
    rw [List.append_nil] at hlen
    omega
  · exact length_lt_of_digits hm hdig

/-- Replaced by nothing, a literal part is as long as before only if all its braces are kept. -/
theorem length_result_part {n : Nat} {tail r : Bytes}
    (htail : tail = [] ∨ ∃ rest, tail = openBrace :: rest) (w' size : Nat) {part out : Bytes}
    {w : Nat} (hsize : part.length = size) (hlen : (out ++ (part ++ tail)).length < 2 ^ 31)
    (h : (substLoop emptyWorld (emptyStrings n) w (out ++ (part ++ tail)) out.length).result =
      .ok r) :
    ∃ w₁ out₁, out₁.length ≤ out.length + size ∧
      (substLoop emptyWorld (emptyStrings n) w₁ (out₁ ++ tail) out₁.length).result = .ok r ∧
      (out₁.length = out.length + size →
        Inert (KeptFor emptyWorld (emptyStrings n) w') part tail) := by
  induction size using Nat.strongRecOn generalizing part out w with
  | _ size ih =>
    cases part with
    | nil => exact ⟨w, out, Nat.le_add_right _ _, h, fun _ => trivial⟩
    | cons c part =>
      rw [List.length_cons] at hsize
      have hbuf : (out ++ c :: (part ++ tail)).length < 2 ^ 31 := hlen
      by_cases hkeep : c = openBrace → KeptFor emptyWorld (emptyStrings n) w (part ++ tail)
      · -- the byte is kept
        have hscan := substLoop_keep emptyWorld (emptyStrings n) hbuf hkeep
        rw [List.cons_append, hscan] at h
        obtain ⟨w₁, out₁, hle, hr, heq⟩ := ih part.length (by omega) rfl
          (by rw [List.append_assoc]; exact hbuf) h
        rw [List.length_append, List.length_singleton] at hle heq
        refine ⟨w₁, out₁, by omega, hr, fun hl => ⟨fun hc content after hm hne => ?_, ?_⟩⟩
        · exact (groupSource_emptyStrings n w' w content).trans (hkeep hc content after hm hne)
        · exact heq (by omega)
      · -- a numbered placeholder within the part disappears
        rw [Classical.not_imp] at hkeep
        obtain ⟨rfl, hkeep⟩ := hkeep
        rw [KeptFor, not_forall] at hkeep
        obtain ⟨content, hkeep⟩ := hkeep
        simp only [Classical.not_imp, not_forall] at hkeep
        obtain ⟨after, hm, hne, hgroup⟩ := hkeep
        rw [List.cons_append] at h
        by_cases hright : IndexRight content
        · have hnum : ByNumber (emptyStrings n).length content := by
            by_contra hnum
            rw [groupSource_of_indexRight _ _ hright, if_neg (show ¬(_ ∧ _) from hnum),
              keySource_emptyStrings] at hgroup
            exact hgroup rfl
          rw [substLoop_of_byNumber hbuf hm hne hright hnum fun _ _ => rfl] at h
          obtain ⟨part', hpart', rfl⟩ := exists_rest (matchBrace_append hm)
            (length_lt_part htail hm hnum.1)
          obtain ⟨w₁, out₁, hle, hr, -⟩ := ih part'.length (by omega) rfl
            (by simp only [List.length_append, List.length_cons] at hbuf ⊢; omega) h
          exact ⟨w₁, out₁, by omega, hr, fun hl => by omega⟩
        · rw [substLoop_group _ _ hbuf hm hne, groupSource_of_overflow _ _ hright] at h
          cases h

/-- Replaced by nothing, the literal is as long as its parts only if all their braces are kept. -/
theorem Template.length_result {n : Nat} (hn : n < maxFuncStackSize) (t : Template ε) {idx w : Nat}
    {out r : Bytes} (hb : t.Braced) (hnul : t.NoNul) (hcount : idx + t.args.length = n)
    (hlen : (out ++ t.format idx).length < 2 ^ 31)
    (h : (substLoop emptyWorld (emptyStrings n) w (out ++ t.format idx) out.length).result =
      .ok r) :
    r.length ≤ out.length + t.parts.flatten.length ∧
      (r.length = out.length + t.parts.flatten.length →
        t.Inert (KeptFor emptyWorld (emptyStrings n)) idx) := by
  induction t generalizing idx out w with
  | last svalue =>
    rw [Template.format_last hnul, ← List.append_nil svalue] at h hlen
    obtain ⟨w₁, out₁, hle, hr, heq⟩ := length_result_part (.inl rfl) idx _ rfl hlen h
    have hend : (out₁ ++ []).length < 2 ^ 31 := by
      rw [List.append_nil] at hlen ⊢
      rw [List.length_append] at hlen
      omega
    rw [substLoop_end _ _ hend (Nat.zero_le _), List.append_nil] at hr
    cases hr
    rw [Template.parts, List.flatten_singleton]
    exact ⟨hle, heq⟩
  | cons svalue arg tail ih =>
    rw [Template.args, List.length_cons] at hcount
    rw [Template.format_cons idx hb hnul] at h hlen
    obtain ⟨w₁, out₁, hle, hr, heq⟩ := length_result_part (.inr ⟨_, rfl⟩) idx _ rfl hlen h
    have hcell : (emptyStrings n)[idx]? = some (.string []) := by
      rw [emptyStrings, List.getElem?_replicate, if_pos (by omega)]
    simp only [List.length_append, List.length_cons] at hlen
    rw [substLoop_placeholder _ _ hcell
      (by rw [emptyStrings, List.length_replicate]; exact hn.trans (by decide))
      (by simp only [List.length_append, List.length_cons]; omega)] at hr
    have hnext : (substLoop emptyWorld (emptyStrings n) (w₁ + 1)
        ((out₁ ++ []) ++ tail.format (idx + 1)) (out₁ ++ []).length).result = .ok r := hr
    rw [List.append_nil] at hnext
    obtain ⟨hle', heq'⟩ := ih hb.2 hnul.tail (by omega)
      (by rw [List.length_append]; omega) hnext
    rw [Template.parts, List.flatten_cons, List.length_append]
    exact ⟨by omega, fun hl => ⟨heq (by omega), heq' (by omega)⟩⟩

/-! ## Tables with one slot -/

/-- A table with the one slot `key`, whose value is a zero byte. -/
def oneSlot (key : Bytes) : SQTable SQObject SQObject :=
  { (create emptyWorld.ops 1).setNode 0 ⟨.string [0], some (.string key), none⟩ with usednodes := 1 }

/-- Tables with the slot `key`, whose own texts are empty. -/
def slotWorld (key : Bytes) : World where
  ops := emptyWorld.ops
  tableAt _ _ := oneSlot key
  convert _
    | .string s => some s
    | _ => some []

/-- The values of a literal whose expressions are all the same table. -/
def oneTable (n : Nat) : List SQObject := List.replicate n (.ref .table 0)

theorem sameStr_self (key : Bytes) : sameStr key (some (.string key)) = true := by
  rw [sameStr, Bool.and_eq_true, decide_eq_true_eq, decide_eq_true_eq]
  exact ⟨rfl, (strncmp_eq_zero_iff (Nat.le_refl _)).2 (throughNul_isPrefix key)⟩

/-- The only node of the table holds the key or not. -/
theorem getStr_oneSlot (key content : Bytes) :
    getStr (slotWorld key).ops (oneSlot key) content =
      if sameStr content (some (.string key)) then some (some 0) else some none := by
  have hmain : mainPosition (slotWorld key).ops (oneSlot key) (.string content) = 0 :=
    Nat.zero_and _
  rw [getStr, show (oneSlot key).size = 1 from rfl, hmain]
  rfl

theorem keySource_oneTable (key content : Bytes) (n w : Nat) :
    keySource (slotWorld key) (oneTable n) w content =
      if 0 < n ∧ sameStr content (some (.string key)) then some (.key 0 0) else none := by
  have hget := getStr_oneSlot key content
  by_cases hsame : sameStr content (some (.string key))
  · rw [if_pos hsame] at hget
    cases n with
    | zero => rfl
    | succ n =>
      rw [if_pos ⟨n.succ_pos, hsame⟩, keySource, oneTable, List.replicate_succ, findKey]
      rw [show (slotWorld key).tableAt w 0 = oneSlot key from rfl, hget]
  · rw [if_neg hsame] at hget
    rw [if_neg fun h => hsame h.2]
    have hnone (a : Nat) : findKey (slotWorld key) (fun t => getStr (slotWorld key).ops t content) w
        (oneTable n) a = none := by
      induction n generalizing a with
      | zero => rfl
      | succ n ih =>
        rw [oneTable, List.replicate_succ, findKey]
        rw [show (slotWorld key).tableAt w 0 = oneSlot key from rfl, hget]
        exact ih (a + 1)
    exact hnone 0

/-- A group that is no number and is replaced puts in a zero byte. -/
theorem zero_mem_of_key {key : Bytes} {n w : Nat} {out cs content after r : Bytes}
    (hlen : (out ++ openBrace :: cs).length < 2 ^ 31)
    (hm : matchBrace 0 cs = some (content, after)) (hne : content ≠ [])
    (hnum : ¬ByNumber (oneTable n).length content)
    (hgroup : groupSource (slotWorld key) (oneTable n) w content ≠ .ok none)
    (h : (substLoop (slotWorld key) (oneTable n) w (out ++ openBrace :: cs) out.length).result =
      .ok r) : 0 ∈ r := by
  rw [substLoop_group _ _ hlen hm hne] at h
  by_cases hright : IndexRight content
  · rw [groupSource_of_indexRight _ _ hright, if_neg (show ¬(_ ∧ _) from hnum),
      keySource_oneTable] at h hgroup
    split at h
    · cases h
    · rename_i heq
      exact absurd heq hgroup
    · rename_i src heq
      split at heq
      · rename_i hn
        cases heq
        have htext : sourceText (slotWorld key) (oneTable n) w (.key 0 0) = .ok [0] := by
          obtain ⟨n, rfl⟩ : ∃ k, n = k + 1 := ⟨n - 1, by omega⟩
          rfl
        rw [htext] at h
        dsimp only at h
        rw [result_cons] at h
        exact (prefix_result h).subset (List.mem_append_right out (List.mem_singleton_self 0))
      · cases heq
  · rw [groupSource_of_overflow _ _ hright] at h
    cases h

theorem convert_oneTable (key : Bytes) (n w : Nat) :
    ∀ val ∈ oneTable n, (slotWorld key).convert w val = some [] := by
  intro val hval
  rw [List.eq_of_mem_replicate hval]
  rfl

/-- A brace whose placeholder is not a number is replaced by the slot of that name, if it is reached:
before it only numbered placeholders or the same slot are replaced. -/
theorem zero_mem_of_oneSlot {n : Nat} {rest content after r : Bytes}
    (hm : matchBrace 0 rest = some (content, after)) (hne : content ≠ [])
    (hnum : ¬ByNumber (oneTable (n + 1)).length content) (size : Nat) {pre out : Bytes} {w : Nat}
    (hsize : pre.length = size) (hlen : (out ++ (pre ++ openBrace :: rest)).length < 2 ^ 31)
    (h : (substLoop (slotWorld content) (oneTable (n + 1)) w (out ++ (pre ++ openBrace :: rest))
      out.length).result = .ok r) : 0 ∈ r := by
  induction size using Nat.strongRecOn generalizing pre out w with
  | _ size ih =>
    cases pre with
    | nil =>
      refine zero_mem_of_key hlen hm hne hnum ?_ h
      by_cases hright : IndexRight content
      · rw [groupSource_of_indexRight _ _ hright, if_neg (show ¬(_ ∧ _) from hnum),
          keySource_oneTable, if_pos ⟨n.succ_pos, sameStr_self content⟩]
        exact nofun
      · rw [groupSource_of_overflow _ _ hright]
        exact nofun
    | cons c pre =>
      rw [List.length_cons] at hsize
      have hbuf : (out ++ c :: (pre ++ openBrace :: rest)).length < 2 ^ 31 := hlen
      -- what stands in front is kept, replaced by number, or a group that is looked up by its text
      by_cases hkeep : c = openBrace →
          KeptFor (slotWorld content) (oneTable (n + 1)) w (pre ++ openBrace :: rest)
      · have hscan := substLoop_keep (slotWorld content) (oneTable (n + 1)) hbuf hkeep
        rw [List.cons_append, hscan] at h
        exact ih pre.length (by omega) rfl (by rw [List.append_assoc]; exact hbuf) h
      · rw [Classical.not_imp] at hkeep
        obtain ⟨rfl, hkeep⟩ := hkeep
        rw [KeptFor, not_forall] at hkeep
        obtain ⟨content', hkeep⟩ := hkeep
        simp only [Classical.not_imp, not_forall] at hkeep
        obtain ⟨after', hm', hne', hgroup⟩ := hkeep
        rw [List.cons_append] at h
        by_cases hnum' : ByNumber (oneTable (n + 1)).length content'
        · by_cases hright : IndexRight content'
          · rw [substLoop_of_byNumber hbuf hm' hne' hright hnum' (convert_oneTable _ _ _)] at h
            obtain ⟨pre', hpre', rfl⟩ := exists_rest (matchBrace_append hm')
              (length_lt_of_digits hm' hnum'.1)
            exact ih pre'.length (by omega) rfl
              (by simp only [List.length_append, List.length_cons] at hbuf ⊢; omega) h
          · rw [substLoop_group _ _ hbuf hm' hne', groupSource_of_overflow _ _ hright] at h
            cases h
        · exact zero_mem_of_key hbuf hm' hne' hnum' hgroup h

/-! ## All literals -/

/-- The format string holds no zero byte, so that the parts cannot hold one either. -/
theorem Template.Concatenates.noNul {t : Template ε} (h : t.Concatenates)
    (hfmt : (t.format 0).length < 2 ^ 31) : t.NoNul := by
  have hval := h emptyWorld (emptyStrings t.args.length) (List.length_replicate ..)
    (by rw [emptyStrings, textLength_replicate fun _ => rfl]; exact hfmt)
  rw [t.value_expr, emptyStrings, concatenation_replicate fun _ => rfl] at hval
  intro part hpart hzero
  have hmem : (0 : UInt8) ∈ t.parts.flatten := List.mem_flatten.mpr ⟨part, hpart, hzero⟩
  split at hval
  · have heq : t.format 0 = t.parts.flatten := Except.ok.inj hval
    exact t.zero_notMem_format 0 (heq ▸ hmem)
  · refine t.zero_notMem_format 0 (mem_of_mem_result (fun _ _ text htext => ?_) hval hmem)
    cases htext
    rfl

/-- Empty strings show that the escaped braces begin no numbered placeholder, tables with one slot
that they begin no other. -/
theorem Template.Concatenates.inert {t : Template ε} (h : t.Concatenates) (hb : t.Braced)
    (hmax : t.args.length < maxFuncStackSize) (hfmt : (t.format 0).length < 2 ^ 31)
    (hargs : t.args ≠ []) : t.Inert (fun _ => Harmless) 0 := by
  have hnul := h.noNul hfmt
  have hresult (world : World) (val : SQObject) (hconv : ∀ w, world.convert w val = some []) :
      (substLoop world (List.replicate t.args.length val) 0 (t.format 0) 0).result =
        .ok t.parts.flatten := by
    have hval := h world (List.replicate t.args.length val) (List.length_replicate ..)
      (by rw [textLength_replicate hconv]; exact hfmt)
    rwa [t.value_expr, if_neg hargs, concatenation_replicate hconv] at hval
  have hkept : t.Inert (KeptFor emptyWorld (emptyStrings t.args.length)) 0 :=
    (@Template.length_result ε _ hmax t 0 0 [] _ hb hnul (Nat.zero_add _) hfmt
      (hresult _ _ fun _ => rfl)).2 (Nat.zero_add _).symm
  refine hkept.mono hb hnul fun w pre rest hformat hkeep content after hm => ?_
  by_contra hne
  have hgroup := hkeep content after hm hne
  have hright : IndexRight content := by
    by_contra hright
    rw [groupSource_of_overflow _ _ hright] at hgroup
    cases hgroup
  have hnum : ¬ByNumber t.args.length content := by
    intro hnum
    have hlen : ByNumber (emptyStrings t.args.length).length content := by
      rwa [emptyStrings, List.length_replicate]
    rw [groupSource_of_indexRight _ _ hright, if_pos (show _ ∧ _ from hlen)] at hgroup
    cases hgroup
  -- a slot whose text is no byte of a literal
  obtain ⟨k, hk⟩ := Nat.exists_eq_succ_of_ne_zero
    fun h0 => hargs (List.eq_nil_of_length_eq_zero h0)
  have hslot := hresult (slotWorld content) (.ref .table 0) fun _ => rfl
  rw [hformat, hk] at hslot
  rw [hk] at hnum
  have hzero : 0 ∈ t.parts.flatten := @zero_mem_of_oneSlot k _ content after _ hm hne
    (by rwa [oneTable, List.length_replicate]) _ pre [] 0 rfl (by rw [List.nil_append, ← hformat]; exact hfmt)
    hslot
  obtain ⟨part, hpart, hmem⟩ := List.mem_flatten.1 hzero
  exact hnul part hpart hmem

/-- A literal equals the concatenation for all values of its expressions exactly if its parts have no
zero byte and no escaped brace of it begins a placeholder; for the values at hand it is enough that
they leave the escaped braces alone. -/
theorem interpolation_iff (P : ExprParser ε) (src : Bytes) {t : Template ε} {rest : Bytes}
    (h : readTemplate P src = some (t, rest)) (hmax : t.args.length < maxFuncStackSize)
    (hfmt : (t.format 0).length < 2 ^ 31) :
    parseStringTemplate P src = some (t.expr, rest) ∧
      (t.Concatenates ↔ t.NoNul ∧ (t.args = [] ∨ t.Inert (fun _ => Harmless) 0)) ∧
      ∀ (world : World) (vals : List SQObject), vals.length = t.args.length →
        (t.format 0).length + textLength world 0 vals < 2 ^ 31 → t.NoNul →
          t.Inert (KeptFor world vals) 0 →
            t.expr.value world vals = concatenation world 0 t.parts vals := by
  have hb := readTemplate_braced P src h
  refine ⟨by rw [parseStringTemplate, h]; rfl, ⟨fun hconc => ?_, fun hcond world vals hlen hfit => ?_⟩,
    fun world vals hlen hfit hnul hinert =>
      Template.value_eq_concatenation hb hnul hlen hmax hfit (.inr hinert)⟩
  · refine ⟨hconc.noNul hfmt, ?_⟩
    by_cases hargs : t.args = []
    · exact .inl hargs
    · exact .inr (hconc.inert hb hmax hfmt hargs)
  · refine Template.value_eq_concatenation hb hcond.1 hlen hmax hfit
      (hcond.2.imp_right fun hin => ?_)
    exact hin.mono hb hcond.1 fun w _ _ _ hharmless => hharmless.keptFor world vals w

/-- Expressions of one byte, for the runs below. -/
def variableName : ExprParser UInt8 where
  expression
    | c :: d :: rest => if d = closeBrace then some (c, rest) else none
    | _ => none
  consumes := by
    intro src e rest h
    match src with
    | c :: d :: tail =>
      simp only at h
      split at h
      · cases h
        simp only [List.length_cons]
        omega
      · exact nomatch h
    | [c] => exact nomatch h
    | [] => exact nomatch h

/-- `$"a{x}b"` -/
theorem interpolation_iff_letters :
    readTemplate variableName [97, 123, 120, 125, 98, 34] =
        some (.cons [97, 123] 120 (.last [98]), []) ∧
      (Template.cons [97, 123] 120 (.last [98]) : Template UInt8).Concatenates := by
  have hread : readTemplate variableName [97, 123, 120, 125, 98, 34] =
      some (.cons [97, 123] 120 (.last [98]), []) := by
    have hpiece : readString [97, 123, 120, 125, 98, 34] =
        some ⟨false, [97, 123], [120, 125, 98, 34]⟩ := by
      simp [readString, Token.prepend, quote, backslash, newline, openBrace]
    have hlast : readString [98, 34] = some ⟨true, [98], []⟩ := by
      simp [readString, Token.prepend, quote, backslash, newline, openBrace]
    exact readTemplate_cons hpiece rfl (readTemplate_last hlast)
  refine ⟨hread,
    (interpolation_iff variableName _ hread (by decide) (by decide)).2.1.mpr ⟨?_, Or.inr ?_⟩⟩
  · show ∀ part ∈ [[97], [98]], (0 : UInt8) ∉ part
    decide
  · exact ⟨⟨fun h => absurd h (by decide), trivial⟩, ⟨fun h => absurd h (by decide), trivial⟩⟩

/-- `$"\{0\}{x}"`, where `x` is `"v"` -/
theorem escaped_placeholder_replaced :
    readTemplate variableName [92, 123, 48, 92, 125, 123, 120, 125, 34] =
        some (.cons [123, 48, 125, 123] 120 (.last []), []) ∧
      (Template.cons [123, 48, 125, 123] 120 (.last []) : Template UInt8).expr.value stringWorld
          [.string [118]] = .ok [118, 118] ∧
      concatenation stringWorld 0
          (Template.cons [123, 48, 125, 123] (120 : UInt8) (.last [])).parts [.string [118]] =
            .ok [123, 48, 125, 118] := by
  refine ⟨?_, ?_, by decide⟩
  · have hbrace : readString [123, 120, 125, 34] = some ⟨false, [123], [120, 125, 34]⟩ := by
      simp [readString, quote, backslash, newline, openBrace]
    have hclose : readString [92, 125, 123, 120, 125, 34] =
        some ⟨false, [125, 123], [120, 125, 34]⟩ := by
      have hesc : readEscape [125, 123, 120, 125, 34] = some ([125], [123, 120, 125, 34]) := rfl
      rw [show (92 : UInt8) = backslash from rfl, readString_escape hesc, hbrace]
      rfl
    have hdigit : readString [48, 92, 125, 123, 120, 125, 34] =
        some ⟨false, [48, 125, 123], [120, 125, 34]⟩ := by
      rw [readString, if_neg (by decide), if_neg (by decide), if_neg (by decide),
        if_neg (by decide), hclose]
      rfl
    have hpiece : readString [92, 123, 48, 92, 125, 123, 120, 125, 34] =
        some ⟨false, [123, 48, 125, 123], [120, 125, 34]⟩ := by
      have hesc : readEscape [123, 48, 92, 125, 123, 120, 125, 34] =
          some ([123], [48, 92, 125, 123, 120, 125, 34]) := rfl
      exact (readString_escape hesc).trans (congrArg (Option.map (Token.prepend [123])) hdigit)
    have hlast : readString [34] = some ⟨true, [], []⟩ := by
      simp [readString, quote]
    exact readTemplate_cons hpiece rfl (readTemplate_last hlast)
  · rw [Template.value_expr]
    decide +kernel

end Quirrel.Interpolation
