import Quirrel.Interpolation.Template
import Quirrel.Strings.SubstPass

/-!
# `subst` on a format string

What the scan of `string_substitute` (`Strings.substLoop`) does at a literal part and at a placeholder
of the format string. The buffer is what has been made so far, followed by the rest of the format
string; what has been made is never changed again (`prefix_substLoop`).
-/

set_option autoImplicit false

namespace Quirrel.Interpolation

open Quirrel.Lib Quirrel.Vm Quirrel.Table Quirrel.Strings

/-! ## Results -/

/-- Bytes in front of a result. -/
def prepend (front : Bytes) (r : Except SubstError Bytes) : Except SubstError Bytes :=
  r.map (front ++ ·)

@[simp] theorem prepend_ok (front s : Bytes) : prepend front (.ok s) = .ok (front ++ s) := rfl

@[simp] theorem prepend_error (front : Bytes) (e : SubstError) :
    prepend front (.error e) = .error e := rfl

@[simp] theorem prepend_nil (r : Except SubstError Bytes) : prepend [] r = r := by
  cases r <;> rfl

@[simp] theorem prepend_prepend (s t : Bytes) (r : Except SubstError Bytes) :
    prepend s (prepend t r) = prepend (s ++ t) r := by
  cases r with
  | error e => rfl
  | ok u => rw [prepend_ok, prepend_ok, prepend_ok, List.append_assoc]

section

variable (world : World) (vals : List SQObject)

/-! ## Braces that are kept -/

/-- The brace before the text begins no placeholder of the values, after `w` conversions. -/
def KeptFor (w : Nat) (rest : Bytes) : Prop :=
  ∀ content after, matchBrace 0 rest = some (content, after) → content ≠ [] →
    groupSource world vals w content = .ok none

theorem substLoop_keep {w : Nat} {out cs : Bytes} {c : UInt8}
    (hlen : (out ++ c :: cs).length < 2 ^ 31) (h : c = openBrace → KeptFor world vals w cs) :
    substLoop world vals w (out ++ c :: cs) out.length =
      substLoop world vals w ((out ++ [c]) ++ cs) (out ++ [c]).length := by
  by_cases hc : c = openBrace
  · cases hm : matchBrace 0 cs with
    | none => exact substLoop_plain world vals hlen fun _ => .inl hm
    | some p =>
      by_cases hnil : p.1 = []
      · exact substLoop_plain world vals hlen fun _ => .inr ⟨p.2, hnil ▸ hm⟩
      · subst hc
        rw [substLoop_group world vals hlen hm hnil, h rfl p.1 p.2 hm hnil]
  · exact substLoop_plain world vals hlen fun h => absurd h hc

end

/-- At every opening brace of the part, `keeps` holds of the text behind it. -/
def Inert (keeps : Bytes → Prop) : Bytes → Bytes → Prop
  | [], _ => True
  | c :: part, tail => (c = openBrace → keeps (part ++ tail)) ∧ Inert keeps part tail

theorem substLoop_inert {world : World} {vals : List SQObject} {w : Nat} {out part tail : Bytes}
    (hlen : (out ++ (part ++ tail)).length < 2 ^ 31)
    (h : Inert (KeptFor world vals w) part tail) :
    substLoop world vals w (out ++ (part ++ tail)) out.length =
      substLoop world vals w ((out ++ part) ++ tail) (out ++ part).length := by
  induction part generalizing out with
  | nil => rw [List.nil_append, List.append_nil]
  | cons c part ih =>
    have happ : (out ++ [c]) ++ (part ++ tail) = out ++ (c :: part ++ tail) :=
      (List.append_cons out c _).symm
    have hkeep : c = openBrace → KeptFor world vals w (part ++ tail) := h.1
    have hbuf : (out ++ c :: (part ++ tail)).length < 2 ^ 31 := hlen
    rw [List.cons_append, substLoop_keep world vals hbuf hkeep, ih (happ ▸ hlen) h.2,
      ← List.append_cons out c part]

/-! ## What has been made stays -/

theorem take_replaceBytes {s text : Bytes} {i n : Nat} (h : i ≤ s.length) :
    (replaceBytes s i n text).take (i + text.length) = s.take i ++ text := by
  have hfront : (s.take i ++ text).length = i + text.length := by
    rw [List.length_append, List.length_take, Nat.min_eq_left h]
  rw [replaceBytes, List.take_append_of_le_length (Nat.le_of_eq hfront.symm),
    List.take_of_length_le (Nat.le_of_eq hfront)]

theorem result_cons (r : Substituted) (g : Nat × Source) : (r.cons g).result = r.result := rfl

theorem prefix_substLoop {world : World} {vals : List SQObject} {w : Nat} {s : Bytes} {i : Nat}
    {r : Bytes} (h : (substLoop world vals w s i).result = .ok r) : s.take i <+: r := by
  have hnext {s : Bytes} {i : Nat} (hr : s.take (i + 1) <+: r) : s.take i <+: r :=
    (List.take_prefix_take_left (Nat.le_succ i)).trans hr
  fun_induction substLoop world vals w s i with
  | case1 w s i hi hc hj ih => exact hnext (ih h)
  | case2 w s i hi hc hj ih => exact hnext (ih h)
  | case3 => cases h
  | case4 w s i hi hc j hj hne hg ih => exact hnext (ih h)
  | case5 => cases h
  | case6 w s i hi hc j hj hne src hg text ht ih =>
    have hjj := le_findClose hj
    have hr := ih h
    rw [take_replaceBytes (by omega)] at hr
    exact (List.prefix_append _ _).trans hr
  | case7 w s i hi hc ih => exact hnext (ih h)
  | case8 w s i hi =>
    cases h
    exact List.take_prefix i _

theorem prefix_result {world : World} {vals : List SQObject} {w : Nat} {out rest r : Bytes}
    (h : (substLoop world vals w (out ++ rest) out.length).result = .ok r) : out <+: r := by
  have hr := prefix_substLoop h
  rwa [List.take_left] at hr

/-- If everything is replaced by nothing, all bytes come from the buffer. -/
theorem mem_of_mem_result {world : World} {vals : List SQObject}
    (hempty : ∀ w val text, world.convert w val = some text → text = []) {w : Nat} {s : Bytes}
    {i : Nat} {r : Bytes} (h : (substLoop world vals w s i).result = .ok r) {c : UInt8}
    (hc : c ∈ r) : c ∈ s := by
  fun_induction substLoop world vals w s i with
  | case1 w s i hi hb hj ih => exact ih h
  | case2 w s i hi hb hj ih => exact ih h
  | case3 => cases h
  | case4 w s i hi hb j hj hne hg ih => exact ih h
  | case5 => cases h
  | case6 w s i hi hb j hj hne src hg text ht ih =>
    have htext : text = [] := by
      rw [sourceText] at ht
      split at ht
      · cases ht
      · split at ht
        · cases ht
        · rename_i t hconv
          cases ht
          exact hempty _ _ _ hconv
    have hmem := ih h
    rw [htext, replaceBytes, List.append_nil, List.mem_append] at hmem
    exact hmem.elim (fun hm => List.mem_of_mem_take hm) fun hm => List.mem_of_mem_drop hm
  | case7 w s i hi hb ih => exact ih h
  | case8 =>
    cases h
    exact hc

/-! ## Numbered placeholders -/

theorem digit_byte {d : Nat} (hd : d < 10) :
    isDigit (UInt8.ofNat (Nat.digitChar d).toNat) = true ∧
      (UInt8.ofNat (Nat.digitChar d).toNat).toNat - 48 = d := by
  have hall : ∀ d < 10, isDigit (UInt8.ofNat (Nat.digitChar d).toNat) = true ∧
      (UInt8.ofNat (Nat.digitChar d).toNat).toNat - 48 = d := by decide
  exact hall d hd

theorem printIndex_of_lt {n : Nat} (h : n < 10) :
    printIndex n = [UInt8.ofNat (Nat.digitChar n).toNat] := by
  rw [printIndex, Nat.toDigits_of_lt_base h]
  rfl

theorem printIndex_of_le {n : Nat} (h : 10 ≤ n) :
    printIndex n = printIndex (n / 10) ++ [UInt8.ofNat (Nat.digitChar (n % 10)).toNat] := by
  rw [printIndex, Nat.toDigits_of_base_le (by decide) h, List.map_append]
  rfl

/-- A printed number consists of digits and has its value. -/
theorem printIndex_spec (n : Nat) :
    (∀ c ∈ printIndex n, isDigit c = true) ∧ decimalValue (printIndex n) = n := by
  induction n using Nat.strongRecOn with
  | _ n ih =>
    by_cases h : n < 10
    · obtain ⟨hdig, hval⟩ := digit_byte h
      rw [printIndex_of_lt h]
      refine ⟨fun c hc => List.mem_singleton.mp hc ▸ hdig, ?_⟩
      rw [decimalValue, List.foldl_cons, List.foldl_nil, hval]
      omega
    · obtain ⟨hdigs, hread⟩ := ih (n / 10) (by omega)
      obtain ⟨hdig, hval⟩ := digit_byte (Nat.mod_lt n (show 0 < 10 by decide))
      rw [printIndex_of_le (by omega)]
      constructor
      · intro c hc
        rcases List.mem_append.mp hc with hc | hc
        · exact hdigs c hc
        · exact List.mem_singleton.mp hc ▸ hdig
      · rw [decimalValue] at hread
        rw [decimalValue, List.foldl_append, hread, List.foldl_cons, List.foldl_nil, hval]
        omega

theorem printIndex_ne_nil (n : Nat) : printIndex n ≠ [] := by
  intro h
  exact Nat.toDigits_ne_nil (List.map_eq_nil_iff.mp h)

theorem matchBrace_digits {s : Bytes} (hs : ∀ c ∈ s, isDigit c = true) (tail : Bytes) :
    matchBrace 0 (s ++ closeBrace :: tail) = some (s, tail) := by
  induction s with
  | nil => rfl
  | cons c s ih =>
    have hc := hs c List.mem_cons_self
    have h1 : c ≠ closeBrace := fun h => absurd (h ▸ hc) (by decide)
    have h2 : c ≠ openBrace := fun h => absurd (h ▸ hc) (by decide)
    rw [List.cons_append, matchBrace, if_neg h1, if_neg h2,
      ih fun d hd => hs d (List.mem_cons_of_mem c hd)]
    rfl

/-- A group of digits ends before the next opening brace. -/
theorem length_lt_of_digits {pre rest content after : Bytes}
    (h : matchBrace 0 (pre ++ openBrace :: rest) = some (content, after))
    (hdig : content.all isDigit) : content.length < pre.length := by
  have happ := matchBrace_append h
  by_contra hge
  have hmem : openBrace ∈ content ++ [closeBrace] := by
    have htake : (pre ++ openBrace :: rest).take (pre.length + 1) = pre ++ [openBrace] := by
      rw [List.append_cons, List.take_left' (by rw [List.length_append, List.length_singleton])]
    have hsub : pre ++ [openBrace] <+: content ++ [closeBrace] := by
      rw [← htake, happ, List.append_cons,
        List.take_append_of_le_length (by rw [List.length_append, List.length_singleton]; omega)]
      exact List.take_prefix _ _
    exact hsub.subset (List.mem_append_right pre (List.mem_singleton_self _))
  rcases List.mem_append.1 hmem with hin | hin
  · exact absurd (List.all_eq_true.1 hdig _ hin) (by decide)
  · exact absurd (List.mem_singleton.1 hin) (by decide)

section

variable (world : World) (vals : List SQObject)

/-- The argument of a printed index. -/
theorem groupSource_printIndex {w k : Nat} (hk : k < vals.length)
    (hlen : vals.length < 2 ^ 31 - 48) :
    groupSource world vals w (printIndex k) = .ok (some (.argument k)) := by
  obtain ⟨hdig, hval⟩ := printIndex_spec k
  have hall : (printIndex k).all isDigit := List.all_eq_true.2 hdig
  have hright : IndexRight (printIndex k) := by
    rw [IndexRight, takeWhile_of_all hall, hval]
    omega
  rw [groupSource_of_indexRight world vals hright, hval, if_pos ⟨hall, hk⟩]

theorem sourceText_argument {w k : Nat} {val : SQObject} (hk : vals[k]? = some val) :
    sourceText world vals w (.argument k) =
      match world.convert w val with
      | none => .error .conversion
      | some text => .ok text := by
  cases hconv : world.convert w val with
  | none => simp [sourceText, sourceValue, hk, hconv]
  | some text => simp [sourceText, sourceValue, hk, hconv]

/-- A placeholder of an expression is replaced by its text. -/
theorem substLoop_placeholder {w k : Nat} {out tail : Bytes} {val : SQObject}
    (hk : vals[k]? = some val) (hargs : vals.length < 2 ^ 31 - 48)
    (hlen : (out ++ openBrace :: (printIndex k ++ closeBrace :: tail)).length < 2 ^ 31) :
    (substLoop world vals w (out ++ openBrace :: (printIndex k ++ closeBrace :: tail))
        out.length).result =
      match world.convert w val with
      | none => .error .conversion
      | some text =>
        (substLoop world vals (w + 1) ((out ++ text) ++ tail) (out ++ text).length).result := by
  have hlt := (List.getElem?_eq_some_iff.mp hk).1
  rw [substLoop_group world vals hlen (matchBrace_digits (printIndex_spec k).1 tail)
    (printIndex_ne_nil k), groupSource_printIndex world vals hlt hargs]
  dsimp only
  rw [sourceText_argument world vals hk]
  cases world.convert w val with
  | none => rfl
  | some text => rfl

end

end Quirrel.Interpolation
