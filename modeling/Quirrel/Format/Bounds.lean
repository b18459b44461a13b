import Quirrel.Format.Directive

/-!
# What `format` writes and returns

A format string asks for pieces: literal characters, and directives with their arguments (`request`).
The scratch buffer always has room for what is still to be written. But each call of `snprintf` is
given the size of the whole buffer as its bound, not of what is left behind the characters that are
already there. Main theorem `sqstdFormat_safe_iff`: every access is inside its buffer, every bound
inside the room that is left, and the result is the text of the pieces, exactly if no directive is
printed behind other output and no text is too long for an `int`. The control example is `a%d`
(`sqstdFormat_bound`).
-/

set_option autoImplicit false

namespace Quirrel.Format

open Quirrel.Vm Quirrel.Array

/-! ## What a format string asks for -/

/-- A part of the output: a character of the format, or a conversion. -/
inductive Piece where
  | literal (c : UInt8)
  | directive (c : Converted)
  deriving DecidableEq

/-- The characters of a piece. A decimal comma is a point. -/
def Piece.text (printf : Printf) : Piece → List UInt8
  | .literal c => [c]
  | .directive c =>
    match c.arg with
    | .float _ => (printf c.fmt c.arg).map fun d => if d = comma then dot else d
    | _ => printf c.fmt c.arg

theorem Piece.length_text_directive (printf : Printf) (c : Converted) :
    ((Piece.directive c).text printf).length = (printf c.fmt c.arg).length := by
  rw [Piece.text]
  split
  · rw [List.length_map]
  · rfl

/-- The pieces up to the first error. -/
structure Request where
  pieces : List Piece
  error : Option String
  deriving DecidableEq

/-- A part in front of the others. -/
def Request.cons (p : Piece) (r : Request) : Request := { r with pieces := p :: r.pieces }

/-- The text that is asked for. -/
def Request.text (printf : Printf) (r : Request) : List UInt8 :=
  r.pieces.flatMap (Piece.text printf)

/-- The pieces of the format string from index `n` on. -/
def request (cast : Cast) (format : List UInt8) (n : Nat) (params : List SQObject) : Request :=
  if n < format.length then
    if charAt format n ≠ percent then
      (request cast format (n + 1) params).cons (.literal (charAt format n))
    else if charAt format (n + 1) = percent then
      (request cast format (n + 2) params).cons (.literal percent)
    else
      match _ : (directive cast format params (n + 1)).2 with
      | .error e => ⟨[], some e⟩
      | .ok c => (request cast format c.n params.tail).cons (.directive c)
  else ⟨[], none⟩
termination_by format.length - n
decreasing_by
  · omega
  · omega
  · have := lt_directive ‹_›
    omega

section

variable {cast : Cast} {format : List UInt8} {n : Nat} {params : List SQObject}

/-- Behind the format nothing is asked for. -/
theorem request_end (h : ¬n < format.length) : request cast format n params = ⟨[], none⟩ := by
  rw [request, if_neg h]

/-- A character that is no `%` is asked for. -/
theorem request_literal (h : n < format.length) (hc : charAt format n ≠ percent) :
    request cast format n params =
      (request cast format (n + 1) params).cons (.literal (charAt format n)) := by
  rw [request, if_pos h, if_pos hc]

/-- Two `%` ask for one. -/
theorem request_percent (h : n < format.length) (hc : charAt format n = percent)
    (hc' : charAt format (n + 1) = percent) :
    request cast format n params = (request cast format (n + 2) params).cons (.literal percent) := by
  rw [request, if_pos h, if_neg (not_not_intro hc), if_pos hc']

/-- A directive that fails ends the request. -/
theorem request_error (h : n < format.length) (hc : charAt format n = percent)
    (hc' : charAt format (n + 1) ≠ percent) {e : String}
    (hd : (directive cast format params (n + 1)).2 = .error e) :
    request cast format n params = ⟨[], some e⟩ := by
  rw [request, if_pos h, if_neg (not_not_intro hc), if_neg hc']
  split
  · rename_i e' he
    rw [hd] at he
    cases he
    rfl
  · rename_i c' hc'
    rw [hd] at hc'
    cases hc'

/-- A directive that is converted is asked for. -/
theorem request_directive (h : n < format.length) (hc : charAt format n = percent)
    (hc' : charAt format (n + 1) ≠ percent) {c : Converted}
    (hd : (directive cast format params (n + 1)).2 = .ok c) :
    request cast format n params = (request cast format c.n params.tail).cons (.directive c) := by
  rw [request, if_pos h, if_neg (not_not_intro hc), if_neg hc']
  split
  · rename_i e' he
    rw [hd] at he
    cases he
  · rename_i c' hc'
    rw [hd] at hc'
    cases hc'
    rfl

end

/-- Behind `k` characters, every directive is printed where there is no output yet, and its text is not
too long for an `int`, unless it is the last piece in front of an error. -/
def QuietFrom (printf : Printf) (k : Nat) (r : Request) : Prop :=
  ∀ before c after, r.pieces = before ++ .directive c :: after →
    k = 0 ∧ before.flatMap (Piece.text printf) = [] ∧
      ((printf c.fmt c.arg).length ≤ intMax ∨ (after = [] ∧ r.error.isSome))

theorem quietFrom_nil (printf : Printf) (k : Nat) {r : Request} (h : r.pieces = []) :
    QuietFrom printf k r := by
  intro before c after heq
  rw [h] at heq
  exact absurd heq (by simp)

/-- A first piece that is a directive follows no output. -/
def QuietHead (printf : Printf) (k : Nat) (r : Request) : Piece → Prop
  | .literal _ => True
  | .directive c =>
    k = 0 ∧ ((printf c.fmt c.arg).length ≤ intMax ∨ (r.pieces = [] ∧ r.error.isSome))

/-- No comma is replaced in the first piece nor in the others. -/
theorem quietFrom_cons_iff (printf : Printf) (k : Nat) (p : Piece) (r : Request) :
    QuietFrom printf k (r.cons p) ↔
      QuietHead printf k r p ∧ QuietFrom printf (k + (p.text printf).length) r := by
  constructor
  · intro h
    refine ⟨?_, fun before c after heq => ?_⟩
    · cases p with
      | literal c => trivial
      | directive c =>
        obtain ⟨hk, -, hlen⟩ := h [] c r.pieces rfl
        exact ⟨hk, hlen⟩
    · obtain ⟨hk, hbefore, hlen⟩ := h (p :: before) c after (congrArg (p :: ·) heq)
      rw [List.flatMap_cons, List.append_eq_nil_iff] at hbefore
      exact ⟨by rw [hk, hbefore.1]; rfl, hbefore.2, hlen⟩
  · rintro ⟨hhead, htail⟩ before c after heq
    cases before with
    | nil =>
      obtain ⟨rfl, rfl⟩ := List.cons.inj heq
      exact ⟨hhead.1, rfl, hhead.2⟩
    | cons q before =>
      obtain ⟨rfl, htl⟩ := List.cons.inj heq
      obtain ⟨hk, hbefore, hlen⟩ := htail before c after htl
      have hnil : p.text printf = [] := List.eq_nil_of_length_eq_zero (by omega)
      refine ⟨by omega, ?_, hlen⟩
      rw [List.flatMap_cons, hnil, hbefore]
      rfl

/-! ## Runs that stay inside their buffers -/

/-- A run that makes only good accesses and delivers `text`, unless it fails. -/
def Right (format text : List UInt8) (r : List Access × Except String Output) : Prop :=
  (∀ a ∈ r.1, a.Ok format) ∧ ∀ o, r.2 = .ok o → o.outlen = text.length ∧ o.text = text

/-- Accesses that are right do not matter. -/
theorem right_append_iff {format text : List UInt8} {log log' : List Access}
    {x : Except String Output} (h : ∀ a ∈ log, a.Ok format) :
    Right format text (log ++ log', x) ↔ Right format text (log', x) := by
  refine and_congr_left fun _ => ⟨fun hall a ha => hall a (List.mem_append_right _ ha), ?_⟩
  intro hall a ha
  rcases List.mem_append.1 ha with ha | ha
  · exact h a ha
  · exact hall a ha

/-- The buffer holds `done`, and has room for `left` more characters and the terminator. -/
structure Holds (o : Output) (done : List UInt8) (left : Nat) : Prop where
  i_eq : o.i = done.length
  dest_eq : ∀ k < done.length, o.dest k = done.getD k 0
  room : done.length + left + 2 ≤ o.allocated

/-- A byte is written behind what is done. -/
theorem holds_write {o : Output} {done : List UInt8} {left left' : Nat} (h : Holds o done left)
    (c : UInt8) (hleft : left' < left) : Holds (o.write c) (done ++ [c]) left' := by
  have hroom := h.room
  refine ⟨?_, fun k hk => ?_, ?_⟩
  · show o.i + 1 = _
    rw [h.i_eq, List.length_append, List.length_singleton]
    omega
  · rw [List.length_append, List.length_singleton] at hk
    show Function.update o.dest o.i c k = _
    rw [h.i_eq, List.getD_eq_getElem?_getD]
    by_cases hlast : k = done.length
    · rw [hlast, Function.update_self, List.getElem?_append_right (Nat.le_refl _), Nat.sub_self]
      rfl
    · rw [Function.update_of_ne (by omega), h.dest_eq k (by omega),
        List.getElem?_append_left (by omega), List.getD_eq_getElem?_getD]
  · show _ ≤ o.allocated
    rw [List.length_append, List.length_singleton]
    omega

/-- What is done is the text. -/
theorem text_of_holds {o : Output} {done : List UInt8} {left : Nat} (h : Holds o done left) :
    o.text = done := by
  rw [Output.text, Output.outlen, h.i_eq, Int.toNat_natCast]
  refine List.ext_getElem (by simp) fun k hk hk' => ?_
  rw [List.getElem_map, List.getElem_range, h.dest_eq k hk', List.getD_eq_getElem?_getD,
    List.getElem?_eq_getElem hk']
  rfl

/-- At the end the terminator is written. -/
theorem right_end {o : Output} {done : List UInt8} (h : Holds o done 0) (format : List UInt8) :
    Right format done ([.writeDest o.i o.allocated],
      .ok { o with dest := Function.update o.dest o.i 0 }) := by
  have hroom := h.room
  have hi := h.i_eq
  constructor
  · intro a ha
    rw [List.mem_singleton.1 ha]
    show 0 ≤ o.i ∧ o.i < o.allocated
    omega
  · intro o' ho'
    cases ho'
    have hend : Holds { o with dest := Function.update o.dest o.i 0 } done 0 :=
      ⟨hi, fun k hk => ?_, hroom⟩
    · exact ⟨hi, text_of_holds hend⟩
    show Function.update o.dest o.i 0 k = _
    rw [Function.update_of_ne (by omega), h.dest_eq k hk]

/-! ## A directive at the start of the output -/

theorem printed_at_start (dest : Int → UInt8) {bound : Nat} {text : List UInt8}
    (h : text.length < bound) {k : Nat} (hk : k < text.length) :
    printed dest 0 bound text k = text.getD k 0 := by
  rw [printed, if_pos (by omega)]
  rfl

/-- Printed where there is no output yet, a text that an `int` can measure is all there. -/
theorem holds_print {printf : Printf} {o : Output} {left left' : Nat} (h : Holds o [] left)
    {c : Converted} (hlen : (printf c.fmt c.arg).length ≤ c.addlen)
    (hint : (printf c.fmt c.arg).length ≤ intMax) (hleft : left' < left) :
    Holds (o.print printf c).2 ((Piece.directive c).text printf) left' := by
  have hroom := h.room
  have hi : o.i = 0 := h.i_eq
  have hret : returned (printf c.fmt c.arg) = (printf c.fmt c.arg).length := if_pos hint
  have hlt : (printf c.fmt c.arg).length < o.allocated + (c.addlen + 1) := by omega
  rw [List.length_nil] at hroom
  have hlength := Piece.length_text_directive printf c
  rw [Output.print]
  split
  · rename_i f hf
    refine ⟨?_, fun k hk => ?_, ?_⟩
    · show o.i + (returned (printf c.fmt c.arg)).toNat = _
      rw [hlength, hret, hi, Int.toNat_natCast, Int.zero_add]
    · rw [hlength] at hk
      have hprinted := printed_at_start o.dest hlt hk
      have htext : ((Piece.directive c).text printf).getD k 0 =
          if (printf c.fmt c.arg).getD k 0 = comma then dot else (printf c.fmt c.arg).getD k 0 := by
        rw [Piece.text, hf, List.getD_eq_getElem?_getD, List.getD_eq_getElem?_getD,
          List.getElem?_map]
        rw [← hf, List.getElem?_eq_getElem hk]
        rfl
      show dotCommas (printed o.dest o.i _ (printf c.fmt c.arg)) o.i _ k = _
      rw [htext, ← hprinted, hi, dotCommas, hret, Int.toNat_natCast]
      refine if_congr ?_ rfl rfl
      exact ⟨fun hc => hc.2.2, fun hc => ⟨by omega, by omega, hc⟩⟩
    · rw [hlength]
      dsimp only
      omega
  · rename_i hf
    have htext : (Piece.directive c).text printf = printf c.fmt c.arg := by
      rw [Piece.text]
      split
      · exact absurd ‹c.arg = _› (hf _)
      · rfl
    rw [htext]
    refine ⟨?_, fun k hk => ?_, ?_⟩
    · show o.i + returned (printf c.fmt c.arg) = _
      rw [hret, hi, Int.zero_add]
    · rw [hi]
      exact printed_at_start o.dest hlt hk
    · dsimp only
      omega

/-- What `snprintf` writes is inside the destination. -/
theorem print_accesses {printf : Printf} {o : Output} {left : Nat} (h : Holds o [] left)
    {c : Converted} (hlen : (printf c.fmt c.arg).length ≤ c.addlen)
    (hint : (printf c.fmt c.arg).length ≤ intMax) (format : List UInt8) :
    ∀ a ∈ (o.print printf c).1, a.Ok format := by
  have hi : o.i = 0 := h.i_eq
  have hret : returned (printf c.fmt c.arg) = (printf c.fmt c.arg).length := if_pos hint
  have hcall : Access.Ok format
      (.snprintf o.i (o.allocated + (c.addlen + 1)) (o.allocated + (c.addlen + 1))) := by
    show 0 ≤ o.i ∧ o.i + (o.allocated + (c.addlen + 1) : Nat) ≤ (o.allocated + (c.addlen + 1) : Nat)
    omega
  rw [Output.print]
  split
  · intro a ha
    rcases List.mem_cons.1 ha with rfl | ha
    · exact hcall
    · obtain ⟨k, hk, rfl⟩ := List.mem_map.1 ha
      have hk' := List.mem_range.1 (List.mem_filter.1 hk).1
      rw [hret, Int.toNat_natCast] at hk'
      show 0 ≤ o.i + k ∧ o.i + k < (o.allocated + (c.addlen + 1) : Nat)
      omega
  · intro a ha
    rw [List.mem_singleton.1 ha]
    exact hcall

/-- The call of `snprintf` is the first access of a directive's output. -/
theorem snprintf_mem_print (printf : Printf) (o : Output) (c : Converted) :
    .snprintf o.i (o.allocated + (c.addlen + 1)) (o.allocated + (c.addlen + 1)) ∈
      (o.print printf c).1 := by
  rw [Output.print]
  split
  · exact List.mem_cons_self
  · exact List.mem_cons_self

/-- Anywhere else, its bound is not inside the room that is left. -/
theorem i_eq_zero_of_print {printf : Printf} {o : Output} {c : Converted} {format : List UInt8}
    (h : ∀ a ∈ (o.print printf c).1, a.Ok format) : o.i = 0 := by
  have hcall : 0 ≤ o.i ∧
      o.i + (o.allocated + (c.addlen + 1) : Nat) ≤ (o.allocated + (c.addlen + 1) : Nat) :=
    h _ (snprintf_mem_print printf o c)
  omega

/-! ## The loop -/

/-- Behind a text too long for an `int` the position is negative: only an error comes before the next
access. -/
theorem right_iff_of_negative {printf : Printf} {cast : Cast} {format text : List UInt8} {n : Nat}
    {params : List SQObject} {o : Output} (hi : o.i < 0) :
    Right format text (formatLoop printf cast format n params o) ↔
      (request cast format n params).pieces = [] ∧
        (request cast format n params).error.isSome := by
  -- with a negative position the first character written lies before the buffer
  have hbad : ¬Access.Ok format (.writeDest o.i o.allocated) := fun h =>
    absurd h.1 (Int.not_le.2 hi)
  have hnot {r : List Access × Except String Output} (h : .writeDest o.i o.allocated ∈ r.1) :
      ¬Right format text r := fun hr => hbad (hr.1 _ h)
  rw [formatLoop]
  split
  · rename_i hlt
    split
    · rename_i hc
      rw [request_literal hlt hc]
      exact iff_of_false (hnot (List.mem_cons_of_mem _ List.mem_cons_self))
        fun h => absurd h.1 (List.cons_ne_nil _ _)
    · rename_i hc
      have hc := not_not.1 hc
      split
      · rename_i hc'
        rw [request_percent hlt hc hc']
        exact iff_of_false (hnot (List.mem_cons_of_mem _ List.mem_cons_self))
          fun h => absurd h.1 (List.cons_ne_nil _ _)
      · rename_i hc'
        have hread : Access.Ok format (.readFormat (n + 1)) := hlt
        split
        · rename_i e he
          rw [request_error hlt hc hc' he]
          refine iff_of_true ⟨fun a ha => ?_, fun _ h => by cases h⟩ ⟨rfl, rfl⟩
          rcases List.mem_cons.1 ha with rfl | ha
          · exact hread
          · exact directive_accesses hlt a ha
        · rename_i c hd
          rw [request_directive hlt hc hc' hd]
          refine iff_of_false (fun hr => ?_) fun h => absurd h.1 (List.cons_ne_nil _ _)
          have hzero : o.i = 0 := i_eq_zero_of_print (c := c) fun a ha =>
            hr.1 a (List.mem_append_left _ (List.mem_append_right _ ha))
          omega
  · rename_i hlt
    rw [request_end hlt]
    exact iff_of_false (hnot List.mem_cons_self) fun h => absurd h.2 (by decide)

/-- A string that is too long for an `int`. -/
theorem print_of_too_long {printf : Printf} {o : Output} {c : Converted} {s : List UInt8}
    (hs : c.arg = .string s) (hint : ¬(printf c.fmt c.arg).length ≤ intMax) :
    (o.print printf c).1 =
      [.snprintf o.i (o.allocated + (c.addlen + 1)) (o.allocated + (c.addlen + 1))] ∧
    (o.print printf c).2.i = o.i - 1 := by
  rw [Output.print]
  split
  · rename_i f hf
    rw [hs] at hf
    cases hf
  · refine ⟨rfl, ?_⟩
    show o.i + returned (printf c.fmt c.arg) = _
    rw [returned, if_neg hint]
    rfl

/-- A character is right when the rest is. -/
theorem right_literal_iff {printf : Printf} {format : List UInt8} {o : Output} {done : List UInt8}
    {left : Nat} (ho : Holds o done left) (read : Access) (hread : read.Ok format) (c : UInt8)
    {req : Request} {r : List Access × Except String Output}
    (hr : Right format (done ++ [c] ++ req.text printf) r ↔
      QuietFrom printf (done ++ [c]).length req) :
    Right format (done ++ (req.cons (.literal c)).text printf)
        (read :: .writeDest o.i o.allocated :: r.1, r.2) ↔
      QuietFrom printf done.length (req.cons (.literal c)) := by
  have hroom := ho.room
  have hi := ho.i_eq
  have hlog : ∀ a ∈ [read, .writeDest o.i o.allocated], a.Ok format := by
    intro a ha
    rcases List.mem_cons.1 ha with rfl | ha
    · exact hread
    · rw [List.mem_singleton.1 ha]
      show 0 ≤ o.i ∧ o.i < o.allocated
      omega
  have hquiet : QuietFrom printf done.length (req.cons (.literal c)) ↔
      QuietFrom printf (done ++ [c]).length req := by
    rw [quietFrom_cons_iff, List.length_append]
    exact ⟨fun h => h.2, fun h => ⟨trivial, h⟩⟩
  rw [List.append_assoc] at hr
  rw [hquiet, ← hr]
  exact right_append_iff hlog

/-- A directive behind other output has a bound that is too great. -/
theorem right_directive_iff {printf : Printf} {format : List UInt8} {o : Output}
    {done : List UInt8} {left : Nat} (ho : Holds o done left) (left' : Nat) (hleft : left' < left)
    {log : List Access} (hlog : ∀ a ∈ log, a.Ok format) {c : Converted}
    (hlen : (printf c.fmt c.arg).length ≤ c.addlen)
    (hshort : (∃ s, c.arg = .string s) ∨ (printf c.fmt c.arg).length ≤ intMax)
    {req : Request} {r : List Access × Except String Output}
    (hr : ∀ done', Holds (o.print printf c).2 done' left' →
      (Right format (done' ++ req.text printf) r ↔ QuietFrom printf done'.length req))
    (hneg : ∀ text, (o.print printf c).2.i < 0 →
      (Right format text r ↔ req.pieces = [] ∧ req.error.isSome)) :
    Right format (done ++ (req.cons (.directive c)).text printf)
        (log ++ (o.print printf c).1 ++ r.1, r.2) ↔
      QuietFrom printf done.length (req.cons (.directive c)) := by
  rw [quietFrom_cons_iff, List.append_assoc, right_append_iff hlog]
  by_cases hdone : done = []
  · subst hdone
    have htext : [] ++ (req.cons (.directive c)).text printf =
        (Piece.directive c).text printf ++ req.text printf := rfl
    rw [htext]
    by_cases hint : (printf c.fmt c.arg).length ≤ intMax
    · rw [right_append_iff (print_accesses ho hlen hint format),
        hr _ (holds_print ho hlen hint hleft), List.length_nil, Nat.zero_add]
      exact ⟨fun h => ⟨⟨rfl, .inl hint⟩, h⟩, fun h => h.2⟩
    · obtain ⟨s, hs⟩ := hshort.resolve_right hint
      obtain ⟨hlog', hi⟩ := print_of_too_long (o := o) hs hint
      have hi0 : o.i = 0 := ho.i_eq
      have hcall : ∀ a ∈ (o.print printf c).1, a.Ok format := by
        rw [hlog']
        intro a ha
        rw [List.mem_singleton.1 ha, hi0]
        show 0 ≤ (0 : Int) ∧ 0 + ((o.allocated + (c.addlen + 1) : Nat) : Int) ≤ _
        omega
      rw [right_append_iff hcall, hneg _ (by omega)]
      exact ⟨fun h => ⟨⟨rfl, .inr h⟩, quietFrom_nil printf _ h.1⟩,
        fun h => h.1.2.resolve_left hint⟩
  · refine iff_of_false (fun h => ?_) fun h => hdone (List.eq_nil_of_length_eq_zero h.1.1)
    have hzero := i_eq_zero_of_print fun a ha => h.1 a (List.mem_append_left _ ha)
    rw [ho.i_eq] at hzero
    exact hdone (List.eq_nil_of_length_eq_zero (by omega))

/-- From a buffer that holds `done` behind which the pieces from `n` on are written. -/
theorem formatLoop_iff {printf : Printf} (hp : StandardBounds printf) {cast : Cast}
    {format : List UInt8} {n : Nat} {params : List SQObject} (hf : FiniteFloats params)
    (hn : n ≤ format.length) {o : Output} {done : List UInt8}
    (ho : Holds o done (format.length - n)) :
    Right format (done ++ (request cast format n params).text printf)
        (formatLoop printf cast format n params o) ↔
      QuietFrom printf done.length (request cast format n params) := by
  -- the literal characters keep the room that is left for the rest of the format string
  fun_induction formatLoop printf cast format n params o generalizing done with
  | case1 n params o hlt hc r ih =>
    rw [request_literal hlt hc]
    exact right_literal_iff ho (.readFormat n) hn _
      (ih hf hlt (holds_write ho _ (by omega)))
  | case2 n params o hlt hc hc' r ih =>
    have hc := not_not.1 hc
    have hlt' : n + 1 < format.length := lt_length_of_charAt (by rw [hc']; decide)
    rw [request_percent hlt hc hc']
    exact right_literal_iff ho (.readFormat (n + 1)) hlt _
      (ih hf hlt' (holds_write ho _ (by omega)))
  | case3 n params o hlt hc hc' e he =>
    rw [request_error hlt (not_not.1 hc) hc' he]
    refine iff_of_true ⟨fun a ha => ?_, nofun⟩ (quietFrom_nil printf _ rfl)
    rcases List.mem_cons.1 ha with rfl | ha
    · exact hlt
    · exact directive_accesses hlt a ha
  | case4 n params o hlt hc hc' c hd p r ih =>
    obtain ⟨hcn, hlen, hshort⟩ := directive_ok hp hf hlt hd
    have hnext := lt_directive hd
    have hlog : ∀ a ∈ .readFormat (n + 1) :: (directive cast format params (n + 1)).1,
        a.Ok format := by
      intro a ha
      rcases List.mem_cons.1 ha with rfl | ha
      · exact hlt
      · exact directive_accesses hlt a ha
    rw [request_directive hlt (not_not.1 hc) hc' hd]
    exact right_directive_iff ho (format.length - c.n) (by omega) hlog hlen hshort
      (fun done' hdone' => ih (fun f hf' => hf f (List.mem_of_mem_tail hf')) hcn hdone')
      fun text hi => right_iff_of_negative hi
  | case5 n params o hlt =>
    have hzero : format.length - n = 0 := by omega
    rw [hzero] at ho
    rw [request_end hlt]
    refine iff_of_true ?_ (quietFrom_nil printf _ rfl)
    have htext : (⟨[], none⟩ : Request).text printf = [] := rfl
    rw [htext, List.append_nil]
    exact right_end ho format

/-! ## `sqstd_format` -/

/-- No directive is printed behind other output, and no text is too long for an `int`. -/
def Quiet (printf : Printf) (cast : Cast) (format : List UInt8) (params : List SQObject) : Prop :=
  QuietFrom printf 0 (request cast format 0 params)

/-- Every access is inside its buffer, every bound of `snprintf` inside the room that is left, and the
result is the text that the format string asks for. -/
def Safe (printf : Printf) (cast : Cast) (dest : Int → UInt8) (format : List UInt8)
    (params : List SQObject) : Prop :=
  Right format ((request cast format 0 params).text printf)
    (sqstdFormat printf cast dest format params)

theorem sqstdFormat_safe_iff {printf : Printf} (hp : StandardBounds printf) (cast : Cast)
    (dest : Int → UInt8) (format : List UInt8) {params : List SQObject}
    (hf : FiniteFloats params) :
    Safe printf cast dest format params ↔ Quiet printf cast format params := by
  have ho : Holds ⟨dest, 0, format.length + 2⟩ [] (format.length - 0) :=
    ⟨rfl, nofun, Nat.le_of_eq (by rw [List.length_nil, Nat.zero_add, Nat.sub_zero])⟩
  exact formatLoop_iff hp hf (Nat.zero_le _) ho

/-! ## `%d` and `a%d` -/

/-- A library that prints the integer 5 for `%lld`. -/
def printFive : Printf
  | fmt, .integer i => if fmt = [37, 108, 108, 100] ∧ i = 5 then [53] else []
  | _, _ => []

theorem length_printFive_integer (fmt : List UInt8) (i : SQInteger) :
    (printFive fmt (.integer i)).length ≤ 1 := by
  rw [printFive]
  split
  · exact Nat.le_refl 1
  · exact Nat.zero_le 1

theorem printFive_standard : StandardBounds printFive where
  string _ _ := Nat.zero_le _
  integer _ _ _ i := Nat.le_trans (length_printFive_integer _ i) (by omega)
  char _ i := Nat.le_trans (length_printFive_integer _ i) (Nat.le_max_right _ 1)
  float _ _ _ _ _ := Nat.zero_le _

/-- A format with one integer. -/
theorem sqstdFormat_safe_five :
    Safe printFive (fun _ => 0) (fun _ => 0) [37, 100] [.integer 5] := by
  refine (sqstdFormat_safe_iff printFive_standard _ _ _ ?_).2 ?_
  · intro f hf
    exact nomatch List.mem_singleton.1 hf
  · have hreq : request (fun _ => 0) [37, 100] 0 [.integer 5] =
        Request.cons (.directive ⟨2, [37, 108, 108, 100], .integer 5, 101⟩) ⟨[], none⟩ := by
      decide +kernel
    rw [Quiet, hreq]
    exact (quietFrom_cons_iff _ _ _ _).2 ⟨⟨rfl, .inl (by decide)⟩, quietFrom_nil _ _ rfl⟩

/-- In `a%d` the bound reaches past the buffer by the one character in front. -/
theorem sqstdFormat_bound :
    StandardBounds printFive ∧
      .snprintf 1 107 107 ∈
        (sqstdFormat printFive (fun _ => 0) (fun _ => 0) [97, 37, 100] [.integer 5]).1 ∧
      ¬Safe printFive (fun _ => 0) (fun _ => 0) [97, 37, 100] [.integer 5] := by
  have hmem : .snprintf 1 107 107 ∈
      (sqstdFormat printFive (fun _ => 0) (fun _ => 0) [97, 37, 100] [.integer 5]).1 := by
    decide +kernel
  refine ⟨printFive_standard, hmem, fun h => ?_⟩
  have hcall : (0 : Int) ≤ 1 ∧ (1 : Int) + (107 : Nat) ≤ (107 : Nat) := h.1 _ hmem
  exact absurd hcall (by decide)

end Quirrel.Format
