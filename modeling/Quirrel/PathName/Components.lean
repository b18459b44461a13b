import Quirrel.PathName.Basic

/-!
# Paths as components

A path is its components with the delimiter behind each, and the component behind the last delimiter.
Every string is the text of one path (`text_parse`), and the components of a text are its path
(`parse_text`).
-/

set_option autoImplicit false

namespace Quirrel.PathName

/-- What ends a component. -/
inductive Delim where
  | slash
  | colon
  deriving DecidableEq

/-- The character of a delimiter. -/
def Delim.char : Delim → Char
  | slash => '/'
  | colon => ':'

/-- A name and the delimiter behind it. -/
abbrev Component : Type := CString × Delim

/-- The components and what stands behind the last delimiter. -/
structure Path where
  closed : List Component
  last : CString
  deriving DecidableEq

/-- The text of components. -/
def closedText (cs : List Component) : CString := cs.flatMap fun c => c.1 ++ [c.2.char]

/-- The text of a path. -/
def Path.text (p : Path) : CString := closedText p.closed ++ p.last

/-- A name has no delimiter in it. -/
def Plain (x : CString) : Prop := ∀ c ∈ x, isDelim c = false

/-- No name has a delimiter in it. -/
structure Path.Plain (p : Path) : Prop where
  closed : ∀ c ∈ p.closed, PathName.Plain c.1
  last : PathName.Plain p.last

/-- A character in front of a path. -/
def Path.push (c : Char) (p : Path) : Path :=
  match p.closed with
  | [] => ⟨[], c :: p.last⟩
  | (x, d) :: cs => ⟨(c :: x, d) :: cs, p.last⟩

/-- A delimiter in front of a path: it ends an empty name. -/
def Path.open (d : Delim) (p : Path) : Path := ⟨([], d) :: p.closed, p.last⟩

/-- The path of a text. -/
def parse : CString → Path
  | [] => ⟨[], []⟩
  | c :: s =>
    if c = '/' then (parse s).open .slash
    else if c = ':' then (parse s).open .colon
    else (parse s).push c

@[simp] theorem closedText_nil : closedText [] = [] := rfl

@[simp] theorem closedText_cons (c : Component) (cs : List Component) :
    closedText (c :: cs) = c.1 ++ c.2.char :: closedText cs := by
  simp [closedText]

/-- The text of components, part by part. -/
theorem closedText_append (cs cs' : List Component) :
    closedText (cs ++ cs') = closedText cs ++ closedText cs' := List.flatMap_append

/-- A character in front of a path is in front of its text. -/
theorem Path.text_push (c : Char) (p : Path) : (p.push c).text = c :: p.text := by
  obtain ⟨closed, last⟩ := p
  cases closed with
  | nil => rfl
  | cons seg cs => simp [push, text]

/-- So is a delimiter. -/
theorem Path.text_open (d : Delim) (p : Path) : (p.open d).text = d.char :: p.text := by
  simp [Path.open, text]

/-- The path of a text has that text. -/
theorem text_parse (s : CString) : (parse s).text = s := by
  induction s with
  | nil => rfl
  | cons c s ih =>
    rw [parse]
    split
    · rename_i h
      rw [Path.text_open, ih, h]
      rfl
    · split
      · rename_i h
        rw [Path.text_open, ih, h]
        rfl
      · rw [Path.text_push, ih]

@[simp] theorem isDelim_char (d : Delim) : isDelim d.char = true := by cases d <;> rfl

theorem Plain.nil : Plain [] := nofun

theorem Plain.cons {c : Char} {x : CString} (hc : isDelim c = false) (hx : Plain x) :
    Plain (c :: x) :=
  List.forall_mem_cons.mpr ⟨hc, hx⟩

/-- A character that is no delimiter joins the first name. -/
theorem Path.Plain.push {c : Char} {p : Path} (hc : isDelim c = false) (hp : p.Plain) :
    (p.push c).Plain := by
  obtain ⟨closed, last⟩ := p
  cases closed with
  | nil => exact ⟨nofun, .cons hc hp.last⟩
  | cons seg cs =>
    obtain ⟨hseg, hcs⟩ := List.forall_mem_cons.mp hp.closed
    exact ⟨List.forall_mem_cons.mpr ⟨.cons hc hseg, hcs⟩, hp.last⟩

theorem parse_plain (s : CString) : (parse s).Plain := by
  induction s with
  | nil => exact ⟨nofun, .nil⟩
  | cons c s ih =>
    rw [parse]
    split
    · exact ⟨List.forall_mem_cons.mpr ⟨.nil, ih.closed⟩, ih.last⟩
    · split
      · exact ⟨List.forall_mem_cons.mpr ⟨.nil, ih.closed⟩, ih.last⟩
      · rename_i hslash hcolon
        exact ih.push (by simp [isDelim, hslash, hcolon])

theorem parse_cons_of_not_delim {c : Char} (h : isDelim c = false) (s : CString) :
    parse (c :: s) = (parse s).push c := by
  obtain ⟨hslash, hcolon⟩ : c ≠ '/' ∧ c ≠ ':' := by simpa [isDelim] using h
  rw [parse, if_neg hslash, if_neg hcolon]

theorem parse_delim (d : Delim) (s : CString) : parse (d.char :: s) = (parse s).open d := by
  cases d <;> rfl

theorem parse_plain_last {x : CString} (hx : Plain x) : parse x = ⟨[], x⟩ := by
  induction x with
  | nil => rfl
  | cons c x ih =>
    obtain ⟨hc, hx⟩ := List.forall_mem_cons.mp hx
    rw [parse_cons_of_not_delim hc, ih hx]
    rfl

theorem parse_component {x : CString} (hx : Plain x) (d : Delim) (s : CString) :
    parse (x ++ d.char :: s) = ⟨(x, d) :: (parse s).closed, (parse s).last⟩ := by
  induction x with
  | nil => exact parse_delim d s
  | cons c x ih =>
    obtain ⟨hc, hx⟩ := List.forall_mem_cons.mp hx
    rw [List.cons_append, parse_cons_of_not_delim hc, ih hx]
    rfl

theorem parse_closed {cs : List Component} (hcs : ∀ c ∈ cs, Plain c.1) (s : CString) :
    parse (closedText cs ++ s) = ⟨cs ++ (parse s).closed, (parse s).last⟩ := by
  induction cs with
  | nil => rfl
  | cons seg cs ih =>
    obtain ⟨x, d⟩ := seg
    obtain ⟨hx, hcs⟩ := List.forall_mem_cons.mp hcs
    rw [closedText_cons, List.append_assoc, List.cons_append, parse_component hx, ih hcs]
    rfl

/-- A path is the path of its text. -/
theorem parse_text {p : Path} (hp : p.Plain) : parse p.text = p := by
  rw [Path.text, parse_closed hp.closed, parse_plain_last hp.last, List.append_nil]

end Quirrel.PathName
