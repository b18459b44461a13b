import Quirrel.PathName.Components

/-!
# The passes as functions of the components

Each loop of `dd_simplify_fname_c` runs inside the buffer and ends, and what it leaves is the text of
a path that a recursion over the components of its input gives (`passes_eq`).
-/

set_option autoImplicit false

namespace Quirrel.PathName

variable {pre s x last : CString} {p c : Char} {cs : List Component}

/-! ## Reading and removing -/

/-- The character behind a prefix. -/
theorem charAt_mid (pre : CString) (c : Char) (s : CString) :
    charAt (pre ++ c :: s) pre.length = some (some c) := by
  rw [charAt, if_pos (by simp), List.getElem?_append_right (Nat.le_refl _), Nat.sub_self]
  rfl

/-- The character after that one. -/
theorem charAt_next (pre : CString) (c : Char) (s : CString) :
    charAt (pre ++ c :: s) (pre.length + 1) = some s.head? := by
  rw [charAt, if_pos (by simp), List.getElem?_append_right (Nat.le_add_right _ _),
    Nat.add_sub_cancel_left, List.getElem?_cons_succ, List.head?_eq_getElem?]

/-- A part behind a prefix is erased. -/
theorem erase_append (pre x s : CString) :
    erase (pre ++ (x ++ s)) pre.length x.length = some (pre ++ s) := by
  rw [erase, if_pos (by simp), List.take_left, ← List.append_assoc,
    List.drop_left' (by rw [List.length_append])]

/-! ## Extra slashes -/

/-- The second loop over the characters, with the one before. -/
def squeezeChars : Char → CString → CString
  | _, [] => []
  | p, c :: s => if c = '/' ∧ p = '/' then squeezeChars p s else c :: squeezeChars c s

/-- The loop over slashes, behind the part it has passed. -/
theorem extraSlashes_loop {fuel : Nat} (h : s.length < fuel) :
    extraSlashes fuel (pre ++ p :: s) (pre.length + 1) = some (pre ++ p :: squeezeChars p s) := by
  induction fuel generalizing pre p s with
  | zero => exact absurd h (Nat.not_lt_zero _)
  | succ fuel ih =>
    rw [extraSlashes]
    cases s with
    | nil => rw [if_neg (by simp)]; rfl
    | cons c s =>
      have hlen : s.length < fuel := Nat.lt_of_succ_lt_succ h
      have hc : charAt (pre ++ p :: c :: s) (pre.length + 1) = some (some c) := charAt_next pre p _
      have hp : charAt (pre ++ p :: c :: s) pre.length = some (some p) := charAt_mid pre p _
      rw [if_pos (by simp), Nat.add_sub_cancel, hc, hp, squeezeChars]
      show (if some c = some '/' ∧ some p = some '/' then _ else _) = _
      split
      · rename_i hslash
        have hslash' : c = '/' ∧ p = '/' := by simpa using hslash
        have herase : erase (pre ++ p :: c :: s) (pre.length + 1) 1 = some (pre ++ p :: s) := by
          simpa using erase_append (pre ++ [p]) [c] s
        rw [herase, if_pos hslash']
        exact ih hlen
      · rename_i hslash
        have hslash' : ¬(c = '/' ∧ p = '/') := by simpa using hslash
        rw [if_neg hslash']
        have hnext : extraSlashes fuel ((pre ++ [p]) ++ c :: s) ((pre ++ [p]).length + 1) =
            some ((pre ++ [p]) ++ c :: squeezeChars c s) := ih hlen
        simpa using hnext

/-- The loop over slashes is the recursion over characters. -/
theorem extraSlashes_eq (s : CString) :
    extraSlashes (s.length + 1) s 1 = some (squeezeChars 'a' s) := by
  cases s with
  | nil => rfl
  | cons p s =>
    have hloop := @extraSlashes_loop [] s p (s.length + 2) (by omega)
    rw [squeezeChars, if_neg (by simp)]
    exact hloop

/-- The components without the empty ones behind a slash; `afterSlash` tells whether one is before
the first. -/
def squeeze : Bool → List Component → List Component
  | _, [] => []
  | afterSlash, c :: cs =>
    if afterSlash ∧ c = ([], .slash) then squeeze afterSlash cs
    else c :: squeeze (c.2 = .slash) cs

/-- A name passes the squeeze as it is. -/
theorem squeezeChars_plain (hx : Plain x) (hp : p ≠ '/') (s : CString) :
    ∃ q, q ≠ '/' ∧ squeezeChars p (x ++ s) = x ++ squeezeChars q s := by
  induction x generalizing p with
  | nil => exact ⟨p, hp, rfl⟩
  | cons c x ih =>
    obtain ⟨hc, hx⟩ := List.forall_mem_cons.mp hx
    have hc : c ≠ '/' := by rintro rfl; cases hc
    obtain ⟨q, hq, heq⟩ := ih hx hc
    refine ⟨q, hq, ?_⟩
    rw [List.cons_append, squeezeChars, if_neg (fun h => hp h.2), heq, List.cons_append]

/-- The squeeze of characters is that of components. -/
theorem squeezeChars_text (hcs : ∀ c ∈ cs, Plain c.1) (hlast : Plain last) (p : Char) :
    squeezeChars p (closedText cs ++ last) = closedText (squeeze (p = '/') cs) ++ last := by
  induction cs generalizing p with
  | nil =>
    cases last with
    | nil => rfl
    | cons c x =>
      obtain ⟨hc, hx⟩ := List.forall_mem_cons.mp hlast
      have hc : c ≠ '/' := by rintro rfl; cases hc
      obtain ⟨q, -, heq⟩ := squeezeChars_plain hx hc []
      rw [List.append_nil] at heq
      show squeezeChars p (c :: x) = c :: x
      rw [squeezeChars, if_neg (fun h => hc h.1), heq]
      simp [squeezeChars]
  | cons comp cs ih =>
    obtain ⟨x, d⟩ := comp
    obtain ⟨hx, hrest⟩ := List.forall_mem_cons.mp hcs
    rw [closedText_cons, List.append_assoc, List.cons_append, squeeze]
    cases x with
    | nil =>
      rw [List.nil_append, squeezeChars]
      cases d with
      | slash =>
        by_cases hp : p = '/'
        · rw [if_pos ⟨rfl, hp⟩, if_pos ⟨by simpa using hp, rfl⟩, ih hrest]
        · rw [if_neg (fun h => hp h.2), if_neg (fun h => hp (by simpa using h.1)), ih hrest]
          rfl
      | colon =>
        rw [if_neg (fun h => by cases h.1), if_neg (fun h => by cases h.2), ih hrest]
        rfl
    | cons c x =>
      obtain ⟨hc, hx⟩ := List.forall_mem_cons.mp hx
      have hc : c ≠ '/' := by rintro rfl; cases hc
      obtain ⟨q, hq, heq⟩ := squeezeChars_plain hx hc (d.char :: (closedText cs ++ last))
      rw [List.cons_append, squeezeChars, if_neg (fun h => hc h.1), heq, squeezeChars,
        if_neg (fun h => hq h.2), ih hrest, if_neg (fun h => by cases h.2)]
      cases d <;> simp [Delim.char]

/-! ## Extra current directories -/

/-- The component that `./` is. -/
def curDir : Component := (['.'], .slash)

/-- The first loop drops the components `.` at the front. -/
theorem leadingDots_text (hcs : ∀ c ∈ cs, Plain c.1) (hlast : Plain last) :
    leadingDots (closedText cs ++ last) =
      closedText (cs.dropWhile (· = curDir)) ++ last := by
  induction cs with
  | nil =>
    have hne : ∀ s, last ≠ '.' :: '/' :: s := by
      rintro s rfl
      exact absurd (hlast '/' (by simp)) (by decide)
    show leadingDots last = last
    rw [leadingDots]
    exact fun s h => absurd h (hne s)
  | cons comp cs ih =>
    obtain ⟨hx, hrest⟩ := List.forall_mem_cons.mp hcs
    by_cases hdot : comp = curDir
    · rw [List.dropWhile_cons_of_pos (by simpa using hdot), ← ih hrest, hdot]
      rfl
    · rw [List.dropWhile_cons_of_neg (by simpa using hdot), leadingDots]
      intro s h
      obtain ⟨x, d⟩ := comp
      rw [closedText_cons, List.append_assoc] at h
      match x, hx, h with
      | [], _, h =>
        cases d <;> cases h
      | [c], _, h =>
        obtain ⟨rfl, h⟩ := List.cons.inj h
        cases d with
        | slash => exact hdot rfl
        | colon => cases h
      | c :: c' :: x, hx, h =>
        obtain ⟨-, h⟩ := List.cons.inj h
        obtain ⟨rfl, -⟩ := List.cons.inj h
        exact absurd (hx '/' (by simp)) (by decide)

/-- The loop over the characters, with the one before. -/
def dropDots : Char → CString → CString
  | _, [] => []
  | p, [c] => if c = '.' ∧ isDelim p then [] else [c]
  | p, c :: n :: s =>
    if c = '.' ∧ isDelim p ∧ n = '/' then dropDots p s else c :: dropDots c (n :: s)

/-- The loop over dots, behind the part it has passed. -/
theorem extraDots_loop {fuel : Nat} (h : s.length < fuel) :
    extraDots fuel (pre ++ p :: s) (pre.length + 1) = some (pre ++ p :: dropDots p s) := by
  induction fuel generalizing pre p s with
  | zero => exact absurd h (Nat.not_lt_zero _)
  | succ fuel ih =>
    rw [extraDots]
    cases s with
    | nil => rw [if_neg (by simp)]; rfl
    | cons c s =>
      have hlen : s.length < fuel := Nat.lt_of_succ_lt_succ h
      have hc : charAt (pre ++ p :: c :: s) (pre.length + 1) = some (some c) := charAt_next pre p _
      have hp : charAt (pre ++ p :: c :: s) pre.length = some (some p) := charAt_mid pre p _
      have hn : charAt (pre ++ p :: c :: s) (pre.length + 1 + 1) = some s.head? := by
        simpa using charAt_next (pre ++ [p]) c s
      have hgo : extraDots fuel (pre ++ p :: c :: s) (pre.length + 1 + 1) =
          some (pre ++ p :: c :: dropDots c s) := by
        have hnext : extraDots fuel ((pre ++ [p]) ++ c :: s) ((pre ++ [p]).length + 1) =
            some ((pre ++ [p]) ++ c :: dropDots c s) := ih hlen
        simpa using hnext
      rw [if_pos (by simp), Nat.add_sub_cancel, hc, hp, hn]
      show (if some c = some '.' ∧ isDelim p = true ∧ (s.head? = some '/' ∨ s.head? = none) then
        _ else _) = _
      -- a lone dot at the end or before a slash is erased, and the loop looks at the same place
      -- again
      cases s with
      | nil =>
        rw [dropDots]
        by_cases hdot : c = '.' ∧ isDelim p = true
        · have herase : erase (pre ++ [p, c]) (pre.length + 1) 1 = some (pre ++ [p]) := by
            simpa using erase_append (pre ++ [p]) [c] []
          rw [if_pos ⟨congrArg some hdot.1, hdot.2, Or.inr rfl⟩, if_pos hdot]
          show (erase (pre ++ [p, c]) (pre.length + 1) 1 >>= _) = _
          rw [herase]
          exact ih (s := []) (by simpa using hlen)
        · rw [if_neg (fun h => hdot ⟨Option.some.inj h.1, h.2.1⟩), if_neg hdot]
          exact hgo
      | cons n s =>
        rw [dropDots]
        by_cases hdot : c = '.' ∧ isDelim p = true ∧ n = '/'
        · obtain ⟨rfl, hdelim, rfl⟩ := hdot
          have herase : erase (pre ++ p :: '.' :: '/' :: s) (pre.length + 1) 2 = some (pre ++ p :: s) := by
            simpa using erase_append (pre ++ [p]) ['.', '/'] s
          have hcond : ('.' : Char) = '.' ∧ isDelim p = true ∧ ('/' : Char) = '/' := ⟨rfl, hdelim, rfl⟩
          rw [if_pos ⟨rfl, hdelim, Or.inl rfl⟩, if_pos hcond]
          show (erase (pre ++ p :: '.' :: '/' :: s) (pre.length + 1) 2 >>= _) = _
          rw [herase]
          exact ih (Nat.lt_of_succ_lt hlen)
        · rw [if_neg, if_neg hdot]
          · exact hgo
          · rintro ⟨hc, hdelim, hn | hn⟩
            · exact hdot ⟨Option.some.inj hc, hdelim, Option.some.inj hn⟩
            · cases hn

/-- A dot that is not behind a delimiter stays. -/
theorem dropDots_keep (hp : isDelim p = false) (c : Char) (s : CString) :
    dropDots p (c :: s) = c :: dropDots c s := by
  cases s with
  | nil => simp [dropDots, hp]
  | cons n s => simp [dropDots, hp]

/-- The loop over dots is the recursion over characters. -/
theorem extraDots_eq (s : CString) :
    extraDots (s.length + 1) s 1 = some (dropDots 'a' s) := by
  cases s with
  | nil => rfl
  | cons p s =>
    have hloop : extraDots (s.length + 2) ([] ++ p :: s) (0 + 1) = some ([] ++ p :: dropDots p s) :=
      extraDots_loop (by omega)
    rw [dropDots_keep rfl]
    exact hloop

theorem dropDots_plain (hx : Plain x) (hp : isDelim p = false) (s : CString) :
    ∃ q, isDelim q = false ∧ dropDots p (x ++ s) = x ++ dropDots q s := by
  induction x generalizing p with
  | nil => exact ⟨p, hp, rfl⟩
  | cons c x ih =>
    obtain ⟨hc, hx⟩ := List.forall_mem_cons.mp hx
    obtain ⟨q, hq, heq⟩ := ih hx hc
    exact ⟨q, hq, by rw [List.cons_append, dropDots_keep hp, heq, List.cons_append]⟩

/-- A component that is not `.` stays. -/
theorem dropDots_component (hx : Plain x) (hp : isDelim p = false) (d : Delim) (s : CString) :
    dropDots p (x ++ d.char :: s) = x ++ d.char :: dropDots d.char s := by
  obtain ⟨q, hq, heq⟩ := dropDots_plain hx hp (d.char :: s)
  rw [heq, dropDots_keep hq]

/-- The name behind the last delimiter stays. -/
theorem dropDots_last (hx : Plain x) (hp : isDelim p = false) : dropDots p x = x := by
  obtain ⟨q, -, heq⟩ := dropDots_plain hx hp []
  rw [List.append_nil] at heq
  rw [heq, dropDots, List.append_nil]

/-- What the last component becomes behind a delimiter. -/
def dropLast (last : CString) : CString := if last = ['.'] then [] else last

/-- Behind a delimiter the loop drops the components that are `./`. -/
theorem dropDots_text (hcs : ∀ c ∈ cs, Plain c.1) (hlast : Plain last) (hp : isDelim p = true) :
    dropDots p (closedText cs ++ last) = closedText (cs.filter (· ≠ curDir)) ++ dropLast last := by
  -- on the closed components, and in each step on the number of characters of the first
  induction cs generalizing p with
  | nil =>
    match last, hlast with
    | [], _ => rfl
    | [c], _ => by_cases hc : c = '.' <;> simp [dropDots, dropLast, hp, hc]
    | c :: n :: x, hlast =>
      obtain ⟨hc, hrest⟩ := List.forall_mem_cons.mp hlast
      have hn : n ≠ '/' := by
        rintro rfl
        exact absurd (hrest '/' (by simp)) (by decide)
      have hkeep : dropLast (c :: n :: x) = c :: n :: x := if_neg (by simp)
      show dropDots p (c :: n :: x) = _
      rw [dropDots, if_neg (fun h => hn h.2.2), dropDots_last hrest hc, hkeep]
      rfl
  | cons comp cs ih =>
    obtain ⟨x, d⟩ := comp
    obtain ⟨hx, hrest⟩ := List.forall_mem_cons.mp hcs
    have hcur := ih hrest (isDelim_char d)
    rw [closedText_cons, List.append_assoc, List.cons_append]
    -- only a component of one character can be the lone dot; an empty or a longer one is kept
    match x, hx with
    | [], _ =>
      have hne : (([], d) : Component) ≠ curDir := fun h => by cases h
      have hkeep : dropDots p (d.char :: (closedText cs ++ last)) =
          d.char :: dropDots d.char (closedText cs ++ last) := by
        cases closedText cs ++ last <;> cases d <;> simp [dropDots, Delim.char]
      rw [List.filter_cons_of_pos (by simpa using hne), List.nil_append, hkeep, hcur]
      simp
    | [c], hx =>
      have hc : isDelim c = false := hx c (by simp)
      by_cases hdot : c = '.' ∧ d = .slash
      · obtain ⟨rfl, rfl⟩ := hdot
        rw [List.filter_cons_of_neg (by simp [curDir])]
        show dropDots p ('.' :: '/' :: (closedText cs ++ last)) = _
        rw [dropDots, if_pos ⟨rfl, hp, rfl⟩, ih hrest hp]
      · have hne : (([c], d) : Component) ≠ curDir := by
          intro h
          cases h
          exact hdot ⟨rfl, rfl⟩
        rw [List.filter_cons_of_pos (by simpa using hne)]
        show dropDots p (c :: d.char :: (closedText cs ++ last)) = _
        rw [dropDots, if_neg, dropDots_keep hc, hcur]
        · simp
        · rintro ⟨hc', -, hd⟩
          cases d with
          | slash => exact hdot ⟨hc', rfl⟩
          | colon => cases hd
    | c :: n :: x, hx =>
      obtain ⟨hc, hx'⟩ := List.forall_mem_cons.mp hx
      have hn : n ≠ '/' := by
        rintro rfl
        exact absurd (hx' _ (List.mem_cons_self ..)) (by decide)
      have hne : ((c :: n :: x, d) : Component) ≠ curDir := fun h => by cases h
      rw [List.filter_cons_of_pos (by simpa using hne)]
      show dropDots p (c :: n :: (x ++ d.char :: (closedText cs ++ last))) = _
      have hcomp := dropDots_component hx' hc d (closedText cs ++ last)
      rw [List.cons_append] at hcomp
      rw [dropDots, if_neg (fun h => hn h.2.2), hcomp, hcur]
      simp

/-- The two passes over current directories. A single dot that is all there is stays. -/
def Path.undot (p : Path) : Path :=
  let closed := p.closed.filter (· ≠ curDir)
  ⟨closed, if closed = [] then p.last else dropLast p.last⟩

theorem filter_dropWhile (cs : List Component) :
    (cs.dropWhile (· = curDir)).filter (· ≠ curDir) = cs.filter (· ≠ curDir) := by
  induction cs with
  | nil => rfl
  | cons c cs ih =>
    by_cases hc : c = curDir
    · rw [List.dropWhile_cons_of_pos (by simpa using hc), List.filter_cons_of_neg (by simpa using hc), ih]
    · rw [List.dropWhile_cons_of_neg (by simpa using hc)]

/-- The two loops together drop every component `.`. -/
theorem dots_eq {q : Path} (hq : q.Plain) :
    extraDots ((leadingDots q.text).length + 1) (leadingDots q.text) 1 = some q.undot.text := by
  obtain ⟨cs, last⟩ := q
  rw [extraDots_eq, Path.text, leadingDots_text hq.closed hq.last]
  have hfilter := filter_dropWhile cs
  have hsub : ∀ c ∈ cs.dropWhile (· = curDir), Plain c.1 := fun c hc =>
    hq.closed c ((List.dropWhile_sublist _).mem hc)
  cases hdrop : cs.dropWhile (· = curDir) with
  | nil =>
    rw [hdrop, List.filter_nil] at hfilter
    rw [Path.undot]
    show some (dropDots 'a' last) = _
    rw [dropDots_last hq.last rfl, if_pos hfilter.symm, ← hfilter]
    rfl
  | cons c rest =>
    rw [hdrop] at hfilter hsub
    obtain ⟨hx, hrest⟩ := List.forall_mem_cons.mp hsub
    have hhead : c ≠ curDir := by
      have hne : cs.dropWhile (· = curDir) ≠ [] := by
        rw [hdrop]
        exact List.cons_ne_nil _ _
      simpa [hdrop] using List.head_dropWhile_not (· = curDir) hne
    rw [List.filter_cons_of_pos (by simpa using hhead)] at hfilter
    rw [Path.undot, ← hfilter, if_neg (List.cons_ne_nil _ _), closedText_cons, List.append_assoc,
      List.cons_append, dropDots_component hx rfl, dropDots_text hrest hq.last (isDelim_char _)]
    simp [Path.text]

/-! ## Extra parent directories -/

/-- The name `..`. -/
def upName : CString := ['.', '.']

/-- Whether the component before may go: a name behind a slash, and not `..`. The components are in
reverse order. -/
def climbable : List Component → Bool
  | (y, .slash) :: _ => y ≠ [] && y ≠ upName
  | _ => false

/-- The components in front, in reverse order, with those that are still to come. -/
def climb : List Component → List Component → CString → Path
  | out, [], last =>
    if last = upName ∧ climbable out then ⟨out.tail.reverse, []⟩ else ⟨out.reverse, last⟩
  | out, c :: cs, last =>
    if c = (upName, .slash) ∧ climbable out then climb out.tail cs last
    else climb (c :: out) cs last

/-- The walk back stops where the component begins. -/
theorem componentStart_eq {pre y : CString} (hpre : ∀ c, pre.getLast? = some c → isDelim c = true)
    (hy : Plain y) (s : CString) :
    componentStart (pre ++ (y ++ s)) (pre.length + y.length) = some pre.length := by
  induction y using List.reverseRecOn generalizing s with
  | nil =>
    rcases List.eq_nil_or_concat pre with rfl | ⟨pre, c, hpre'⟩
    · rfl
    · rw [List.concat_eq_append] at hpre'
      subst hpre'
      have hc : isDelim c = true := hpre c (by simp)
      have hlen : (pre ++ [c]).length + ([] : CString).length = pre.length + 1 := by simp
      have hat : charAt (pre ++ [c] ++ ([] ++ s)) pre.length = some (some c) := by
        simpa using charAt_mid pre c s
      rw [hlen, componentStart, hat]
      show (if isDelim c = true then _ else _) = _
      rw [if_pos hc]
      simp
  | append_singleton y c ih =>
    have hc : isDelim c = false := hy c (by simp)
    have hlen : pre.length + (y ++ [c]).length = (pre ++ y).length + 1 := by simp [Nat.add_assoc]
    have hat : charAt (pre ++ (y ++ [c] ++ s)) (pre ++ y).length = some (some c) := by
      simpa using charAt_mid (pre ++ y) c s
    rw [hlen, componentStart, hat]
    show (if isDelim c = true then _ else _) = _
    rw [if_neg (by simp [hc])]
    have hrest := ih (fun a ha => hy a (List.mem_append_left _ ha)) (c :: s)
    simpa using hrest

/-- A component goes unless it is empty or `..` itself. -/
theorem removable_eq (pre y : CString) (s : CString) :
    removable (pre ++ (y ++ s)) (pre.length + y.length + 2) pre.length =
      some (y ≠ [] && y ≠ upName) := by
  rw [removable]
  match y with
  | [] => rw [if_neg (by simp)]; rfl
  | [c] =>
    rw [if_pos (by simp), if_pos (by simp; omega)]
    simp [upName]
  | [c, c'] =>
    have hc : charAt (pre ++ ([c, c'] ++ s)) pre.length = some (some c) := charAt_mid pre c (c' :: s)
    have hc' : charAt (pre ++ ([c, c'] ++ s)) (pre.length + 1) = some (some c') :=
      charAt_next pre c (c' :: s)
    rw [if_pos (by simp), if_neg (by simp; omega), hc, hc']
    by_cases h : c = '.' <;> by_cases h' : c' = '.' <;> simp [upName, h, h']
  | c :: c' :: c'' :: y =>
    rw [if_pos (by simp), if_pos (by simp; omega)]
    simp [upName]

theorem max_length_concat (pre : CString) (p : Char) :
    max (pre ++ [p]).length 1 + 1 = pre.length + 2 := by
  rw [List.length_append, List.length_singleton, Nat.max_eq_left (Nat.le_add_left 1 _)]

/-- The loop ends with `r` from the first character of `s` on; where it has come to is one further. -/
def ClimbsTo (pre s r : CString) : Prop :=
  ∀ fuel, s.length < fuel → extraUps fuel (pre ++ s) (max pre.length 1 + 1) = some r

/-- The characters at which the loop looks for a component that may go. -/
def UpAhead (pre s : CString) : Prop :=
  ∃ pre' t, pre = pre' ++ ['/'] ∧ s = '.' :: '.' :: t ∧ (t.head? = some '/' ∨ t.head? = none)

theorem climbsTo_nil (pre : CString) : ClimbsTo pre [] pre := by
  intro fuel hfuel
  obtain ⟨fuel, rfl⟩ := Nat.exists_eq_add_of_lt hfuel
  rw [extraUps, if_neg (by simp; omega), List.append_nil]

/-- One turn of the loop over `..`. -/
theorem extraUps_step {pre s : CString} {p c c' : Char} {fuel : Nat} :
    extraUps (fuel + 1) (pre ++ p :: c :: c' :: s) (pre.length + 2) =
      if some p = some '/' ∧ some c = some '.' ∧ some c' = some '.' ∧
          (s.head? = some '/' ∨ s.head? = none) then do
        let j ← componentStart (pre ++ p :: c :: c' :: s) pre.length
        if ← removable (pre ++ p :: c :: c' :: s) (pre.length + 2) j then
          let e := pre.length + 2 + 1 - j
          extraUps fuel (← erase (pre ++ p :: c :: c' :: s) j (if s.head? = some '/' then e + 1 else e))
            (max j 1 + 1)
        else extraUps fuel (pre ++ p :: c :: c' :: s) (pre.length + 2 + 1)
      else extraUps fuel (pre ++ p :: c :: c' :: s) (pre.length + 2 + 1) := by
  have h₀ : charAt (pre ++ p :: c :: c' :: s) pre.length = some (some p) := charAt_mid pre p _
  have h₁ : charAt (pre ++ p :: c :: c' :: s) (pre.length + 1) = some (some c) := charAt_next pre p _
  have h₂ : charAt (pre ++ p :: c :: c' :: s) (pre.length + 2) = some (some c') := by
    simpa using charAt_next (pre ++ [p]) c (c' :: s)
  have h₃ : charAt (pre ++ p :: c :: c' :: s) (pre.length + 2 + 1) = some s.head? := by
    simpa using charAt_next (pre ++ [p, c]) c' s
  rw [extraUps, if_pos (by simp), Nat.add_sub_cancel, h₀, show pre.length + 2 - 1 = pre.length + 1 from rfl,
    h₁, h₂, h₃]
  rfl

/-- Where there is nothing to do, the loop goes on to the next character. -/
theorem ClimbsTo.cons {pre s r : CString} {c : Char} (h : ClimbsTo (pre ++ [c]) s r)
    (hno : ¬UpAhead pre (c :: s)) : ClimbsTo pre (c :: s) r := by
  intro fuel hfuel
  rcases List.eq_nil_or_concat pre with rfl | ⟨pre, p, hpre⟩
  · -- the loop begins with the third character
    exact h fuel (Nat.lt_of_succ_lt hfuel)
  · rw [List.concat_eq_append] at hpre
    subst hpre
    obtain ⟨fuel, rfl⟩ : ∃ f, fuel = f + 1 := Nat.exists_eq_succ_of_ne_zero (by omega)
    have hgo := h fuel (Nat.lt_of_succ_lt_succ hfuel)
    rw [max_length_concat, List.length_append, List.length_singleton] at hgo
    rw [max_length_concat]
    cases s with
    | nil =>
      rw [extraUps, if_neg (by simp)]
      obtain ⟨f, rfl⟩ : ∃ f, fuel = f + 1 := Nat.exists_eq_succ_of_ne_zero (by simp at hfuel; omega)
      rw [extraUps, if_neg (by simp)] at hgo
      simpa using hgo
    | cons c' s =>
      have hshape : pre ++ [p] ++ c :: c' :: s = pre ++ p :: c :: c' :: s := by simp
      rw [hshape, extraUps_step, if_neg]
      · simpa using hgo
      · rintro ⟨hp, hc, hc', hs⟩
        cases hp
        cases hc
        cases hc'
        exact hno ⟨pre, s, rfl, rfl, hs⟩

/-- The component before stays, so the `..` does. -/
theorem ClimbsTo.stay {pre y s r : CString} (hpre : ∀ c, pre.getLast? = some c → isDelim c = true)
    (hy : Plain y) (hstay : (y ≠ [] && y ≠ upName) = false)
    (h : ClimbsTo (pre ++ y ++ ['/'] ++ ['.']) ('.' :: s) r) :
    ClimbsTo (pre ++ y ++ ['/']) ('.' :: '.' :: s) r := by
  intro fuel hfuel
  obtain ⟨fuel, rfl⟩ : ∃ f, fuel = f + 1 := Nat.exists_eq_succ_of_ne_zero (by omega)
  have hgo := h fuel (Nat.lt_of_succ_lt_succ hfuel)
  have hshape : pre ++ y ++ ['/'] ++ '.' :: '.' :: s = pre ++ y ++ '/' :: '.' :: '.' :: s := by simp
  have hshape' : pre ++ y ++ ['/'] ++ ['.'] ++ '.' :: s = pre ++ y ++ '/' :: '.' :: '.' :: s := by simp
  have hlen : (pre ++ y ++ ['/']).length = (pre ++ y).length + 1 := List.length_append
  rw [max_length_concat, hshape', hlen] at hgo
  rw [max_length_concat, hshape, extraUps_step]
  split
  · have hstart := componentStart_eq hpre hy ('/' :: '.' :: '.' :: s)
    have hrem := removable_eq pre y ('/' :: '.' :: '.' :: s)
    rw [hstay] at hrem
    rw [← List.append_assoc, ← List.length_append] at hstart hrem
    rw [hstart]
    show (removable _ _ _ >>= _) = _
    rw [hrem]
    exact hgo
  · exact hgo

/-- The component before goes with the `..`. -/
theorem ClimbsTo.up {pre y s r : CString} (hpre : ∀ c, pre.getLast? = some c → isDelim c = true)
    (hy : Plain y) (hup : (y ≠ [] && y ≠ upName) = true)
    (hs : s.head? = some '/' ∨ s.head? = none) (h : ClimbsTo pre s.tail r) :
    ClimbsTo (pre ++ y ++ ['/']) ('.' :: '.' :: s) r := by
  intro fuel hfuel
  obtain ⟨fuel, rfl⟩ : ∃ f, fuel = f + 1 := Nat.exists_eq_succ_of_ne_zero (by omega)
  have hgo := h fuel (by
    have : s.tail.length ≤ s.length := by simp
    simp at hfuel
    omega)
  have hshape : pre ++ y ++ ['/'] ++ '.' :: '.' :: s = pre ++ y ++ '/' :: '.' :: '.' :: s := by simp
  have hstart := componentStart_eq hpre hy ('/' :: '.' :: '.' :: s)
  have hrem := removable_eq pre y ('/' :: '.' :: '.' :: s)
  rw [hup] at hrem
  rw [← List.append_assoc, ← List.length_append] at hstart hrem
  rw [max_length_concat, hshape, extraUps_step, if_pos ⟨rfl, rfl, rfl, hs⟩, hstart]
  show (removable _ _ _ >>= _) = _
  rw [hrem]
  have herase : erase (pre ++ y ++ '/' :: '.' :: '.' :: s) pre.length
      (if s.head? = some '/' then (pre ++ y).length + 2 + 1 - pre.length + 1
        else (pre ++ y).length + 2 + 1 - pre.length) = some (pre ++ s.tail) := by
    have hlen : (pre ++ y).length + 2 + 1 - pre.length = (y ++ ['/', '.', '.']).length := by
      simp
      omega
    cases s with
    | nil =>
      rw [hlen]
      simpa using erase_append pre (y ++ ['/', '.', '.']) []
    | cons c s =>
      obtain rfl : c = '/' := by simpa using hs
      have hlen' : (y ++ ['/', '.', '.']).length + 1 = (y ++ ['/', '.', '.', '/']).length := by simp
      rw [hlen, if_pos List.head?_cons, hlen']
      simpa using erase_append pre (y ++ ['/', '.', '.', '/']) s
  show (erase _ _ _ >>= _) = _
  rw [herase]
  exact hgo

theorem ClimbsTo.delim {pre s r : CString} {d : Delim} (h : ClimbsTo (pre ++ [d.char]) s r) :
    ClimbsTo pre (d.char :: s) r := by
  refine h.cons ?_
  rintro ⟨pre', t, -, hs, -⟩
  cases d <;> cases hs

/-- Behind a character of a name there is nothing to do up to the end of the name. -/
theorem ClimbsTo.name {pre s r : CString} {p : Char} (hp : isDelim p = false) (hx : Plain x)
    (h : ClimbsTo (pre ++ [p] ++ x) s r) : ClimbsTo (pre ++ [p]) (x ++ s) r := by
  induction x generalizing pre p with
  | nil => simpa using h
  | cons c x ih =>
    obtain ⟨hc, hx⟩ := List.forall_mem_cons.mp hx
    refine ClimbsTo.cons (ih hc hx (by simpa using h)) ?_
    rintro ⟨pre', t, hpre, -, -⟩
    obtain ⟨-, hlast⟩ := List.append_inj' hpre rfl
    cases hlast
    cases hp

/-- There is something to do at a name only if it is `..`, behind a slash and before one or at the
end. -/
theorem UpAhead.name {pre s : CString} (hx : Plain x) (hx' : x ≠ [])
    (hs : ∀ c, s.head? = some c → isDelim c = true) (h : UpAhead pre (x ++ s)) :
    x = upName ∧ (∃ pre', pre = pre' ++ ['/']) ∧ (s.head? = some '/' ∨ s.head? = none) := by
  obtain ⟨pre', t, rfl, hxs, ht⟩ := h
  match x, hx, hx' with
  | [c], _, _ =>
    have hs' : s = '.' :: t := (List.cons.inj hxs).2
    rw [hs'] at hs
    cases hs '.' rfl
  | c :: c' :: x, hx, _ =>
    obtain ⟨hc, hrest⟩ := List.cons.inj hxs
    obtain ⟨hc', htail⟩ := List.cons.inj hrest
    subst hc hc' htail
    cases x with
    | nil => exact ⟨rfl, ⟨pre', rfl⟩, ht⟩
    | cons c x =>
      have hc : isDelim c = false := hx c (by simp)
      rcases ht with ht | ht
      · obtain rfl : c = '/' := Option.some.inj ht
        cases hc
      · cases ht

/-- The loop passes a name that is not `..`. -/
theorem ClimbsTo.component {pre s r : CString} (hx : Plain x)
    (hno : x ≠ [] → ¬UpAhead pre (x ++ s)) (h : ClimbsTo (pre ++ x) s r) :
    ClimbsTo pre (x ++ s) r := by
  cases x with
  | nil => simpa using h
  | cons c x =>
    obtain ⟨hc, hx⟩ := List.forall_mem_cons.mp hx
    refine ClimbsTo.cons (ClimbsTo.name hc hx (by simpa using h)) ?_
    exact hno (List.cons_ne_nil _ _)

theorem closedText_reverse_cons (c : Component) (out : List Component) :
    closedText (c :: out).reverse = closedText out.reverse ++ c.1 ++ [c.2.char] := by
  rw [List.reverse_cons, closedText_append]
  simp

/-- Components end with a delimiter. -/
theorem getLast?_closedText {out : List Component} {c : Char}
    (h : (closedText out.reverse).getLast? = some c) : isDelim c = true := by
  cases out with
  | nil => cases h
  | cons comp out =>
    rw [closedText_reverse_cons, List.getLast?_concat] at h
    cases h
    exact isDelim_char _

theorem upName_plain : Plain upName := .cons rfl (.cons rfl .nil)

/-- A `..` behind the components of `out` and before a slash or the end: the loop takes it with the
component before it, or lets it stay. -/
theorem climbsTo_upName {out : List Component} {s r : CString} (hout : ∀ c ∈ out, Plain c.1)
    (hs : s.head? = some '/' ∨ s.head? = none)
    (hup : climbable out = true → ClimbsTo (closedText out.tail.reverse) s.tail r)
    (hstay : climbable out = false → ClimbsTo (closedText out.reverse ++ upName) s r) :
    ClimbsTo (closedText out.reverse) (upName ++ s) r := by
  have hskip : ∀ {p : Char}, p ≠ '/' → (closedText out.reverse).getLast? = some p →
      ¬UpAhead (closedText out.reverse) (upName ++ s) := by
    rintro p hp hlast ⟨pre', t, hpre, -, -⟩
    rw [hpre, List.getLast?_concat] at hlast
    exact hp (Option.some.inj hlast).symm
  match out, hout with
  | [], _ =>
    refine .component upName_plain (fun _ => ?_) (hstay rfl)
    rintro ⟨pre', t, hpre, -, -⟩
    exact absurd hpre (by simp)
  | (y, .colon) :: out, _ =>
    refine .component upName_plain (fun _ => hskip (p := ':') (by decide) ?_) (hstay rfl)
    rw [closedText_reverse_cons, List.getLast?_concat]
    rfl
  | (y, .slash) :: out, hout =>
    obtain ⟨hy, -⟩ := List.forall_mem_cons.mp hout
    have hpre : ∀ c, (closedText out.reverse).getLast? = some c → isDelim c = true :=
      fun c => getLast?_closedText
    rw [closedText_reverse_cons] at hstay ⊢
    cases hclimb : climbable ((y, .slash) :: out) with
    | true => exact ClimbsTo.up hpre hy hclimb hs (hup hclimb)
    | false =>
      refine ClimbsTo.stay hpre hy hclimb ?_
      exact ClimbsTo.name (x := ['.']) rfl (.cons rfl .nil) (by simpa [upName, Delim.char] using hstay hclimb)

/-- The loop over `..` is the recursion over components. -/
theorem climbsTo_climb {out : List Component} (hout : ∀ c ∈ out, Plain c.1)
    (hcs : ∀ c ∈ cs, Plain c.1) (hlast : Plain last) :
    ClimbsTo (closedText out.reverse) (closedText cs ++ last) (climb out cs last).text := by
  induction cs generalizing out with
  | nil =>
    rw [climb]
    have hend : ClimbsTo (closedText out.reverse ++ last) [] (closedText out.reverse ++ last) :=
      climbsTo_nil _
    by_cases hup : last = upName
    · subst hup
      refine climbsTo_upName (s := []) hout (Or.inr rfl) (fun hclimb => ?_) fun hclimb => ?_
      · rw [if_pos ⟨rfl, hclimb⟩, Path.text, List.append_nil]
        exact climbsTo_nil _
      · rw [if_neg (by simp [hclimb])]
        exact hend
    · rw [if_neg (fun h => hup h.1)]
      have hcomp : ClimbsTo (closedText out.reverse) (last ++ []) (closedText out.reverse ++ last) :=
        .component hlast (fun hne h => hup (h.name hlast hne (fun _ hc => by cases hc)).1) hend
      rwa [List.append_nil] at hcomp
  | cons comp cs ih =>
    obtain ⟨x, d⟩ := comp
    obtain ⟨hx, hrest⟩ := List.forall_mem_cons.mp hcs
    have hkeep : ClimbsTo (closedText out.reverse ++ x) (d.char :: (closedText cs ++ last))
        (climb ((x, d) :: out) cs last).text := by
      refine .delim ?_
      have hnext := ih (List.forall_mem_cons.mpr ⟨hx, hout⟩) hrest
      rwa [closedText_reverse_cons] at hnext
    rw [climb, closedText_cons, List.append_assoc, List.cons_append]
    by_cases hup : (x, d) = (upName, Delim.slash)
    · cases hup
      refine climbsTo_upName hout (Or.inl rfl) (fun hclimb => ?_) fun hclimb => ?_
      · rw [if_pos ⟨rfl, hclimb⟩]
        exact ih (fun c hc => hout c (List.mem_of_mem_tail hc)) hrest
      · rw [if_neg (by simp [hclimb])]
        exact hkeep
    · rw [if_neg (fun h => hup h.1)]
      refine .component hx (fun hne h => ?_) hkeep
      obtain ⟨rfl, -, hslash⟩ := h.name hx hne (by
        rintro _ ⟨⟩
        exact isDelim_char d)
      refine hup ?_
      cases d with
      | slash => rfl
      | colon => rcases hslash with h | h <;> cases h

/-! ## The passes one after the other -/

/-- The path without empty components but the first. -/
def Path.squeezed (q : Path) : Path := ⟨squeeze false q.closed, q.last⟩

/-- The path with its `..` resolved. -/
def Path.climbed (q : Path) : Path := climb [] q.closed q.last

/-- The path after all passes. -/
def Path.simplified (q : Path) : Path := q.squeezed.undot.climbed

/-- Components are only taken away. -/
theorem squeeze_sublist (afterSlash : Bool) (cs : List Component) :
    (squeeze afterSlash cs).Sublist cs := by
  induction cs generalizing afterSlash with
  | nil => exact .slnil
  | cons c cs ih =>
    rw [squeeze]
    split
    · exact (ih _).cons _
    · exact (ih _).cons_cons _

/-- Names stay without delimiters when slashes are squeezed. -/
theorem Path.Plain.squeezed {q : Path} (h : q.Plain) : q.squeezed.Plain :=
  ⟨fun c hc => h.closed c ((squeeze_sublist _ _).mem hc), h.last⟩

theorem dropLast_plain {x : CString} (h : Plain x) : Plain (dropLast x) := by
  unfold dropLast
  split
  · exact .nil
  · exact h

/-- Names stay without delimiters when dots are dropped. -/
theorem Path.Plain.undot {q : Path} (h : q.Plain) : q.undot.Plain := by
  refine ⟨fun c hc => h.closed c (List.mem_of_mem_filter hc), ?_⟩
  show PathName.Plain (if _ then _ else _)
  split
  · exact h.last
  · exact dropLast_plain h.last

/-- Names stay without delimiters when `..` is resolved. -/
theorem climb_plain {out : List Component} (hout : ∀ c ∈ out, Plain c.1)
    (hcs : ∀ c ∈ cs, Plain c.1) (hlast : Plain last) : (climb out cs last).Plain := by
  induction cs generalizing out with
  | nil =>
    rw [climb]
    split
    · exact ⟨fun c hc => hout c (List.mem_of_mem_tail (List.mem_reverse.mp hc)), .nil⟩
    · exact ⟨fun c hc => hout c (List.mem_reverse.mp hc), hlast⟩
  | cons c cs ih =>
    obtain ⟨hc, hcs⟩ := List.forall_mem_cons.mp hcs
    rw [climb]
    split
    · exact ih (fun c hc => hout c (List.mem_of_mem_tail hc)) hcs
    · exact ih (List.forall_mem_cons.mpr ⟨hc, hout⟩) hcs

/-- Names stay without delimiters in all passes. -/
theorem Path.Plain.simplified {q : Path} (h : q.Plain) : q.simplified.Plain :=
  have hundot := h.squeezed.undot
  climb_plain nofun hundot.closed hundot.last

/-- The passes never leave the buffer, and their result is the simplified path. -/
theorem passes_eq (s : CString) : passes s = some (parse (backSlashes s)).simplified.text := by
  have hplain := parse_plain (backSlashes s)
  have hslash : extraSlashes ((backSlashes s).length + 1) (backSlashes s) 1 =
      some (parse (backSlashes s)).squeezed.text := by
    conv_lhs => rw [extraSlashes_eq, ← text_parse (backSlashes s)]
    exact congrArg some (squeezeChars_text hplain.closed hplain.last 'a')
  have hdots := dots_eq hplain.squeezed
  have hups : ∀ {q : Path}, q.Plain →
      extraUps (q.text.length + 1) q.text 2 = some q.climbed.text := by
    intro q hq
    exact @climbsTo_climb q.last q.closed [] nofun hq.closed hq.last _ (Nat.lt_succ_self _)
  show (extraSlashes _ _ _ >>= _) = _
  rw [hslash]
  show (extraDots _ _ _ >>= _) = _
  rw [hdots]
  exact hups hplain.squeezed.undot

end Quirrel.PathName
