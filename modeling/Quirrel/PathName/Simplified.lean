import Mathlib.Data.List.Flatten
import Mathlib.Logic.Relation
import Quirrel.PathName.Body
import Quirrel.PathName.Resolve

/-!
# What `dd_simplify_fname_c` returns

The passes work on the body of the string: what is left without the prefix of a URL, the white space
around it and the quotes. Its result is normal and leads to the same place; it is the same for
spellings with other superfluous components (`simplified_respelled`).
-/

set_option autoImplicit false

namespace Quirrel.PathName

/-! ## Spellings -/

/-- `b` may come after `a` as it is: it does not begin with an empty component that would become the
root. -/
def Joins (a b : List Component) : Prop :=
  b.head? = some emptyComponent → ∃ c ∈ a.getLast?, c.2 = .slash

/-- The same path with one superfluous part more. -/
inductive Respelled : Path → Path → Prop
  | dot {a b : List Component} {last : CString} (hb : Joins a b) :
      Respelled ⟨a ++ curDir :: b, last⟩ ⟨a ++ b, last⟩
  | empty {a b : List Component} {x last : CString} :
      Respelled ⟨a ++ (x, .slash) :: emptyComponent :: b, last⟩ ⟨a ++ (x, .slash) :: b, last⟩
  | up {a b : List Component} {y last : CString} (hy : y ≠ []) (hdot : y ≠ ['.']) (hup : y ≠ upName)
      (hb : Joins a b) (hlast : last ≠ ['.']) :
      Respelled ⟨a ++ (y, .slash) :: (upName, .slash) :: b, last⟩ ⟨a ++ b, last⟩

/-- Whether the last delimiter is a slash. -/
def afterSlash (b : Bool) (cs : List Component) : Bool :=
  cs.foldl (fun _ c => decide (c.2 = .slash)) b

/-- Slashes are squeezed part by part. -/
theorem squeeze_append (b : Bool) (cs cs' : List Component) :
    squeeze b (cs ++ cs') = squeeze b cs ++ squeeze (afterSlash b cs) cs' := by
  induction cs generalizing b with
  | nil => rfl
  | cons c cs ih =>
    rw [List.cons_append, squeeze, squeeze]
    split
    · rename_i h
      have hb : b = decide (c.2 = Delim.slash) := by
        rw [h.1, h.2]
        rfl
      rw [ih, hb]
      rfl
    · rw [ih, List.cons_append]
      rfl

theorem squeeze_cons (b : Bool) (c : Component) (cs : List Component) :
    squeeze b (c :: cs) =
      if b ∧ c = ([], .slash) then squeeze b cs else c :: squeeze (c.2 = .slash) cs := rfl

/-- What stands in front only matters to an empty component. -/
theorem squeeze_congr {cs : List Component} (h : cs.head? ≠ some emptyComponent) (b b' : Bool) :
    squeeze b cs = squeeze b' cs := by
  cases cs with
  | nil => rfl
  | cons c cs =>
    have hc : c ≠ emptyComponent := fun hc => h (congrArg some hc)
    rw [squeeze, squeeze, if_neg (fun h => hc h.2), if_neg (fun h => hc h.2)]

/-- Behind what it may come after, `b` is squeezed as behind a slash. -/
theorem Joins.squeeze {a b : List Component} (h : Joins a b) :
    squeeze (afterSlash false a) b = squeeze true b := by
  by_cases hb : b.head? = some emptyComponent
  · obtain ⟨c, hc, hslash⟩ := h hb
    obtain ⟨a', rfl⟩ := List.getLast?_eq_some_iff.mp hc
    rw [afterSlash, List.foldl_append, List.foldl_cons, List.foldl_nil, hslash]
    rfl
  · exact squeeze_congr hb _ _

theorem squeeze_cons_slash {x : CString} (b : Bool) (cs : List Component) (h : b = false ∨ x ≠ []) :
    squeeze b ((x, .slash) :: cs) = (x, .slash) :: squeeze true cs := by
  rw [squeeze, if_neg]
  · rfl
  · rintro ⟨hb, hx⟩
    rcases h with h | h
    · cases hb.symm.trans h
    · exact h (Prod.mk.inj hx).1

/-- Behind any components a name and the `..` after it go. -/
theorem climb_up {y : CString} (hy : y ≠ []) (hup : y ≠ upName) (out a b : List Component)
    (last : CString) :
    climb out (a ++ (y, .slash) :: (upName, .slash) :: b) last = climb out (a ++ b) last := by
  induction a generalizing out with
  | nil =>
    have hne : (y, Delim.slash) ≠ (upName, Delim.slash) := fun h => hup (Prod.mk.inj h).1
    have hclimb : climbable ((y, Delim.slash) :: out) = true := by simp [climbable, hy, hup]
    rw [List.nil_append, climb, if_neg (fun h => hne h.1), climb, if_pos ⟨rfl, hclimb⟩]
    rfl
  | cons c a ih =>
    rw [List.cons_append, List.cons_append, climb, climb]
    split
    · exact ih _
    · exact ih _

/-- Paths with the same components but `.` are undotted alike. -/
theorem undot_eq {q q' : Path}
    (hclosed : q.closed.filter (· ≠ curDir) = q'.closed.filter (· ≠ curDir)) (hlast : q.last = q'.last) :
    q.undot = q'.undot := by
  rw [Path.undot, Path.undot, hclosed, hlast]

/-- Two spellings of a path have one result. -/
theorem simplified_respelled {q q' : Path} (h : Respelled q q') : q.simplified = q'.simplified := by
  cases h with
  | @dot a b last hb =>
    have hundot : Path.undot (Path.squeezed ⟨a ++ curDir :: b, last⟩) =
        Path.undot (Path.squeezed ⟨a ++ b, last⟩) := by
      refine undot_eq ?_ rfl
      show (squeeze false (a ++ curDir :: b)).filter _ = (squeeze false (a ++ b)).filter _
      rw [squeeze_append, squeeze_append, hb.squeeze, curDir,
        squeeze_cons_slash _ _ (Or.inr (List.cons_ne_nil _ _)), List.filter_append, List.filter_append]
      simp
    exact congrArg Path.climbed hundot
  | @empty a b x last =>
    have hsqueeze : Path.squeezed ⟨a ++ (x, .slash) :: emptyComponent :: b, last⟩ =
        Path.squeezed ⟨a ++ (x, .slash) :: b, last⟩ := by
      have hdrop : squeeze true (emptyComponent :: b) = squeeze true b := by
        rw [squeeze, if_pos ⟨rfl, rfl⟩]
      have hb : ∀ b' : Bool, squeeze b' ((x, .slash) :: emptyComponent :: b) =
          squeeze b' ((x, .slash) :: b) := by
        intro b'
        rw [squeeze_cons b' (x, .slash) (emptyComponent :: b), squeeze_cons b' (x, .slash) b]
        split
        · rename_i h
          rw [h.1, hdrop]
        · exact congrArg ((x, Delim.slash) :: ·) hdrop
      show Path.mk (squeeze false _) last = Path.mk (squeeze false _) last
      rw [squeeze_append, squeeze_append, hb]
    exact congrArg (fun q => q.undot.climbed) hsqueeze
  | @up a b y last hy hdot hup hb hlast =>
    have hkeep : dropLast last = last := if_neg hlast
    have hlast' : ∀ cs : List Component, (Path.undot (Path.squeezed ⟨cs, last⟩)).last = last := by
      intro cs
      show (if _ then last else dropLast last) = last
      rw [hkeep, ite_self]
    have hne : (y, Delim.slash) ≠ curDir := fun h => hdot (Prod.mk.inj h).1
    show climb [] ((squeeze false (a ++ (y, .slash) :: (upName, .slash) :: b)).filter _)
      (Path.undot (Path.squeezed ⟨_, last⟩)).last = climb [] ((squeeze false (a ++ b)).filter _)
      (Path.undot (Path.squeezed ⟨_, last⟩)).last
    rw [hlast', hlast', squeeze_append, squeeze_append, hb.squeeze,
      squeeze_cons_slash _ _ (Or.inr hy),
      squeeze_cons_slash _ _ (Or.inr (show upName ≠ [] from List.cons_ne_nil _ _)),
      List.filter_append, List.filter_append, List.filter_cons_of_pos (by simpa using hne),
      List.filter_cons_of_pos (by decide)]
    exact climb_up hy hup _ _ _ _

/-- So do any two spellings that changes lead between. -/
theorem simplified_eqv {q q' : Path} (h : Relation.EqvGen Respelled q q') :
    q.simplified = q'.simplified := by
  induction h with
  | rel _ _ h => exact simplified_respelled h
  | refl _ => rfl
  | symm _ _ _ ih => exact ih.symm
  | trans _ _ _ _ _ ih ih' => exact ih.trans ih'

/-! ## The result of the passes -/

/-- The path that a body spells: both kinds of slashes separate. -/
def spelled (t : CString) : Path := parse (t.map toSlash)

/-- What the passes leave of a body. -/
def result (t : CString) : CString := (spelled t).simplified.text

/-- The path of the result. -/
theorem parse_result (t : CString) : parse (result t) = (spelled t).simplified :=
  parse_text (parse_plain _).simplified

/-- The passes give the result. -/
theorem passes_result {t : CString} (h : t.head? ≠ some '\\') : passes t = some (result t) := by
  have hback : backSlashes t = t.map toSlash := by
    cases t with
    | nil => rfl
    | cons c t =>
      have hc : c ≠ '\\' := fun hc => h (congrArg some hc)
      rw [backSlashes, List.map_cons, toSlash, if_neg hc]
  rw [passes_eq, hback]
  rfl

/-- The result is the text with some characters taken out. -/
theorem result_sublist (t : CString) : (result t).Sublist (t.map toSlash) := by
  obtain ⟨hclosed, hlast⟩ := simplified_sublist (spelled t)
  have htext : closedText (spelled t).closed ++ (spelled t).last = t.map toSlash := text_parse _
  rw [← htext]
  refine (hclosed.flatMap _).append ?_
  rcases hlast with h | h
  · rw [h]
    exact List.nil_sublist _
  · rw [h]

theorem count_map_toSlash (t : CString) : (t.map toSlash).count '"' = t.count '"' := by
  induction t with
  | nil => rfl
  | cons c t ih =>
    rw [List.map_cons, List.count_cons, List.count_cons, ih]
    by_cases hc : c = '\\'
    · subst hc
      rfl
    · rw [toSlash, if_neg hc]

theorem isBlank_toSlash (c : Char) : isBlank (toSlash c) = isBlank c := by
  unfold toSlash
  split
  · rename_i h
    subst h
    rfl
  · rfl

theorem not_isBlank_of_isDelim {c : Char} (h : isDelim c = true) : isBlank c = false := by
  have hc : c = '/' ∨ c = ':' := by simpa [isDelim] using h
  rcases hc with rfl | rfl <;> rfl

/-- The last character of the result is a delimiter or the last one of the body. -/
theorem result_last {t : CString} (h : Tidy t) : ∀ c ∈ (result t).getLast?, isBlank c = false := by
  intro c hc
  obtain ⟨-, hlast⟩ := simplified_sublist (spelled t)
  have hresult : result t = closedText (spelled t).simplified.closed ++ (spelled t).simplified.last := rfl
  rw [hresult] at hc
  by_cases hnil : (spelled t).simplified.last = []
  · rw [hnil, List.append_nil, ← List.reverse_reverse (spelled t).simplified.closed] at hc
    exact not_isBlank_of_isDelim (getLast?_closedText hc)
  · have hsame := hlast.resolve_left hnil
    rw [hsame] at hc hnil
    have htext : closedText (spelled t).closed ++ (spelled t).last = t.map toSlash := text_parse _
    have hend : (t.map toSlash).getLast? = some c := by
      rw [← htext, List.getLast?_append_of_ne_nil _ hnil]
      rwa [Option.mem_def, List.getLast?_append_of_ne_nil _ hnil] at hc
    rw [List.getLast?_map, Option.map_eq_some_iff] at hend
    obtain ⟨c', hc', rfl⟩ := hend
    rw [isBlank_toSlash]
    exact h.last c' hc'

/-- The result of a tidy text is tidy. -/
theorem result_tidy {t : CString} (h : Tidy t) (hhead : ∀ c ∈ (result t).head?, isBlank c = false) :
    Tidy (result t) where
  head := hhead
  last := result_last h
  quotes := ((result_sublist t).count_le '"').trans (count_map_toSlash t ▸ h.quotes)

theorem toSlash_toSlash (c : Char) : toSlash (toSlash c) = toSlash c := by
  by_cases h : c = '\\'
  · subst h
    rfl
  · rw [toSlash.eq_1 c, if_neg h, toSlash, if_neg h]

theorem map_toSlash_result (t : CString) : (result t).map toSlash = result t := by
  conv_rhs => rw [← List.map_id (result t)]
  refine List.map_congr_left fun c hc => ?_
  obtain ⟨c', -, rfl⟩ := List.mem_map.mp ((result_sublist t).mem hc)
  exact toSlash_toSlash c'

/-- No back slash is left, so the result spells its own path. -/
theorem spelled_result (t : CString) : spelled (result t) = (spelled t).simplified := by
  rw [spelled, map_toSlash_result, parse_result]

/-- The result is simplified already. -/
theorem result_result (t : CString) : result (result t) = result t := by
  rw [result, spelled_result, simplified_of_normal (simplified_normal _)]
  rfl

theorem head_result_ne (t : CString) : (result t).head? ≠ some '\\' := by
  intro h
  rw [← map_toSlash_result, List.head?_map, Option.map_eq_some_iff] at h
  obtain ⟨c, -, hc⟩ := h
  by_cases hback : c = '\\'
  · subst hback
    cases hc
  · rw [toSlash, if_neg hback] at hc
    exact hback hc

/-- The path of a text with a delimiter in it. -/
theorem parse_append_delim (s s' : CString) (d : Delim) :
    parse (s ++ d.char :: s') =
      ⟨(parse s).closed ++ ((parse s).last, d) :: (parse s').closed, (parse s').last⟩ := by
  have hplain := parse_plain s
  conv_lhs => rw [← text_parse s, Path.text, List.append_assoc]
  rw [parse_closed hplain.closed, parse_component hplain.last]

/-- There are no two slashes in a row, so nothing looks like a URL. -/
theorem urlPrefix_result (t : CString) : urlPrefix (result t) = 0 := by
  rcases urlPrefix_cases (result t) with h | ⟨semi, h⟩
  · exact h
  · have hsplit : result t = (result t).take (semi + 1) ++ '/' :: '/' :: (result t).drop (semi + 3) := by
      have hfirst := List.getElem?_eq_some_iff.mp h.first
      have hsecond := List.getElem?_eq_some_iff.mp h.second
      obtain ⟨h1, hf⟩ := hfirst
      obtain ⟨h2, hs⟩ := hsecond
      conv_lhs => rw [← List.take_append_drop (semi + 1) (result t)]
      rw [List.drop_eq_getElem_cons h1, List.drop_eq_getElem_cons h2, hf, hs]
    have hnormal := simplified_normal (spelled t)
    rw [← parse_result, hsplit] at hnormal
    have hslash := parse_append_delim ((result t).take (semi + 1)) ('/' :: (result t).drop (semi + 3)) .slash
    have hempty : parse ('/' :: (result t).drop (semi + 3)) =
        (parse ((result t).drop (semi + 3))).open .slash := parse_delim .slash _
    change (parse ((result t).take (semi + 1) ++ Delim.slash.char :: '/' :: (result t).drop (semi + 3))).Normal
      at hnormal
    rw [hslash, hempty] at hnormal
    have hchain := (List.isChain_append.mp hnormal.chain).2.1
    exact absurd rfl (((List.isChain_cons.mp hchain).1 _ rfl).1 rfl)

/-! ## `dd_simplify_fname_c` -/

/-- The loops stay in the buffer and end for every string. Where the body does not begin with a back
slash, the result leads to where the body does and has no component that could go; spellings with
superfluous components have one result; and the function leaves its result as it is, but for white
space that a removed component was in front of, or for a URL of which nothing is left. -/
theorem ddSimplifyFnameC_spec (s : CString) :
    ∃ t r, clean (s.drop (urlPrefix s)) = some t ∧
      ddSimplifyFnameC s = some (s.take (urlPrefix s) ++ r) ∧
      (t.head? ≠ some '\\' →
        (∀ (D : Type) (W : Walk D) (d : D), W.locate (parse r) d = W.locate (spelled t) d) ∧
        (parse r).Normal ∧
        ((∀ c ∈ r.head?, isBlank c = false) → (r = [] → urlPrefix s = 0) →
          ddSimplifyFnameC (s.take (urlPrefix s) ++ r) = some (s.take (urlPrefix s) ++ r)) ∧
        ∀ s' t', clean (s'.drop (urlPrefix s')) = some t' → t'.head? ≠ some '\\' →
          Relation.EqvGen Respelled (spelled t) (spelled t') →
          ddSimplifyFnameC s' = some (s'.take (urlPrefix s') ++ r)) := by
  obtain ⟨t, ht, htidy⟩ := clean_tidy (s.drop (urlPrefix s))
  have hrun : ∀ s' t' r', clean (s'.drop (urlPrefix s')) = some t' → passes t' = some r' →
      ddSimplifyFnameC s' = some (s'.take (urlPrefix s') ++ r') := by
    intro s' t' r' hclean hpasses
    rw [ddSimplifyFnameC, hclean]
    show (passes t' >>= _) = _
    rw [hpasses]
    rfl
  -- nothing is promised of a path that keeps a back slash in front
  by_cases hback : t.head? = some '\\'
  · exact ⟨t, _, ht, hrun s t _ ht (passes_eq t), fun h => absurd hback h⟩
  refine ⟨t, result t, ht, hrun s t _ ht (passes_result hback), fun _ => ⟨?_, ?_, ?_, ?_⟩⟩
  · intro D W d
    rw [parse_result]
    exact locate_simplified W (spelled t) d
  · rw [parse_result]
    exact simplified_normal (spelled t)
  · intro hhead hurl
    have hclean : clean (result t) = some (result t) := (result_tidy htidy hhead).clean
    have hpasses : passes (result t) = some (result t) := by
      rw [passes_result (head_result_ne t), result_result]
    -- without a URL prefix, and with one
    rcases urlPrefix_cases s with hzero | ⟨semi, hsemi⟩
    · rw [hzero, List.take_zero, List.nil_append]
      have hagain := hrun (result t) (result t) (result t)
      rw [urlPrefix_result, List.drop_zero] at hagain
      simpa using hagain hclean hpasses
    · have hne : result t ≠ [] := by
        intro hnil
        rw [hsemi.urlPrefix] at hurl
        cases hurl hnil
      have hagain := (hsemi.take_append hne).urlPrefix
      have hlen : (s.take (semi + 3)).length = semi + 3 := List.length_take_of_le hsemi.length.le
      rw [hsemi.urlPrefix]
      have hnext := hrun (s.take (semi + 3) ++ result t) (result t) (result t)
      rw [hagain, List.drop_left' hlen, List.take_left' hlen] at hnext
      exact hnext hclean hpasses
  · intro s' t' ht' hback' heqv
    have hsame : result t' = result t := congrArg Path.text (simplified_eqv heqv).symm
    exact hrun s' t' _ ht' (hsame ▸ passes_result hback')

/-- `b/a/..` becomes `b/`: its last component is empty, and it is not what `b` becomes. -/
theorem lastComponent_stays :
    ddSimplifyFnameC ['b', '/', 'a', '/', '.', '.'] = some ['b', '/'] ∧
      parse ['b', '/'] = ⟨[(['b'], .slash)], []⟩ ∧ ddSimplifyFnameC ['b'] = some ['b'] := by
  decide

end Quirrel.PathName
