import Mathlib.Data.List.Chain
import Quirrel.PathName.Passes

/-!
# What a path denotes

A `Walk` is any way to go through directories in which the parent of what a name leads to is where
the name was used: the lexical reading of `..`. Simplified paths lead to the same place as before
(`locate_simplified`) and are `Normal`, and a normal path is its own simplification.
-/

set_option autoImplicit false

namespace Quirrel.PathName

/-- `D` is where one can be. -/
structure Walk (D : Type) where
  root : D → D
  drive : CString → D → D
  enter : CString → D → D
  parent : D → D
  parent_enter : ∀ x d, parent (enter x d) = d

variable {D : Type} (W : Walk D)

namespace Walk

/-- The step of a component that no colon follows. -/
def name (x : CString) (d : D) : D :=
  if x = [] ∨ x = ['.'] then d else if x = upName then W.parent d else W.enter x d

/-- An empty component is the root, except behind a slash. -/
def visit (afterSlash : Bool) (c : Component) (d : D) : D :=
  match c.2 with
  | .colon => W.drive c.1 d
  | .slash => if c.1 = [] ∧ !afterSlash then W.root d else W.name c.1 d

/-- Whether a slash was the last delimiter, and where the components have led to. -/
def step (s : Bool × D) (c : Component) : Bool × D := (c.2 = .slash, W.visit s.1 c s.2)

/-- What a path leads to from a directory. -/
def locate (q : Path) (d : D) : D := W.name q.last (q.closed.foldl W.step (false, d)).2

end Walk

/-! ## Empty components -/

/-- The component in front of a first slash. -/
def emptyComponent : Component := ([], .slash)

/-- No empty component behind a slash. -/
def NoEmpty (c c' : Component) : Prop := c.2 = .slash → c' ≠ emptyComponent

/-- The same for the first of some components. -/
def Begins (afterSlash : Bool) (cs : List Component) : Prop :=
  afterSlash = true → ∀ c ∈ cs.head?, c ≠ emptyComponent

theorem squeeze_noEmpty (afterSlash : Bool) (cs : List Component) :
    (squeeze afterSlash cs).IsChain NoEmpty ∧ Begins afterSlash (squeeze afterSlash cs) := by
  induction cs generalizing afterSlash with
  | nil => exact ⟨.nil, fun _ _ h => by cases h⟩
  | cons c cs ih =>
    rw [squeeze]
    split
    · exact ih afterSlash
    · rename_i hkeep
      obtain ⟨hchain, hbegins⟩ := ih (c.2 = .slash)
      refine ⟨List.isChain_cons.mpr ⟨fun c' hc' hslash => hbegins (by simpa using hslash) c' hc', hchain⟩, ?_⟩
      rintro hafter _ ⟨⟩ hempty
      exact hkeep ⟨hafter, hempty⟩

theorem squeeze_of_noEmpty {cs : List Component} {afterSlash : Bool} (h : cs.IsChain NoEmpty)
    (hb : Begins afterSlash cs) : squeeze afterSlash cs = cs := by
  induction cs generalizing afterSlash with
  | nil => rfl
  | cons c cs ih =>
    obtain ⟨hhead, hrest⟩ := List.isChain_cons.mp h
    rw [squeeze, if_neg (fun hc => hb hc.1 c rfl hc.2),
      ih hrest (fun hslash c' hc' => hhead c' hc' (by simpa using hslash))]

theorem foldl_squeeze (cs : List Component) (s : Bool × D) :
    ((squeeze s.1 cs).foldl W.step s).2 = (cs.foldl W.step s).2 := by
  induction cs generalizing s with
  | nil => rfl
  | cons c cs ih =>
    rw [squeeze]
    split
    · rename_i hdrop
      obtain ⟨hafter, hc⟩ := hdrop
      have hstep : W.step s c = s := by
        subst hc
        refine Prod.ext hafter.symm ?_
        simp [Walk.step, Walk.visit, Walk.name, hafter]
      rw [List.foldl_cons, hstep, ih]
    · rw [List.foldl_cons, List.foldl_cons]
      exact ih (W.step s c)

/-! ## Current directories -/

variable {W} in
/-- What a slash was before does not matter where no empty component comes next. -/
theorem foldl_begins {cs : List Component} (h : Begins true cs) (b b' : Bool) (d : D) :
    (cs.foldl W.step (b, d)).2 = (cs.foldl W.step (b', d)).2 := by
  cases cs with
  | nil => rfl
  | cons c cs =>
    have hc : c ≠ emptyComponent := h rfl c rfl
    have hstep : W.step (b, d) c = W.step (b', d) c := by
      obtain ⟨x, δ⟩ := c
      cases δ with
      | colon => rfl
      | slash =>
        have hx : x ≠ [] := by
          rintro rfl
          exact hc rfl
        simp [Walk.step, Walk.visit, hx]
    rw [List.foldl_cons, List.foldl_cons, hstep]

theorem filter_noEmpty {cs : List Component} {afterSlash : Bool} (h : cs.IsChain NoEmpty)
    (hb : Begins afterSlash cs) :
    (cs.filter (· ≠ curDir)).IsChain NoEmpty ∧ Begins afterSlash (cs.filter (· ≠ curDir)) := by
  induction cs generalizing afterSlash with
  | nil => exact ⟨h, hb⟩
  | cons c cs ih =>
    obtain ⟨hhead, hrest⟩ := List.isChain_cons.mp h
    by_cases hc : c = curDir
    · rw [List.filter_cons_of_neg (by simpa using hc)]
      exact ih hrest fun _ c' hc' => hhead c' hc' (hc ▸ rfl)
    · rw [List.filter_cons_of_pos (by simpa using hc)]
      have hnext : Begins (c.2 = .slash) cs :=
        fun hslash c' hc' => hhead c' hc' (by simpa using hslash)
      obtain ⟨hchain, hbegins⟩ := ih hrest hnext
      refine ⟨List.isChain_cons.mpr ⟨fun c' hc' hslash => hbegins (by simpa using hslash) c' hc', hchain⟩, ?_⟩
      rintro hafter _ ⟨⟩
      exact hb hafter c rfl

theorem foldl_filter {cs : List Component} {b : Bool} (h : cs.IsChain NoEmpty) (hb : Begins b cs)
    (d : D) :
    ((cs.filter (· ≠ curDir)).foldl W.step (b, d)).2 = (cs.foldl W.step (b, d)).2 := by
  induction cs generalizing b d with
  | nil => rfl
  | cons c cs ih =>
    obtain ⟨hhead, hrest⟩ := List.isChain_cons.mp h
    by_cases hc : c = curDir
    · have hbegins : Begins true cs := fun _ c' hc' => hhead c' hc' (hc ▸ rfl)
      have hstep : W.step (b, d) c = (true, d) := by
        subst hc
        simp [Walk.step, Walk.visit, Walk.name, curDir]
      rw [List.filter_cons_of_neg (by simpa using hc), List.foldl_cons, hstep,
        foldl_begins hbegins true b, ih hrest fun _ => hbegins rfl]
    · rw [List.filter_cons_of_pos (by simpa using hc), List.foldl_cons, List.foldl_cons]
      exact ih hrest (fun hslash c' hc' => hhead c' hc' (by simpa using hslash)) _

/-- A single dot and no name at all lead to the same place. -/
theorem name_dropLast (x : CString) (d : D) : W.name (dropLast x) d = W.name x d := by
  unfold dropLast
  split
  · rename_i h
    simp [Walk.name, h]
  · rfl

theorem locate_undot {q : Path} (h : q.closed.IsChain NoEmpty) (d : D) :
    W.locate q.undot d = W.locate q d := by
  have hfold := foldl_filter W (b := false) h nofun d
  show W.name (if _ then q.last else dropLast q.last)
    ((q.closed.filter (· ≠ curDir)).foldl W.step (false, d)).2 = _
  rw [hfold]
  split
  · rfl
  · exact name_dropLast W _ _

/-! ## Parent directories -/

/-- A component and the next one in a simplified path: nothing empty and no `..` behind a name. -/
def Fits (c c' : Component) : Prop :=
  NoEmpty c c' ∧ (c.2 = .slash → c' = (upName, .slash) → c.1 = [] ∨ c.1 = upName)

/-- No component can be left out, but the last one may be empty: a slash at the end stays. -/
structure Path.Normal (q : Path) : Prop where
  chain : q.closed.IsChain Fits
  noDot : curDir ∉ q.closed
  lastDot : q.last = ['.'] → q.closed = []
  lastUp : q.last = upName → ∀ c ∈ q.closed.getLast?, c.2 = .slash → c.1 = [] ∨ c.1 = upName

theorem climbable_cases {out : List Component} (h : climbable out = true) :
    ∃ y rest, out = (y, .slash) :: rest ∧ y ≠ [] ∧ y ≠ upName := by
  match out, h with
  | (y, .slash) :: rest, h =>
    have hy : y ≠ [] ∧ y ≠ upName := by simpa [climbable] using h
    exact ⟨y, rest, rfl, hy⟩

theorem not_climbable {c : Component} {out : List Component} (h : climbable (c :: out) = false)
    (hslash : c.2 = .slash) : c.1 = [] ∨ c.1 = upName := by
  obtain ⟨y, d⟩ := c
  obtain rfl : d = .slash := hslash
  by_contra hne
  rw [not_or] at hne
  simp [climbable, hne.1, hne.2] at h

/-- A name and the `..` behind it lead to where the name was used. -/
theorem step_up {y : CString} (hy : y ≠ []) (hdot : (y, Delim.slash) ≠ curDir) (hup : y ≠ upName)
    (s : Bool × D) : W.name upName (W.step s (y, .slash)).2 = s.2 := by
  have hdot' : y ≠ ['.'] := by
    rintro rfl
    exact hdot rfl
  have henter : (W.step s (y, .slash)).2 = W.enter y s.2 := by
    simp [Walk.step, Walk.visit, Walk.name, hy, hdot', hup]
  rw [henter, Walk.name, if_neg (by simp [upName]), if_pos rfl, W.parent_enter]

/-- Without a name and the `..` behind it no empty component comes behind a slash. -/
theorem noEmpty_up {a b : List Component} {c : Component}
    (h : (a ++ c :: (upName, .slash) :: b).IsChain NoEmpty) :
    (a ++ b).IsChain NoEmpty ∧ Begins true b := by
  obtain ⟨ha, hrest, -⟩ := List.isChain_append.mp h
  obtain ⟨-, hrest⟩ := List.isChain_cons.mp hrest
  obtain ⟨hhead, hb⟩ := List.isChain_cons.mp hrest
  refine ⟨List.isChain_append.mpr ⟨ha, hb, fun x _ y hy _ => ?_⟩, fun _ y hy => ?_⟩
  · exact hhead y hy rfl
  · exact hhead y hy rfl

theorem foldl_up {a b : List Component} {y : CString} (hy : y ≠ [])
    (hdot : (y, Delim.slash) ≠ curDir) (hup : y ≠ upName) (hb : Begins true b) (s : Bool × D) :
    ((a ++ (y, .slash) :: (upName, .slash) :: b).foldl W.step s).2 = ((a ++ b).foldl W.step s).2 := by
  rw [List.foldl_append, List.foldl_cons, List.foldl_cons, List.foldl_append]
  have hstep : W.step (W.step (a.foldl W.step s) (y, .slash)) (upName, .slash) =
      (true, (a.foldl W.step s).2) := by
    refine Prod.ext rfl ?_
    exact step_up W hy hdot hup (a.foldl W.step s)
  rw [hstep]
  exact foldl_begins hb _ _ _

theorem locate_climb {out cs : List Component} (h : (out.reverse ++ cs).IsChain NoEmpty)
    (hdot : curDir ∉ out) (last : CString) (hcs : curDir ∉ cs) (d : D) :
    W.locate (climb out cs last) d =
      W.name last ((out.reverse ++ cs).foldl W.step (false, d)).2 := by
  induction cs generalizing out with
  | nil =>
    rw [climb, List.append_nil]
    split
    · rename_i hup
      obtain ⟨rfl, hclimb⟩ := hup
      obtain ⟨y, rest, rfl, hy, hy'⟩ := climbable_cases hclimb
      have hyd : (y, Delim.slash) ≠ curDir := fun heq => hdot (heq ▸ List.mem_cons_self)
      rw [List.reverse_cons, List.foldl_append, List.foldl_cons, List.foldl_nil,
        step_up W hy hyd hy']
      rfl
    · rfl
  | cons c cs ih =>
    obtain ⟨hc, hrest⟩ := List.ne_and_not_mem_of_not_mem_cons hcs
    rw [climb]
    split
    · rename_i hup
      obtain ⟨rfl, hclimb⟩ := hup
      obtain ⟨y, rest, rfl, hy, hy'⟩ := climbable_cases hclimb
      have hyd : (y, Delim.slash) ≠ curDir := fun heq => hdot (heq ▸ List.mem_cons_self)
      have hshape : ((y, Delim.slash) :: rest).reverse ++ (upName, Delim.slash) :: cs =
          rest.reverse ++ (y, Delim.slash) :: (upName, Delim.slash) :: cs := by simp
      rw [hshape] at h ⊢
      obtain ⟨hchain, hbegins⟩ := noEmpty_up h
      rw [foldl_up W hy hyd hy' hbegins]
      exact ih hchain (fun hmem => hdot (List.mem_cons_of_mem _ hmem)) hrest
    · rw [ih (by simpa using h) (List.not_mem_cons_of_ne_of_not_mem hc hdot) hrest]
      simp

theorem climb_fits {out cs : List Component} (h : (out.reverse ++ cs).IsChain NoEmpty)
    (hout : out.reverse.IsChain Fits) (last : CString) :
    (climb out cs last).closed.IsChain Fits ∧
      ((climb out cs last).last = upName → ∀ c ∈ (climb out cs last).closed.getLast?,
        c.2 = .slash → c.1 = [] ∨ c.1 = upName) := by
  induction cs generalizing out with
  | nil =>
    rw [climb]
    split
    · rename_i hup
      obtain ⟨y, rest, rfl, -⟩ := climbable_cases hup.2
      rw [List.reverse_cons] at hout
      exact ⟨hout.left_of_append, fun hlast => by cases hlast⟩
    · rename_i hup
      refine ⟨hout, fun hlast c hc hslash => ?_⟩
      cases out with
      | nil => cases hc
      | cons c' rest =>
        obtain rfl : c' = c := by simpa using hc
        have hno : climbable (c' :: rest) = false := by simpa [show last = upName from hlast] using hup
        exact not_climbable hno hslash
  | cons c cs ih =>
    rw [climb]
    -- a component that climbs takes the top away, any other one goes on top
    split
    · rename_i hup
      obtain ⟨rfl, hclimb⟩ := hup
      obtain ⟨y, rest, rfl, -⟩ := climbable_cases hclimb
      rw [List.reverse_cons] at hout
      have hshape : ((y, Delim.slash) :: rest).reverse ++ (upName, Delim.slash) :: cs =
          rest.reverse ++ (y, Delim.slash) :: (upName, Delim.slash) :: cs := by simp
      rw [hshape] at h
      exact ih (noEmpty_up h).1 hout.left_of_append
    · rename_i hup
      refine ih (by simpa using h) ?_
      rw [List.reverse_cons]
      refine List.isChain_append.mpr ⟨hout, .singleton _, ?_⟩
      rintro c₀ hc₀ _ ⟨⟩
      refine ⟨(List.isChain_append.mp h).2.2 c₀ hc₀ c rfl, fun hslash hc => ?_⟩
      cases out with
      | nil => cases hc₀
      | cons c' rest =>
        obtain rfl : c' = c₀ := by simpa using hc₀
        exact not_climbable (by simpa [hc] using hup) hslash

theorem climb_sublist (out cs : List Component) (last : CString) :
    (climb out cs last).closed.Sublist (out.reverse ++ cs) ∧
      ((climb out cs last).last = [] ∨ (climb out cs last).last = last) := by
  induction cs generalizing out with
  | nil =>
    rw [climb, List.append_nil]
    split
    · exact ⟨(List.tail_sublist out).reverse, Or.inl rfl⟩
    · exact ⟨List.Sublist.refl _, Or.inr rfl⟩
  | cons c cs ih =>
    rw [climb]
    split
    · obtain ⟨hsub, hlast⟩ := ih out.tail
      refine ⟨hsub.trans ?_, hlast⟩
      exact ((List.tail_sublist out).reverse).append (List.sublist_cons_self c cs)
    · obtain ⟨hsub, hlast⟩ := ih (c :: out)
      exact ⟨by simpa using hsub, hlast⟩

/-- Where everything fits, the loop takes nothing away. -/
theorem climb_of_fits {out cs : List Component} {last : CString}
    (h : (out.reverse ++ cs).IsChain Fits)
    (hlast : last = upName → ∀ c ∈ (out.reverse ++ cs).getLast?, c.2 = .slash → c.1 = [] ∨ c.1 = upName) :
    climb out cs last = ⟨out.reverse ++ cs, last⟩ := by
  induction cs generalizing out with
  | nil =>
    rw [climb, if_neg, List.append_nil]
    rintro ⟨rfl, hclimb⟩
    obtain ⟨y, rest, rfl, hy, hy'⟩ := climbable_cases hclimb
    rcases hlast rfl (y, .slash) (by simp) rfl with h | h
    · exact hy h
    · exact hy' h
  | cons c cs ih =>
    rw [climb, if_neg, ih (by simpa using h) (by simpa using hlast)]
    · simp
    · rintro ⟨rfl, hclimb⟩
      obtain ⟨y, rest, rfl, hy, hy'⟩ := climbable_cases hclimb
      have hfit := (List.isChain_append.mp h).2.2 (y, .slash) (by simp) (upName, .slash) rfl
      rcases hfit.2 rfl rfl with h | h
      · exact hy h
      · exact hy' h

/-! ## Simplified paths -/

theorem undot_noEmpty (q : Path) : q.squeezed.undot.closed.IsChain NoEmpty := by
  obtain ⟨hchain, hbegins⟩ := squeeze_noEmpty false q.closed
  exact (filter_noEmpty hchain hbegins).1

theorem curDir_not_mem_undot (q : Path) : curDir ∉ q.undot.closed := fun h => by
  have := (List.mem_filter.mp h).2
  simp at this

/-- The passes do not change where a path leads to. -/
theorem locate_simplified (q : Path) (d : D) : W.locate q.simplified d = W.locate q d := by
  have hclimb := @locate_climb D W [] _ (undot_noEmpty q) nofun q.squeezed.undot.last
    (curDir_not_mem_undot _) d
  have hundot := locate_undot W (q := q.squeezed) (squeeze_noEmpty false q.closed).1 d
  have hsqueeze : W.locate q.squeezed d = W.locate q d :=
    congrArg (W.name q.last) (foldl_squeeze W q.closed (false, d))
  calc W.locate q.simplified d
      = W.locate q.squeezed.undot d := hclimb
    _ = W.locate q.squeezed d := hundot
    _ = W.locate q d := hsqueeze

/-- The last component is dropped for a dot, and that only behind others. -/
theorem undot_last (q : Path) :
    (q.undot.last = [] ∨ q.undot.last = q.last) ∧ (q.undot.last = ['.'] → q.undot.closed = []) := by
  have hlast : q.undot.last = if q.undot.closed = [] then q.last else dropLast q.last := rfl
  rw [hlast]
  split
  · exact ⟨Or.inr rfl, fun _ => ‹_›⟩
  · unfold dropLast
    split
    · exact ⟨Or.inl rfl, nofun⟩
    · exact ⟨Or.inr rfl, fun h => absurd h ‹_›⟩

theorem simplified_sublist (q : Path) :
    q.simplified.closed.Sublist q.closed ∧ (q.simplified.last = [] ∨ q.simplified.last = q.last) := by
  obtain ⟨hclimb, hlast⟩ := climb_sublist [] q.squeezed.undot.closed q.squeezed.undot.last
  refine ⟨(hclimb.trans List.filter_sublist).trans (squeeze_sublist _ _), ?_⟩
  rcases hlast with h | h
  · exact Or.inl h
  · exact (undot_last q.squeezed).1.imp h.trans h.trans

theorem simplified_normal (q : Path) : q.simplified.Normal := by
  obtain ⟨hchain, hup⟩ := @climb_fits [] _ (undot_noEmpty q) .nil q.squeezed.undot.last
  obtain ⟨hsub, hlast⟩ := climb_sublist [] q.squeezed.undot.closed q.squeezed.undot.last
  refine ⟨hchain, fun h => curDir_not_mem_undot _ (hsub.mem h), fun hdot => ?_, hup⟩
  -- a dot is left only where nothing was before it
  have hundot : q.squeezed.undot.last = ['.'] := by
    rcases hlast with h | h
    · cases h.symm.trans hdot
    · exact h.symm.trans hdot
  have hnil : q.squeezed.undot.closed = [] := (undot_last q.squeezed).2 hundot
  rw [hnil] at hsub
  show (climb [] q.squeezed.undot.closed q.squeezed.undot.last).closed = []
  rw [hnil]
  exact List.sublist_nil.mp hsub

/-- A normal path is its own simplification. -/
theorem simplified_of_normal {q : Path} (h : q.Normal) : q.simplified = q := by
  obtain ⟨cs, last⟩ := q
  have hsqueeze : squeeze false cs = cs :=
    squeeze_of_noEmpty (h.chain.imp fun _ _ hfit => hfit.1) nofun
  have hfilter : cs.filter (· ≠ curDir) = cs :=
    List.filter_eq_self.mpr fun c hc => by
      have : c ≠ curDir := fun heq => h.noDot (heq ▸ hc)
      simpa using this
  have hundot : Path.undot ⟨cs, last⟩ = ⟨cs, last⟩ := by
    rw [Path.undot]
    dsimp only
    rw [hfilter]
    split
    · rfl
    · rename_i hne
      have hkeep : dropLast last = last := if_neg fun hdot => hne (h.lastDot hdot)
      rw [hkeep]
  show climb [] (Path.undot ⟨squeeze false cs, last⟩).closed (Path.undot ⟨squeeze false cs, last⟩).last = _
  rw [hsqueeze, hundot]
  exact climb_of_fits h.chain h.lastUp

end Quirrel.PathName
