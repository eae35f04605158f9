import MarkupQuery.Proofs.Query.Pieces
import MarkupQuery.Proofs.Query.Steps
import MarkupQuery.Proofs.Text.Words

namespace MarkupQuery.Query

open MarkupQuery.Text MarkupQuery.Page

variable {s r t : List Char} {e : Expr} {steps : List Step}

/-- Steps that a text consists of are read in front of any text that they may stop at. -/
theorem slashSteps_append (hs : slashSteps expression s = some (steps, [])) (ht : Stops t) :
    ∃ r, (r = t ∨ r = skipSpace t) ∧ slashSteps expression (s ++ t) =
      (slashSteps expression r).map fun found => (steps ++ found.1, found.2) := by
  obtain ⟨lists, hlists, rfl⟩ := map_eq_some.mp hs
  obtain ⟨c, hc, hcrossed⟩ := exists_crossed_of_many hlists
  rw [List.append_nil] at hc
  subst hc
  have hcut : Cut [] t (inside 0) s (s ++ t) :=
    ⟨s, [], t, (List.append_nil s).symm, rfl, .inl rfl, .inl rfl, hcrossed⟩
  obtain ⟨r, ⟨d, v, v', hv, rfl, -, hv', -⟩, hmany⟩ :=
    many_slashStep_cut branchEnd_nil.endsPath ht hcut hlists
  obtain ⟨rfl, -⟩ := List.append_eq_nil_iff.mp hv.symm
  refine ⟨v', hv', ?_⟩
  rw [slashSteps, Reader.map, hmany, List.nil_append]
  cases h : Reader.many (slashStep expression) v' <;> simp [Reader.map, h]

theorem slashSteps_of_branchEnd (ht : BranchEnd t) : slashSteps expression t = some ([], t) :=
  slashSteps_of_none (slashStep_of_no_slash (head_ne_of_skipSpace ht.endsPath.2))

theorem branchEnd_tail (ht : BranchEnd t) (h : r = t ∨ r = skipSpace t) : BranchEnd r := by
  rwa [BranchEnd, skipSpace_eq_of_tail h]

/-- Steps that a text consists of are all steps of a branch that it ends. -/
theorem slashSteps_append_end (hs : slashSteps expression s = some (steps, []))
    (ht : BranchEnd t) :
    ∃ r, (r = t ∨ r = skipSpace t) ∧ slashSteps expression (s ++ t) = some (steps, r) := by
  obtain ⟨r, hr, happend⟩ := slashSteps_append hs ht.stops
  refine ⟨r, hr, ?_⟩
  rw [happend, slashSteps_of_branchEnd (branchEnd_tail ht hr), Option.map_some, List.append_nil]

theorem skipSpace_of_slash (ht : t.head? = some '/') : skipSpace t = t := by
  obtain ⟨t, rfl⟩ := List.head?_eq_some_iff.mp ht
  rfl

theorem stops_of_slash (ht : t.head? = some '/') : Stops t := by
  intro c hc
  rw [skipSpace_of_slash ht, ht] at hc
  exact .inr (.inl (Option.some.inj hc).symm)

theorem slashSteps_append_slash (hs : slashSteps expression s = some (steps, []))
    (ht : t.head? = some '/') : slashSteps expression (s ++ t) =
      (slashSteps expression t).map fun found => (steps ++ found.1, found.2) := by
  have hskip := skipSpace_of_slash ht
  obtain ⟨r, hr, happend⟩ := slashSteps_append hs (stops_of_slash ht)
  obtain rfl : r = t := by rcases hr with rfl | rfl <;> simp [hskip]
  exact happend

/-- Blanks at the end of steps may be left out. -/
theorem slashSteps_trimEnd (hs : slashSteps expression s = some (steps, [])) :
    slashSteps expression (trimEnd s) = some (steps, []) := by
  obtain ⟨lists, hlists, rfl⟩ := map_eq_some.mp hs
  obtain ⟨c, hc, hcrossed⟩ := exists_crossed_of_many hlists
  rw [List.append_nil] at hc
  subst hc
  obtain ⟨w, hw, hblank, -⟩ := exists_trimEnd s
  rw [hw] at hcrossed
  obtain ⟨htext, hspaces⟩ := crossed_of_append_blanks hblank hcrossed
  have htail : BranchEnd w := by
    have hskip := skipSpace_append_spaces hspaces []
    rw [List.append_nil] at hskip
    rw [BranchEnd, hskip]
    exact branchEnd_nil
  have hcut : Cut w [] (inside 0) s (trimEnd s) :=
    ⟨trimEnd s, w, [], hw, (List.append_nil _).symm, .inl rfl, .inl rfl, htext⟩
  obtain ⟨r, ⟨d, v, v', hv, rfl, -, hv', -⟩, hmany⟩ :=
    many_slashStep_cut htail.endsPath branchEnd_nil.stops hcut hlists
  obtain ⟨rfl, -⟩ := List.append_eq_nil_iff.mp hv.symm
  obtain rfl : v' = [] := by rcases hv' with rfl | rfl <;> rfl
  refine map_eq_some.mpr ⟨lists, ?_, rfl⟩
  rw [hmany]
  simp [many_of_none (slashStep_of_no_slash (s := []) (by simp))]

theorem absolutePath_of_two (s : List Char) : absolutePath expression ('/' :: '/' :: s) =
    Reader.map (fun (first, more) => Expr.absolute (Step.anywhereBelow :: first :: more))
      (Reader.both (step expression) (slashSteps expression)) s := rfl

theorem absolutePath_of_one (hs : s.head? ≠ some '/') : absolutePath expression ('/' :: s) =
    Reader.map (fun (first, more) => Expr.absolute (first.toList ++ more))
      (Reader.both (Reader.optional (step expression)) (slashSteps expression)) s := by
  have hchar : Reader.char '/' ('/' :: s) = some ((), s) := rfl
  rw [absolutePath, slashes_of_one hs]
  simp only [Reader.map]
  rw [both_of_some hchar, Option.map_map]
  rfl

/-- Steps behind slashes make an absolute path. -/
theorem absolutePath_of_slashSteps (hs : slashSteps expression s = some (steps, r))
    (hne : steps ≠ []) : absolutePath expression s = some (.absolute steps, r) := by
  obtain ⟨lists, hlists, rfl⟩ := map_eq_some.mp hs
  rcases strict_slashStep.many_iff.mp hlists with ⟨-, rfl, -⟩ | ⟨_, t, rest, hfirst, hrest, rfl⟩
  · exact absurd rfl hne
  · have hmore : slashSteps expression t = some (rest.flatten, r) :=
      map_eq_some.mpr ⟨rest, hrest, rfl⟩
    by_cases hslash : s.head? = some '/'
    · obtain ⟨s, rfl⟩ := List.head?_eq_some_iff.mp hslash
      by_cases htwo : s.head? = some '/'
      · obtain ⟨s, rfl⟩ := List.head?_eq_some_iff.mp htwo
        rw [slashStep_of_two] at hfirst
        obtain ⟨⟨first, u⟩, hread, he⟩ := Option.map_eq_some_iff.mp hfirst
        obtain ⟨rfl, rfl⟩ := Prod.mk.inj he
        rw [absolutePath_of_two]
        exact map_eq_some.mpr ⟨(first, rest.flatten), both_eq_some.mpr ⟨u, hread, hmore⟩, rfl⟩
      · rw [slashStep_of_one htwo] at hfirst
        obtain ⟨⟨first, u⟩, hread, he⟩ := Option.map_eq_some_iff.mp hfirst
        obtain ⟨rfl, rfl⟩ := Prod.mk.inj he
        have hoptional : Reader.optional (step expression) s = some (some first, u) := by
          simp [Reader.optional, hread]
        rw [absolutePath_of_one htwo]
        exact map_eq_some.mpr
          ⟨(some first, rest.flatten), both_eq_some.mpr ⟨u, hoptional, hmore⟩, rfl⟩
    · rw [slashStep_of_no_slash hslash] at hfirst
      simp at hfirst

theorem exists_mem_of_slashStep (h : slashStep expression s = some (steps, r)) :
    ∃ st, st ∈ steps := by
  obtain ⟨⟨between, st⟩, -, rfl⟩ := map_eq_some.mp h
  exact ⟨st, by simp⟩

/-- An absolute path is read as far as steps behind slashes go. -/
theorem absolutePath_end (h : absolutePath expression s = some (e, r)) :
    (∃ steps, e = .absolute steps) ∧ slashStep expression r = none := by
  unfold absolutePath at h
  split at h
  · obtain ⟨⟨first, more⟩, hboth, rfl⟩ := map_eq_some.mp h
    obtain ⟨t, -, hmore⟩ := both_eq_some.mp hboth
    obtain ⟨lists, hlists, -⟩ := map_eq_some.mp hmore
    exact ⟨⟨_, rfl⟩, strict_slashStep.none_of_many hlists⟩
  · obtain ⟨⟨slash, first, more⟩, hboth, rfl⟩ := map_eq_some.mp h
    obtain ⟨t, -, hrest⟩ := both_eq_some.mp hboth
    obtain ⟨u, -, hmore⟩ := both_eq_some.mp hrest
    obtain ⟨lists, hlists, -⟩ := map_eq_some.mp hmore
    exact ⟨⟨_, rfl⟩, strict_slashStep.none_of_many hlists⟩

/-- A text that begins with a slash but not with a step behind it is no path with steps. -/
theorem absolutePath_of_none (hs : slashStep expression s = none)
    (h : absolutePath expression s = some (.absolute steps, r)) : steps = [] := by
  by_cases hslash : s.head? = some '/'
  · obtain ⟨s, rfl⟩ := List.head?_eq_some_iff.mp hslash
    by_cases htwo : s.head? = some '/'
    · obtain ⟨s, rfl⟩ := List.head?_eq_some_iff.mp htwo
      rw [slashStep_of_two, Option.map_eq_none_iff] at hs
      rw [absolutePath_of_two] at h
      obtain ⟨⟨first, more⟩, hboth, -⟩ := map_eq_some.mp h
      obtain ⟨t, hfirst, -⟩ := both_eq_some.mp hboth
      simp [hs] at hfirst
    · rw [slashStep_of_one htwo, Option.map_eq_none_iff] at hs
      rw [absolutePath_of_one htwo] at h
      obtain ⟨⟨first, more⟩, hboth, he⟩ := map_eq_some.mp h
      obtain ⟨t, hfirst, hmore⟩ := both_eq_some.mp hboth
      rw [optional_of_none hs] at hfirst
      obtain ⟨rfl, rfl⟩ := Prod.mk.inj (Option.some.inj hfirst)
      rw [slashSteps_of_none (slashStep_of_no_slash htwo)] at hmore
      obtain ⟨rfl, -⟩ := Prod.mk.inj (Option.some.inj hmore)
      exact (Expr.absolute.inj he).symm
  · simp [absolutePath, slashes_of_no_slash hslash, Reader.map, Reader.both,
      char_of_head_ne hslash] at h

theorem primary_of_slash (hs : s.head? = some '/') : primary expression s = none := by
  refine primary_of_no_start (skipSpace_of_slash hs) ?_ expression
  obtain ⟨s, rfl⟩ := List.head?_eq_some_iff.mp hs
  rfl

/-- Steps behind slashes are a path from the document node. -/
theorem path_of_slashSteps (hs : slashSteps expression s = some (steps, r)) (hne : steps ≠ []) :
    path expression s = some (.absolute steps, r) := by
  have hread := absolutePath_of_slashSteps hs hne
  have hslash : s.head? = some '/' := by
    by_cases hslash : s.head? = some '/'
    · exact hslash
    · rw [slashSteps_of_none (slashStep_of_no_slash hslash)] at hs
      exact absurd (Prod.mk.inj (Option.some.inj hs)).1.symm hne
  refine path_of_locationPath (primary_of_slash hslash) ?_ (absolutePath_end hread).2
  rwa [locationPath_of_slash hslash]

theorem absolutePath_of_path (hslash : s.head? = some '/')
    (h : path expression s = some (e, r)) : absolutePath expression s = some (e, r) := by
  obtain ⟨e', more, rfl, ⟨t, hfiltered⟩ | ⟨t, hlocation, hmore⟩⟩ := path_cases h
  · simp [filtered, Reader.map, Reader.both, primary_of_slash hslash] at hfiltered
  · rw [locationPath_of_slash hslash] at hlocation
    rw [slashSteps_of_none (absolutePath_end hlocation).2] at hmore
    obtain ⟨rfl, rfl⟩ := Prod.mk.inj (Option.some.inj hmore)
    exact hlocation

/-- Conversely, a path from the document node is made of its steps behind slashes. -/
theorem slashSteps_of_path (hslash : s.head? = some '/') (hne : steps ≠ [])
    (h : path expression s = some (.absolute steps, r)) :
    slashSteps expression s = some (steps, r) := by
  have hstart := absolutePath_of_path hslash h
  cases hs : slashStep expression s with
  | none => exact absurd (absolutePath_of_none hs hstart) hne
  | some found =>
    obtain ⟨lists, u, hlists⟩ := exists_many (slashStep expression) s
    have hread : slashSteps expression s = some (lists.flatten, u) :=
      map_eq_some.mpr ⟨lists, hlists, rfl⟩
    have hflatten : lists.flatten ≠ [] := by
      obtain ⟨first, v⟩ := found
      rcases strict_slashStep.many_iff.mp hlists with ⟨hnone, -⟩ | ⟨_, _, rest, hfirst, -, rfl⟩
      · simp [hs] at hnone
      · obtain ⟨x, hx⟩ := exists_mem_of_slashStep hfirst
        exact List.ne_nil_of_mem (List.mem_flatten.mpr ⟨_, List.mem_cons_self, hx⟩)
    have hagain := absolutePath_of_slashSteps hread hflatten
    rw [hstart] at hagain
    obtain ⟨he, rfl⟩ := Prod.mk.inj (Option.some.inj hagain)
    rw [hread, Expr.absolute.inj he]

/-- The only text for the document node itself is the slash. -/
theorem eq_slash_of_path (hslash : s.head? = some '/')
    (h : path expression s = some (.absolute [], [])) : s = ['/'] := by
  have hstart := absolutePath_of_path hslash h
  obtain ⟨s, rfl⟩ := List.head?_eq_some_iff.mp hslash
  by_cases htwo : s.head? = some '/'
  · obtain ⟨s, rfl⟩ := List.head?_eq_some_iff.mp htwo
    rw [absolutePath_of_two] at hstart
    obtain ⟨_, -, he⟩ := map_eq_some.mp hstart
    cases he
  · rw [absolutePath_of_one htwo] at hstart
    obtain ⟨⟨first, more⟩, hboth, he⟩ := map_eq_some.mp hstart
    obtain ⟨t, hfirst, hmore⟩ := both_eq_some.mp hboth
    obtain ⟨hnone, -⟩ := List.append_eq_nil_iff.mp (Expr.absolute.inj he)
    unfold Reader.optional at hfirst
    split at hfirst
    · obtain ⟨rfl, -⟩ := Prod.mk.inj (Option.some.inj hfirst)
      cases hnone
    · obtain ⟨-, rfl⟩ := Prod.mk.inj (Option.some.inj hfirst)
      rw [slashSteps_of_none (slashStep_of_no_slash htwo)] at hmore
      rw [(Prod.mk.inj (Option.some.inj hmore)).2]

theorem predicate_of_head_ne (h : (skipSpace s).head? ≠ some '[') (nested : Reader Expr) :
    predicate nested s = none := by
  simp [predicate, Reader.map, Reader.both, spaced_char_of_head_ne h]

theorem Stops.head_ne {x : Char} (h : Stops s) (hx : isStop x = false) : s.head? ≠ some x := by
  intro hhead
  obtain ⟨r, rfl⟩ := List.head?_eq_some_iff.mp hhead
  simp [isStop_of_stops h] at hx

theorem Stops.predicate (h : Stops s) (nested : Reader Expr) :
    Query.predicate nested s = none := by
  refine predicate_of_head_ne (fun hopen => ?_) nested
  rcases h '[' hopen with hc | hc | hc | hc
  · exact absurd hc (by decide)
  · exact absurd hc (by decide)
  · exact absurd hc (by decide)
  · exact absurd hc (by decide)

/-- A point in front of a place where texts stop is a step. -/
theorem step_point (h : Stops s) : step expression ('.' :: s) = some (Step.here, s) := by
  have htwo : Reader.word ".." ('.' :: s) = none := by
    cases s with
    | nil => rfl
    | cons c s =>
      have hc : '.' ≠ c := by simpa [eq_comm] using h.head_ne (x := '.') (by decide)
      simp [Reader.word, afterStart?, hc]
  have hone : Reader.word "." ('.' :: s) = some ((), s) := rfl
  have hhead : stepHead ('.' :: s) = some ((.self, .type .node), s) := by
    simp [stepHead, Reader.orElse, Reader.map, htwo, hone]
  exact map_eq_some.mpr ⟨((.self, .type .node), []),
    both_eq_some.mpr ⟨s, hhead, many_of_none (h.predicate expression)⟩, rfl⟩

theorem primary_of_point (h : Stops s) : primary expression ('.' :: s) = none := by
  refine primary_of_no_start rfl ?_ expression
  cases s with
  | nil => rfl
  | cons c s =>
    have hdigit : c.isDigit = false := by
      cases hc : c.isDigit with
      | false => rfl
      | true => exact absurd h (not_stops_of_passes (passes_of_isDigit hc 0))
    simpa [startsPrimary] using hdigit

theorem path_of_point (h : Stops s) (hs : slashSteps expression s = some (steps, r)) :
    path expression ('.' :: s) = some (.relative (Step.here :: steps), r) := by
  obtain ⟨lists, hlists, rfl⟩ := map_eq_some.mp hs
  refine path_of_locationPath (primary_of_point h) ?_ (strict_slashStep.none_of_many hlists)
  rw [locationPath_of_no_slash (by simp)]
  exact relativePath_iff.mpr ⟨Step.here, s, lists, step_point h, hlists, rfl⟩

/-- A text that the steps of a path can be put behind, and the path that they make with it. -/
structure Heads (head : List Char) (make : List Step → Expr) : Prop where
  reads : ∀ {s steps r}, BranchEnd s ∨ s.head? = some '/' →
    slashSteps expression s = some (steps, r) →
    ∃ r', (r' = r ∨ r' = skipSpace r) ∧ path expression (head ++ s) = some (make steps, r')
  trimmed : path expression (trimEnd head) = some (make [], [])
  first : head.head? = some '/' ∨ head.head? = some '.'

/-- The text of an absolute path. -/
theorem heads_of_path {head : List Char} (hhead : head.head? = some '/') (hne : steps ≠ [])
    (h : path expression head = some (.absolute steps, [])) :
    Heads head fun more => .absolute (steps ++ more) where
  reads := by
    intro s more r hs hmore
    have hsteps := slashSteps_of_path hhead hne h
    rcases hs with hs | hs
    · obtain ⟨r', hr', hread⟩ := slashSteps_append_end hsteps hs
      rw [slashSteps_of_branchEnd hs] at hmore
      obtain ⟨rfl, rfl⟩ := Prod.mk.inj (Option.some.inj hmore)
      rw [List.append_nil]
      exact ⟨r', hr', path_of_slashSteps hread hne⟩
    · refine ⟨r, .inl rfl, path_of_slashSteps ?_ (by simp [hne])⟩
      rw [slashSteps_append_slash hsteps hs, hmore]
      rfl
  trimmed := by
    rw [List.append_nil]
    exact path_of_slashSteps (slashSteps_trimEnd (slashSteps_of_path hhead hne h)) hne
  first := .inl hhead

/-- The point for the context node. -/
theorem heads_point : Heads ['.'] fun more => .relative (Step.here :: more) where
  reads := by
    intro s more r hs hmore
    have hstops : Stops s := by
      rcases hs with hs | hs
      · exact hs.stops
      · exact stops_of_slash hs
    exact ⟨r, .inl rfl, path_of_point hstops hmore⟩
  trimmed := path_of_point branchEnd_nil.stops (slashSteps_of_branchEnd branchEnd_nil)
  first := .inr rfl

/-!
### Paths with bars between them

If every path can be read in front of a bar, the whole text is parsed as their union.
-/

def Begins (s : List Char) : Prop := s.head? = some '/' ∨ s.head? = some '.'

theorem begins_append {s : List Char} (h : Begins s) (t : List Char) : Begins (s ++ t) := by
  rcases h with h | h <;> obtain ⟨s, rfl⟩ := List.head?_eq_some_iff.mp h
  · exact .inl rfl
  · exact .inr rfl

theorem Begins.head_not_blank {s : List Char} (h : Begins s) :
    ∀ x ∈ s.head?, isBlank x = false := by
  rintro x hx
  rcases h with h | h <;> rw [h] at hx <;> obtain rfl := Option.some.inj hx <;> decide

theorem begins_trimEnd {s : List Char} (h : Begins s) : Begins (trimEnd s) := by
  rwa [Begins, head_trimEnd h.head_not_blank]

theorem Begins.ne_nil {s : List Char} (h : Begins s) : s ≠ [] := by
  rintro rfl
  rcases h with h | h <;> simp at h

theorem skipSpace_of_begins {s : List Char} (h : Begins s) : skipSpace s = s := by
  rcases h with h | h <;> obtain ⟨s, rfl⟩ := List.head?_eq_some_iff.mp h <;> rfl

structure Operand (text : List Char) (e : Expr) : Prop where
  begins : Begins text
  reads : ∀ t, BranchEnd t → ∃ r, skipSpace r = skipSpace t ∧
    path expression (text ++ t) = some (e, r)
  trimmed : path expression (trimEnd text) = some (e, [])

theorem begins_joined {texts : List (List Char)} {es : List Expr}
    (h : List.Forall₂ Operand texts es) (hne : texts ≠ []) (between : List Char) :
    Begins (joinWith between texts) := by
  cases h with
  | nil => exact absurd rfl hne
  | @cons text e texts es hfirst hmore =>
    by_cases hmore : texts = []
    · subst hmore
      simpa [joinWith] using hfirst.begins
    · rw [joinWith_cons _ _ hmore]
      exact begins_append hfirst.begins _

theorem operands_of_joined {texts : List (List Char)} {es : List Expr}
    (h : List.Forall₂ Operand texts es) (hne : texts ≠ []) :
    Operands (trimEnd (joinWith [' ', '|', ' '] texts)) es := by
  induction h with
  | nil => exact absurd rfl hne
  | @cons text e texts es hfirst hrest ih =>
    by_cases hmore : texts = []
    · subst hmore
      cases hrest
      exact .last (by simpa [joinWith] using hfirst.trimmed)
    · have hbegins := begins_trimEnd (begins_joined hrest hmore [' ', '|', ' '])
      rw [joinWith_cons _ _ hmore, ← List.append_assoc, trimEnd_append _ hbegins.ne_nil,
        List.append_assoc]
      generalize trimEnd (joinWith [' ', '|', ' '] texts) = rest at hbegins ih ⊢
      have hskip : skipSpace ([' ', '|', ' '] ++ rest) = '|' :: ' ' :: rest := rfl
      obtain ⟨r, hr, hread⟩ := hfirst.reads _ (branchEnd_bar rest)
      have hspace : skipSpace (' ' :: rest) = rest := skipSpace_of_begins hbegins
      exact .more hread (hr.trans hskip) (hspace.symm ▸ ih hmore)

/-- Paths with bars between them are parsed as their union. -/
theorem parse_of_operands {query : String} {texts : List (List Char)} {first : Expr}
    {more : List Expr} (h : List.Forall₂ Operand texts (first :: more))
    (hq : query.toList = joinWith [' ', '|', ' '] texts) :
    parse query = .ok (unionOf first more) := by
  have hne : texts ≠ [] := by
    rintro rfl
    cases h
  have hbegins := begins_joined h hne [' ', '|', ' ']
  rw [parse_eq_ok, hq, trim, trimStart_of_head hbegins.head_not_blank]
  refine expression_of_unionExpr ?_ (unionExpr_iff.mpr ⟨_, _, operands_of_joined h hne, rfl⟩)
  rw [skipSpace_of_begins (begins_trimEnd hbegins)]
  rcases begins_trimEnd hbegins with hhead | hhead <;> rw [hhead] <;> decide

end MarkupQuery.Query
