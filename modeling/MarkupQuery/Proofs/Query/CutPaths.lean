import MarkupQuery.Proofs.Query.Prolonged

namespace MarkupQuery.Query

open MarkupQuery.Text MarkupQuery.Page Reader

variable {R : Nesting → List Char → List Char → Prop} {bound depth : Nat}
  {s s' r t b c : List Char} {e : Expr}

/-- A trimmed branch that is read to its end as a path. -/
structure Branch (b : List Char) (e : Expr) : Prop where
  read : path expression b = some (e, [])
  trimmed : trim b = b

section Numerals

/-- A primary expression, a numeral at the end of the text with its fraction. -/
def wholePrimary : Reader Expr :=
  .spaced <|
    .orElse (.map .number Number.wholeNumeral?) <|
    .orElse (.map .literal stringLiteral) <|
    .orElse (functionCall expression) (parenthesized expression)

def wholePath : Reader Expr := pathFrom wholePrimary expression

theorem steady_wholePrimary (hR : Twins R) :
    Steady R bound 0 depth depth wholePrimary wholePrimary :=
  hR.spaced <|
  .orElse (.map _ (steady_wholeNumeral hR)) <|
  .orElse (.map _ (steady_stringLiteral hR)) <|
  .orElse (steady_functionCall (fun depth => steady_expression hR depth) hR)
    (steady_parenthesized (fun depth => steady_expression hR depth) hR)

/-- With the fraction of its numeral every path is read alike in twins. -/
theorem wholePath_same (hR : Twins R)
    (hslash : ∀ bound, Steady R bound 1 0 0 (.char '/') (.char '/')) (h : R (inside 0) s s') :
    Same R (inside 0) 0 s s' (wholePath s) (wholePath s') := by
  have hsteady : Steady R (max s.length s'.length + 1) 0 0 0 wholePath wholePath :=
    steady_pathFrom (fun depth => steady_expression hR depth) hslash hR (steady_wholePrimary hR)
  exact hsteady s s' (by omega) (by omega) h

theorem pathFrom_congr {start start' : Reader Expr} (h : start s = start' s) :
    pathFrom start expression s = pathFrom start' expression s := by
  simp only [pathFrom, filteredFrom, Reader.map, Reader.both, Reader.orElse, h]

/-- What a path starts with may be all of it. -/
theorem pathFrom_of_end {start : Reader Expr} (h : start s = some (e, [])) :
    pathFrom start expression s = some (e, []) := by
  have hsteps : slashSteps expression [] = some ([], []) := slashSteps_of_none rfl
  have hpredicates : Reader.many (predicate expression) [] = some ([], []) := many_of_none rfl
  simp [pathFrom, filteredFrom, Reader.map, Reader.both, Reader.orElse, h, hpredicates, hsteps,
    Expr.continueBy]

theorem path_eq_wholePath (h : ¬ Number.LosesFraction (skipSpace s)) :
    path expression s = wholePath s := by
  refine pathFrom_congr ?_
  simp only [primary, wholePrimary, Reader.spaced, Reader.orElse, Reader.map,
    Number.numeral_eq_whole_iff.mpr h]

/-- A numeral that is all of a text may be read in two ways. -/
theorem path_of_losesFraction (h : Number.LosesFraction (skipSpace s)) : ∃ x y, x ≠ y ∧
    path expression s = some (.number x, []) ∧ wholePath s = some (.number y, []) := by
  obtain ⟨x, y, hne, hx, hy⟩ := h.numerals
  have hnil : skipSpace [] = [] := rfl
  refine ⟨x, y, hne, pathFrom_of_end ?_, pathFrom_of_end ?_⟩
  · simp only [primary, Reader.spaced, Reader.orElse, Reader.map, hx, Option.map_some, hnil]
  · simp only [wholePrimary, Reader.spaced, Reader.orElse, Reader.map, hy, Option.map_some, hnil]

/-- The two readings of a path differ in nothing but a fraction that is lost. -/
theorem exists_path_of_wholePath (h : wholePath s = some (e, r)) : ∃ e',
    path expression s = some (e', r) ∧ (e' = e ↔ ¬ Number.LosesFraction (skipSpace s)) := by
  by_cases hloses : Number.LosesFraction (skipSpace s)
  · obtain ⟨x, y, hne, hx, hy⟩ := path_of_losesFraction hloses
    rw [hy] at h
    obtain ⟨rfl, rfl⟩ := Prod.mk.inj (Option.some.inj h)
    exact ⟨_, hx, iff_of_false (fun he => hne (Expr.number.inj he)) (not_not.mpr hloses)⟩
  · exact ⟨e, (path_eq_wholePath hloses).trans h, iff_of_true rfl hloses⟩

theorem exists_wholePath_of_path (h : path expression s = some (e, r)) :
    ∃ e', wholePath s = some (e', r) := by
  by_cases hloses : Number.LosesFraction (skipSpace s)
  · obtain ⟨x, y, -, hx, hy⟩ := path_of_losesFraction hloses
    rw [hx] at h
    obtain ⟨-, rfl⟩ := Prod.mk.inj (Option.some.inj h)
    exact ⟨_, hy⟩
  · exact ⟨e, (path_eq_wholePath hloses).symm.trans h⟩

/-- In front of other text there is only one reading. -/
theorem wholePath_of_path (h : path expression s = some (e, r)) (hr : r ≠ []) :
    wholePath s = some (e, r) := by
  by_cases hloses : Number.LosesFraction (skipSpace s)
  · obtain ⟨x, y, -, hx, -⟩ := path_of_losesFraction hloses
    rw [hx] at h
    exact absurd (Prod.mk.inj (Option.some.inj h)).2.symm hr
  · exact (path_eq_wholePath hloses).symm.trans h

/-- Nothing interrupts the text of a path, whatever it begins with. -/
theorem exists_crossed_of_wholePath (h : wholePath s = some (e, r)) :
    ∃ c, s = c ++ r ∧ crossed (inside 0) c = some (inside 0) := by
  have hsame := wholePath_same (twins_remains s) (steady_slash_remains s)
    (show Remains s (inside 0) s s from ⟨rfl, [], rfl, rfl⟩)
  rw [h] at hsame
  cases hsame with
  | some hr _ => exact hr.2

end Numerals

section Cutting

theorem EndsPath.append_spaces {w : List Char} (hw : ∀ x ∈ w, isSpace x = true) (h : EndsPath r) :
    EndsPath (w ++ r) := by
  rwa [EndsPath, Stops, skipSpace_append_spaces hw]

theorem endsPath_nil : EndsPath [] := branchEnd_nil.endsPath

/-- Nothing that begins neither a primary expression nor a step begins a path. -/
theorem path_of_no_start {x : Char} (hspace : isSpace x = false)
    (hprimary : startsPrimary (x :: s) = false) (hstep : startsStep x = false) (hslash : x ≠ '/') :
    path expression (x :: s) = none := by
  have hfiltered : filtered expression (x :: s) = none := by
    have hnone := primary_of_no_start (by simp [skipSpace, hspace]) hprimary expression
    simp [filtered, Reader.map, Reader.both, hnone]
  have hlocation : locationPath expression (x :: s) = none := by
    have hnone : step expression (x :: s) = none := step_of_no_start (by simpa using hstep) expression
    rw [locationPath_of_no_slash (by simpa using hslash)]
    simp [relativePath, Reader.map, Reader.both, hnone]
  rw [← rest_eq_none, rest_path, rest_eq_none.mpr hlocation, rest_eq_none.mpr hfiltered]
  rfl

theorem path_of_minus (s : List Char) : path expression ('-' :: s) = none :=
  path_of_no_start rfl rfl rfl (by decide)

theorem path_of_blank {x : Char} (hx : isBlank x = true) (hs : isSpace x = false) :
    path expression (x :: s) = none := by
  -- a blank is no part of a name, hence no digit, and none of the signs that a path starts with
  have hname : isNameChar x = false := by
    cases hname : isNameChar x with
    | false => rfl
    | true => simp [isBlank_of_isNameChar hname] at hx
  have hne : ∀ d, isBlank d = false → x ≠ d := by
    rintro d hd rfl
    simp [hx] at hd
  have hdigit : x.isDigit = false := by
    cases hdigit : x.isDigit with
    | false => rfl
    | true => simp [isNameChar_of_isDigit hdigit] at hname
  have hstart : isNameStart x = false := by
    cases hstart : isNameStart x with
    | false => rfl
    | true => simp [isNameChar_of_isNameStart hstart] at hname
  refine path_of_no_start hs ?_ ?_ (hne '/' (by decide))
  · have hpoint := hne '.' (by decide)
    unfold startsPrimary
    split
    · rfl
    · rename_i hcons
      exact absurd (List.cons.inj hcons).1 hpoint
    · rename_i hcons
      obtain ⟨rfl, rfl⟩ := List.cons.inj hcons
      simp [hdigit, hstart, hne '\'' (by decide), hne '"' (by decide), hne '(' (by decide)]
  · simp [startsStep, hstart, hne '.' (by decide), hne '@' (by decide), hne '*' (by decide)]

/-- The first character of a path is no blank. -/
theorem head_of_path (hs : skipSpace s = s) (h : path expression s = some (e, r)) :
    ∀ x ∈ s.head?, isBlank x = false := by
  intro x hx
  obtain ⟨s, rfl⟩ := List.head?_eq_some_iff.mp hx
  cases hblank : isBlank x with
  | false => rfl
  | true =>
    have hspace : isSpace x = false := by
      cases hspace : isSpace x with
      | false => rfl
      | true =>
        have hlength := length_skipSpace_le s
        have hskip := congrArg List.length hs
        simp only [skipSpace, List.dropWhile_cons, hspace, if_true, List.length_cons] at hskip
        simp only [skipSpace] at hlength
        omega
    rw [path_of_blank hblank hspace] at h
    cases h

theorem head_trim_not_blank (s : List Char) : ∀ x ∈ (trim s).head?, isBlank x = false := by
  have hhead : ∀ x ∈ (trimStart s).head?, isBlank x = false := by
    intro x hx
    have hnot := List.head?_dropWhile_not isBlank s
    rw [← trimStart, Option.mem_def.mp hx] at hnot
    simpa using hnot
  rwa [trim, head_trimEnd hhead]

theorem Branch.head_not_blank (h : Branch b e) : ∀ x ∈ b.head?, isBlank x = false := by
  have hhead := head_trim_not_blank b
  rwa [h.trimmed] at hhead

theorem Branch.trimEnd_eq (h : Branch b e) : trimEnd b = b := by
  have htrimmed := h.trimmed
  rwa [trim, trimStart_of_head h.head_not_blank] at htrimmed

theorem skipSpace_of_not_blank (hs : ∀ x ∈ s.head?, isBlank x = false) : skipSpace s = s := by
  cases s with
  | nil => rfl
  | cons x s =>
    have hx : isSpace x = false := by
      cases hspace : isSpace x with
      | false => rfl
      | true => simp [isBlank_of_isSpace x hspace] at hs
    simp [skipSpace, hx]

theorem spaces_of_skipSpace (h : r = c ++ skipSpace r) : ∀ x ∈ c, isSpace x = true := by
  have hsplit : r.takeWhile isSpace ++ skipSpace r = c ++ skipSpace r := by
    rw [← h]
    exact List.takeWhile_append_dropWhile
  rw [← List.append_cancel_right hsplit]
  exact fun x hx => List.mem_takeWhile_imp hx

/-- Between a text and its own end, which may be cut off with spaces, there are only spaces. -/
theorem spaces_of_tail {d v w : List Char} (hw : ∀ x ∈ w, isSpace x = true) (hv : r = d ++ v)
    (htail : v = w ++ r ∨ v = skipSpace (w ++ r)) : ∀ x ∈ d, isSpace x = true := by
  rcases htail with rfl | rfl
  · have hlength := congrArg List.length hv
    simp only [List.length_append] at hlength
    obtain rfl := List.eq_nil_of_length_eq_zero (show d.length = 0 by omega)
    simp
  · rw [skipSpace_append_spaces hw] at hv
    exact spaces_of_skipSpace hv

theorem eq_nil_of_spaces {d : List Char} (hd : ∀ x ∈ d, isSpace x = true)
    (hlast : ∀ x ∈ (c ++ d).getLast?, isBlank x = false) : d = [] := by
  rcases List.eq_nil_or_concat d with rfl | ⟨before, last, rfl⟩
  · rfl
  · have hblank : isBlank last = false := hlast last (by simp)
    rw [isBlank_of_isSpace last (hd last (by simp))] at hblank
    cases hblank

/-- The text of a path is read alike when it is cut out and trimmed, with the fraction of the numeral
that it may begin with. -/
theorem cut_wholePath (hs : skipSpace s = s) (h : wholePath s = some (e, r)) (hr : EndsPath r) :
    ∃ c w, s = c ++ (w ++ r) ∧ (∀ x ∈ w, isSpace x = true) ∧
      crossed (inside 0) c = some (inside 0) ∧ wholePath c = some (e, []) ∧ trim c = c := by
  obtain ⟨c, rfl, hc⟩ := exists_crossed_of_wholePath h
  obtain ⟨w, hw, hblank, hlast⟩ := exists_trimEnd c
  rw [hw] at hc
  obtain ⟨htext, hspaces⟩ := crossed_of_append_blanks hblank hc
  have hsplit : c ++ r = trimEnd c ++ (w ++ r) := by rw [← List.append_assoc, ← hw]
  have htail : EndsPath (w ++ r) := hr.append_spaces hspaces
  have hcut : Cut (w ++ r) [] (inside 0) (c ++ r) (trimEnd c) :=
    ⟨trimEnd c, w ++ r, [], hsplit, (List.append_nil _).symm, .inl rfl, .inl rfl, htext⟩
  have hsame := wholePath_same (twins_cut htail.1 endsPath_nil.1)
    (steady_slash_cut htail endsPath_nil) hcut
  rw [h] at hsame
  generalize hread : wholePath (trimEnd c) = x' at hsame
  cases hsame with
  | @some _ _ r' hrest =>
    obtain ⟨e', hpath, -⟩ := exists_path_of_wholePath h
    obtain ⟨e'', htrimmed, -⟩ := exists_path_of_wholePath hread
    have hne : c ≠ [] := by
      rintro rfl
      cases htrimmed
    have hhead : ∀ x ∈ c.head?, isBlank x = false := fun x hx =>
      head_of_path hs hpath x (by rwa [List.head?_append_of_ne_nil _ hne])
    -- what is left over is made of spaces, and the trimmed text does not end in a space
    obtain ⟨d, v, v', hv, rfl, htails, hv', -⟩ := hrest
    obtain rfl : v' = [] := by rcases hv' with rfl | rfl <;> rfl
    obtain rfl : d = [] := by
      obtain ⟨f, hf, -⟩ := balances_path balances_expression _ _ _ htrimmed
      rw [List.append_nil] at hf
      rw [hf] at hlast
      exact eq_nil_of_spaces (spaces_of_tail hspaces hv htails) hlast
    refine ⟨trimEnd c, w, hsplit, hspaces, htext, hread, ?_⟩
    rw [trim, trimStart_of_head (by rwa [head_trimEnd hhead]), trimEnd_of_last hlast]

/-- The text of a path that begins with no numeral is read alike when it is cut out and trimmed. -/
theorem branch_of_path (hn : Number.numeral? (skipSpace s) = none) (hs : skipSpace s = s)
    (h : path expression s = some (e, r)) (hr : EndsPath r) :
    ∃ c, s = c ++ r ∧ crossed (inside 0) c = some (inside 0) ∧ Branch (trim c) e := by
  have hwhole : ∀ {t : List Char}, Number.numeral? (skipSpace t) = none →
      path expression t = wholePath t := fun ht =>
    path_eq_wholePath (Number.numeral_eq_whole_iff.mp (by rw [ht, Number.numeral_eq_none.mp ht]))
  obtain ⟨c, w, rfl, hw, hc, hread, htrim⟩ := cut_wholePath hs ((hwhole hn).symm.trans h) hr
  have htail : EndsPath (w ++ r) := hr.append_spaces hw
  have hcut : Cut (w ++ r) [] (inside 0) (c ++ (w ++ r)) c :=
    ⟨c, w ++ r, [], rfl, (List.append_nil c).symm, .inl rfl, .inl rfl, hc⟩
  have hnone := (numeral_eq_none_iff (twins_cut htail.1 endsPath_nil.1) hcut).mp hn
  refine ⟨c ++ w, (List.append_assoc c w r).symm, ?_, ?_⟩
  · rw [crossed_append, hc]
    exact crossed_spaces hw 0
  · rw [trim_append_blanks fun x hx => isBlank_of_isSpace x (hw x hx), htrim]
    exact ⟨(hwhole hnone).trans hread, htrim⟩

end Cutting

end MarkupQuery.Query
