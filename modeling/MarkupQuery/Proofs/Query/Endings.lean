import MarkupQuery.Proofs.Query.Pieces

namespace MarkupQuery.Query

open MarkupQuery.Text MarkupQuery.Page

variable {R : Nesting → List Char → List Char → Prop} {bound depth : Nat}
  {s s' r t t' whole : List Char} {e : Expr}

section Slashes

/-- What remains of a text after a slash remains of the whole text. -/
theorem steady_slash_remains (whole : List Char) (bound : Nat) :
    Steady (Remains whole) bound 1 0 0 (.char '/') (.char '/') := by
  rintro s _ - - ⟨rfl, c, hwhole, hc⟩
  by_cases hs : s.head? = some '/'
  · obtain ⟨s, rfl⟩ := List.head?_eq_some_iff.mp hs
    have hcrossed : crossed (inside 0) (c ++ ['/']) = some (inside 0) := by
      rw [crossed_append, hc]
      rfl
    exact .some ⟨rfl, c ++ ['/'], by simpa using hwhole, hcrossed⟩ (Nat.le_refl _) (Nat.le_refl _)
  · rw [char_of_head_ne hs]
    exact .none

theorem EndsPath.head_ne_slash (h : EndsPath t) (hs : s = t ∨ s = skipSpace t) :
    s.head? ≠ some '/' := by
  refine head_ne_of_skipSpace ?_
  rw [skipSpace_eq_of_tail hs]
  exact h.2

/-- No path ends at a slash. -/
theorem steady_slash_cut (ht : EndsPath t) (ht' : EndsPath t') (bound : Nat) :
    Steady (Cut t t') bound 1 0 0 (.char '/') (.char '/') := by
  rintro s s' - - ⟨c, u, u', rfl, rfl, hu, hu', hc⟩
  cases c with
  | nil =>
    rw [List.nil_append, List.nil_append, char_of_head_ne (ht.head_ne_slash hu),
      char_of_head_ne (ht'.head_ne_slash hu')]
    exact .none
  | cons x c =>
    by_cases hx : x = '/'
    · subst hx
      exact .some ⟨c, u, u', rfl, rfl, hu, hu', (crossed_cons.mp hc).2⟩ (Nat.le_refl _)
        (Nat.le_refl _)
    · have hne : ∀ v : List Char, (x :: c ++ v).head? ≠ some '/' := fun v => by simpa using hx
      rw [char_of_head_ne (hne u), char_of_head_ne (hne u')]
      exact .none

end Slashes

/-- Twins both start with a numeral, or neither does. -/
theorem numeral_eq_none_iff (hR : Twins R) (h : R (inside depth) s s') :
    Number.numeral? (skipSpace s) = none ↔ Number.numeral? (skipSpace s') = none := by
  have hsteady : Steady R (max s.length s'.length + 1) 0 depth depth Number.wholeNumeral?
      Number.wholeNumeral? := steady_wholeNumeral hR
  have hsame := hsteady (skipSpace s) (skipSpace s')
    (by have := length_skipSpace_le s; omega) (by have := length_skipSpace_le s'; omega)
    (hR.skipSpace h)
  rw [Number.numeral_eq_none, Number.numeral_eq_none]
  generalize Number.wholeNumeral? (skipSpace s) = x at hsame
  generalize Number.wholeNumeral? (skipSpace s') = x' at hsame
  cases hsame <;> simp

def unnumbered (nested : Reader Expr) : Reader Expr :=
  .spaced <|
  .orElse (.map .literal stringLiteral) <|
  .orElse (functionCall nested) (parenthesized nested)

theorem primary_of_no_numeral (h : Number.numeral? (skipSpace s) = none) (nested : Reader Expr) :
    primary nested s = unnumbered nested s := by
  simp only [primary, unnumbered, Reader.spaced, Reader.orElse, Reader.map, h, Option.map_none]

theorem path_of_no_numeral (h : Number.numeral? (skipSpace s) = none) (nested : Reader Expr) :
    path nested s = pathFrom (unnumbered nested) nested s := by
  have hfiltered : filtered nested s = filteredFrom (unnumbered nested) nested s := by
    simp only [filtered, filteredFrom, Reader.map, Reader.both, primary_of_no_numeral h]
  simp only [path, pathFrom, Reader.map, Reader.both, Reader.orElse, hfiltered]

theorem steady_unnumbered (hR : Twins R) :
    Steady R bound 0 depth depth (unnumbered expression) (unnumbered expression) :=
  hR.spaced <|
  .orElse (.map _ (steady_stringLiteral hR)) <|
  .orElse (steady_functionCall (fun depth => steady_expression hR depth) hR)
    (steady_parenthesized (fun depth => steady_expression hR depth) hR)

/-- Outside of brackets too a path is read alike in twins, if no numeral starts it. -/
theorem path_same (hR : Twins R)
    (hslash : ∀ bound, Steady R bound 1 0 0 (.char '/') (.char '/')) (h : R (inside 0) s s')
    (hn : Number.numeral? (skipSpace s) = none) :
    Same R (inside 0) 0 s s' (path expression s) (path expression s') := by
  rw [path_of_no_numeral hn, path_of_no_numeral ((numeral_eq_none_iff hR h).mp hn)]
  have hsteady : Steady R (max s.length s'.length + 1) 0 0 0
      (pathFrom (unnumbered expression) expression)
      (pathFrom (unnumbered expression) expression) :=
    steady_pathFrom (fun depth => steady_expression hR depth) hslash hR (steady_unnumbered hR)
  exact hsteady s s' (by omega) (by omega) h

/-- Nothing interrupts the text of a path. -/
theorem exists_crossed_of_path (hn : Number.numeral? (skipSpace s) = none)
    (h : path expression s = some (e, r)) :
    ∃ c, s = c ++ r ∧ crossed (inside 0) c = some (inside 0) := by
  have hsame := path_same (twins_remains s) (steady_slash_remains s)
    (show Remains s (inside 0) s s from ⟨rfl, [], rfl, rfl⟩) hn
  rw [h] at hsame
  cases hsame with
  | some hr _ => exact hr.2

/-- A path that is read up to the end of a branch is read alike in front of another end. -/
theorem path_append_end (hn : Number.numeral? (skipSpace s) = none)
    (h : path expression s = some (e, r)) (hr : BranchEnd r) (ht : BranchEnd (r ++ t)) :
    ∃ r', skipSpace r' = skipSpace (r ++ t) ∧ path expression (s ++ t) = some (e, r') := by
  obtain ⟨c, rfl, hc⟩ := exists_crossed_of_path hn h
  have hcut : Cut r (r ++ t) (inside 0) (c ++ r) (c ++ r ++ t) :=
    ⟨c, r, r ++ t, rfl, List.append_assoc c r t, .inl rfl, .inl rfl, hc⟩
  have hsame := path_same (twins_cut hr.stops ht.stops) (steady_slash_cut hr.endsPath ht.endsPath) hcut hn
  rw [h] at hsame
  generalize path expression (c ++ r ++ t) = x' at hsame ⊢
  cases hsame with
  | @some _ _ r' hrest =>
    obtain ⟨d, v, v', hv, rfl, -, hv', hd⟩ := hrest
    -- what is left over in front of the end is made of spaces
    have hspaces : ∀ x ∈ d, isSpace x = true := spaces_of_crossed (hv ▸ hr) hd
    exact ⟨d ++ v', by rw [skipSpace_append_spaces hspaces, skipSpace_eq_of_tail hv'], rfl⟩

end MarkupQuery.Query
