import Mathlib.Data.List.Forall2
import MarkupQuery.Proofs.Query.Paths
import MarkupQuery.Proofs.Query.Trimming
import MarkupQuery.Proofs.Query.Union

namespace MarkupQuery.Query

open MarkupQuery.Text MarkupQuery.Page

variable {s s' r t t' : List Char} {e : Expr} {first : Step} {lists : List (List Step)}

theorem relativePath_iff : relativePath expression s = some (e, r) ↔ ∃ first u lists,
    step expression s = some (first, u) ∧ Reader.many (slashStep expression) u = some (lists, r) ∧
      e = .relative (first :: lists.flatten) := by
  rw [relativePath, map_eq_some]
  constructor
  · rintro ⟨⟨first, more⟩, hboth, rfl⟩
    obtain ⟨u, hfirst, hmore⟩ := both_eq_some.mp hboth
    obtain ⟨lists, hlists, rfl⟩ := map_eq_some.mp hmore
    exact ⟨first, u, lists, hfirst, hlists, rfl⟩
  · rintro ⟨first, u, lists, hfirst, hlists, rfl⟩
    exact ⟨(first, lists.flatten), both_eq_some.mpr ⟨u, hfirst, map_eq_some.mpr ⟨lists, hlists, rfl⟩⟩,
      rfl⟩

theorem slashSteps_of_none (h : slashStep expression r = none) :
    slashSteps expression r = some ([], r) :=
  map_eq_some.mpr ⟨[], many_of_none h, rfl⟩

theorem optional_of_none {α : Type} {p : Reader α} (h : p s = none) :
    Reader.optional p s = some (none, s) := by
  simp [Reader.optional, h]

/-- What a primary expression begins with: a digit, a quote, a parenthesis, the first character of
a name, or the point of a numeral. -/
def startsPrimary : List Char → Bool
  | [] => false
  | '.' :: s => s.head?.any Char.isDigit
  | c :: _ => c.isDigit || c == '\'' || c == '"' || c == '(' || isNameStart c

theorem primary_of_no_start (hspace : skipSpace s = s) (hs : startsPrimary s = false)
    (nested : Reader Expr) : primary nested s = none := by
  have hnone : Number.numeral? s = none ∧ stringLiteral s = none ∧ functionCall nested s = none ∧
      parenthesized nested s = none := by
    unfold startsPrimary at hs
    split at hs
    · exact ⟨rfl, rfl, rfl, rfl⟩
    · rename_i t
      have hplain : plainName ('.' :: t) = none := rfl
      refine ⟨?_, rfl, ?_, ?_⟩
      · have hfraction : t.takeWhile Char.isDigit = [] := by
          cases t with
          | nil => rfl
          | cons c t =>
            have hc : c.isDigit = false := by simpa using hs
            simp [hc]
        rw [Number.numeral_of_point rfl, hfraction]
        rfl
      · simp [functionCall, qualifiedName_of_none hplain]
      · simp [parenthesized, Reader.map, Reader.both, Reader.spaced, hspace, Reader.char]
    · rename_i c t hne
      simp only [Bool.or_eq_false_iff, beq_eq_false_iff_ne] at hs
      obtain ⟨⟨⟨⟨hdigit, hsingle⟩, hdouble⟩, hopen⟩, hname⟩ := hs
      have hplain : plainName (c :: t) = none := by simp [plainName, hname]
      refine ⟨?_, ?_, ?_, ?_⟩
      · exact Number.numeral_of_head (by simpa using hdigit) (by simpa using hne)
      · simp [stringLiteral, hsingle, hdouble]
      · simp [functionCall, qualifiedName_of_none hplain]
      · simp [parenthesized, Reader.map, Reader.both, Reader.spaced, hspace, Reader.char, hopen]
  obtain ⟨hnumeral, hstring, hcall, hparen⟩ := hnone
  simp [primary, Reader.spaced, Reader.orElse, Reader.map, hspace, hnumeral, hstring, hcall, hparen]

/-- A location path that no further step follows is the whole path. -/
theorem path_of_locationPath (hprimary : primary expression s = none)
    (h : locationPath expression s = some (e, r)) (hr : slashStep expression r = none) :
    path expression s = some (e, r) := by
  have hfiltered : filtered expression s = none := by
    simp [filtered, Reader.map, Reader.both, hprimary]
  have hstart : Reader.orElse (filtered expression) (locationPath expression) s = some (e, r) := by
    simp [Reader.orElse, hfiltered, h]
  exact map_eq_some.mpr ⟨(e, []), both_eq_some.mpr ⟨r, hstart, slashSteps_of_none hr⟩, rfl⟩

/-- A primary expression without parentheses is neither a path nor an operator with operands. -/
theorem primary_shape (hs : (skipSpace s).head? ≠ some '(') {nested : Reader Expr}
    (h : primary nested s = some (e, r)) : e.isPath = false ∧ e.isBinary = false := by
  obtain ⟨t, ht, -⟩ := spaced_eq_some.mp h
  have hparen : parenthesized nested (skipSpace s) = none := by
    have hopen : Reader.spaced (.char '(') (skipSpace s) = none :=
      spaced_char_of_head_ne (by rwa [skipSpace_skipSpace])
    simp [parenthesized, Reader.map, Reader.both, hopen]
  simp only [Reader.orElse, hparen] at ht
  split at ht
  · rename_i found hfound
    obtain ⟨x, -, rfl⟩ := map_eq_some.mp (hfound.trans ht)
    exact ⟨rfl, rfl⟩
  · split at ht
    · rename_i found hfound
      obtain ⟨x, -, rfl⟩ := map_eq_some.mp (hfound.trans ht)
      exact ⟨rfl, rfl⟩
    · split at ht
      · rename_i found hfound
        rw [functionCall_eq] at hfound
        obtain ⟨x, -, rfl⟩ := map_eq_some.mp (hfound.trans ht)
        exact ⟨rfl, rfl⟩
      · simp at ht

theorem filtered_shape (hs : (skipSpace s).head? ≠ some '(') {nested : Reader Expr}
    (h : filtered nested s = some (e, r)) : e.isPath = false ∧ e.isBinary = false := by
  obtain ⟨⟨e', predicates⟩, hboth, rfl⟩ := map_eq_some.mp h
  obtain ⟨t, hprimary, -⟩ := both_eq_some.mp hboth
  dsimp only
  split
  · exact primary_shape hs hprimary
  · exact ⟨rfl, rfl⟩

theorem continueBy_of_not_path (he : e.isPath = false) (more : List Step) :
    e.continueBy more = e ∨ e.continueBy more = .continued e more := by
  unfold Expr.continueBy
  split
  · exact .inl rfl
  · cases e <;> simp_all [Expr.isPath]

theorem locationPath_shape (h : locationPath expression s = some (e, r)) :
    (∃ steps, e = .relative steps) ∨ ∃ steps, e = .absolute steps := by
  by_cases hslash : s.head? = some '/'
  · rw [locationPath_of_slash hslash, absolutePath] at h
    split at h <;> obtain ⟨_, -, rfl⟩ := map_eq_some.mp h <;> exact .inr ⟨_, rfl⟩
  · rw [locationPath_of_no_slash hslash] at h
    obtain ⟨first, u, lists, -, -, rfl⟩ := relativePath_iff.mp h
    exact .inl ⟨_, rfl⟩

/-- A path is read as a filtered expression with steps behind it, or as a location path. -/
theorem path_cases (h : path expression s = some (e, r)) :
    ∃ e' more, e = e'.continueBy more ∧ ((∃ t, filtered expression s = some (e', t)) ∨
      ∃ t, locationPath expression s = some (e', t) ∧ slashSteps expression t = some (more, r)) := by
  obtain ⟨⟨e', more⟩, hboth, rfl⟩ := map_eq_some.mp h
  obtain ⟨t, hstart, hmore⟩ := both_eq_some.mp hboth
  refine ⟨e', more, rfl, ?_⟩
  unfold Reader.orElse at hstart
  split at hstart
  · rename_i found hfound
    exact .inl ⟨t, hfound.trans hstart⟩
  · exact .inr ⟨t, hstart, hmore⟩

theorem path_not_binary (hs : (skipSpace s).head? ≠ some '(')
    (h : path expression s = some (e, r)) : e.isBinary = false := by
  obtain ⟨e', more, rfl, ⟨t, hfiltered⟩ | ⟨t, hlocation, -⟩⟩ := path_cases h
  · obtain ⟨hpath, hbinary⟩ := filtered_shape hs hfiltered
    rcases continueBy_of_not_path hpath more with he | he <;> rw [he]
    · exact hbinary
    · rfl
  · rcases locationPath_shape hlocation with ⟨steps, rfl⟩ | ⟨steps, rfl⟩ <;>
      cases more <;> rfl

/-- An operand that is a relative path and does not begin with a parenthesis is read as one. -/
theorem relativePath_of_path (hs : (skipSpace s).head? ≠ some '(') {steps : List Step}
    (h : path expression s = some (.relative steps, r)) :
    relativePath expression s = some (.relative steps, r) := by
  obtain ⟨e, more, he, ⟨t, hfiltered⟩ | ⟨t, hlocation, hmore⟩⟩ := path_cases h
  · have hpath := (filtered_shape hs hfiltered).1
    rcases continueBy_of_not_path hpath more with he' | he' <;> rw [he'] at he
    · rw [← he] at hpath
      cases hpath
    · cases he
  · by_cases hslash : s.head? = some '/'
    · rw [locationPath_of_slash hslash, absolutePath] at hlocation
      split at hlocation <;> obtain ⟨_, -, rfl⟩ := map_eq_some.mp hlocation <;>
        cases more <;> simp [Expr.continueBy] at he
    · rw [locationPath_of_no_slash hslash] at hlocation
      obtain ⟨first, u, lists, -, hlists, rfl⟩ := relativePath_iff.mp hlocation
      have hend := strict_slashStep.none_of_many hlists
      rw [slashSteps_of_none hend] at hmore
      obtain ⟨rfl, rfl⟩ := Prod.mk.inj (Option.some.inj hmore)
      rw [show Expr.relative steps = .relative (first :: lists.flatten) from he]
      exact hlocation

end MarkupQuery.Query

/-!
The branches of a union of relative paths. Cut out of the query and trimmed, every branch is read to
its end as the operand that it is in the query.
-/

namespace MarkupQuery.Query

open MarkupQuery.Text MarkupQuery.Page

variable {s r t : List Char} {e : Expr} {es : List Expr} {steps : List Step}

theorem crossed_slash (h : crossed (inside 0) t = some (inside 0)) :
    crossed (inside 0) ('/' :: t) = some (inside 0) :=
  crossed_cons.mpr ⟨by decide, h⟩

theorem exists_crossed_of_slashStep (h : slashStep expression s = some (steps, r)) :
    ∃ c, s = c ++ r ∧ crossed (inside 0) c = some (inside 0) := by
  have hstep : ∀ (s : List Char) (f : Step → List Step),
      ((step expression s).map fun found => (f found.1, found.2)) = some (steps, r) →
      ∃ c, s = c ++ r ∧ crossed (inside 0) c = some (inside 0) := by
    intro s f hs
    obtain ⟨⟨st, u⟩, hread, he⟩ := Option.map_eq_some_iff.mp hs
    obtain ⟨-, rfl⟩ := Prod.mk.inj he
    obtain ⟨c, hc, -, hcrossed⟩ := exists_crossed_of_step hread
    exact ⟨c, hc, hcrossed⟩
  by_cases hs : s.head? = some '/'
  · obtain ⟨s, rfl⟩ := List.head?_eq_some_iff.mp hs
    by_cases hs' : s.head? = some '/'
    · obtain ⟨s, rfl⟩ := List.head?_eq_some_iff.mp hs'
      rw [slashStep_of_two] at h
      obtain ⟨c, rfl, hc⟩ := hstep s (fun st => [Step.anywhereBelow, st]) h
      exact ⟨'/' :: '/' :: c, rfl, crossed_slash (crossed_slash hc)⟩
    · rw [slashStep_of_one hs'] at h
      obtain ⟨c, rfl, hc⟩ := hstep s (fun st => [st]) h
      exact ⟨'/' :: c, rfl, crossed_slash hc⟩
  · rw [slashStep_of_no_slash hs] at h
    simp at h

theorem exists_crossed_of_many {lists : List (List Step)}
    (h : Reader.many (slashStep expression) s = some (lists, r)) :
    ∃ c, s = c ++ r ∧ crossed (inside 0) c = some (inside 0) := by
  induction lists generalizing s with
  | nil =>
    rcases strict_slashStep.many_iff.mp h with ⟨-, -, rfl⟩ | ⟨_, _, _, -, -, hcons⟩
    · exact ⟨[], rfl, rfl⟩
    · simp at hcons
  | cons first lists ih =>
    rcases strict_slashStep.many_iff.mp h with ⟨-, hnil, -⟩ | ⟨_, u, _, hfirst, hrest, hcons⟩
    · simp at hnil
    · obtain ⟨rfl, rfl⟩ := List.cons.inj hcons
      obtain ⟨c, rfl, hc⟩ := exists_crossed_of_slashStep hfirst
      obtain ⟨d, rfl, hd⟩ := ih hrest
      refine ⟨c ++ d, (List.append_assoc c d r).symm, ?_⟩
      rw [crossed_append, hc]
      exact hd

/-- Nothing interrupts the text of a relative path. -/
theorem exists_crossed_of_relativePath (h : relativePath expression s = some (e, r)) :
    ∃ c, s = c ++ r ∧ c ≠ [] ∧ crossed (inside 0) c = some (inside 0) := by
  obtain ⟨first, u, lists, hfirst, hlists, -⟩ := relativePath_iff.mp h
  obtain ⟨c, rfl, hne, hc⟩ := exists_crossed_of_step hfirst
  obtain ⟨d, rfl, hd⟩ := exists_crossed_of_many hlists
  refine ⟨c ++ d, (List.append_assoc c d r).symm, by simp [hne], ?_⟩
  rw [crossed_append, hc]
  exact hd

/-- After spaces, a text that ends or goes on with a bar. -/
def BranchEnd (t : List Char) : Prop := ∀ c ∈ (skipSpace t).head?, c = '|'

theorem BranchEnd.stops (h : BranchEnd t) : Stops t := fun c hc => .inl (h c hc)

theorem BranchEnd.endsPath (h : BranchEnd t) : EndsPath t := by
  refine ⟨h.stops, fun hslash => ?_⟩
  exact absurd (h '/' hslash) (by decide)

theorem branchEnd_nil : BranchEnd [] := fun _ hc => by simp [skipSpace] at hc

theorem branchEnd_bar (rest : List Char) : BranchEnd ([' ', '|', ' '] ++ rest) := fun c hc => by
  have hskip : skipSpace ([' ', '|', ' '] ++ rest) = '|' :: ' ' :: rest := rfl
  rw [hskip] at hc
  exact (Option.some.inj hc).symm

/-- A text at the end of a branch is crossed as far as its spaces go. -/
theorem spaces_of_crossed {c : List Char} {m : Nesting} (h : BranchEnd (c ++ t))
    (hc : crossed (inside 0) c = some m) : ∀ x ∈ c, isSpace x = true := by
  induction c with
  | nil => simp
  | cons x c ih =>
    obtain ⟨hnot, hrest⟩ := crossed_cons.mp hc
    have hx : isSpace x = true := by
      cases hspace : isSpace x with
      | true => rfl
      | false =>
        have hbar : x = '|' := h x (by simp [skipSpace, hspace])
        exact absurd (hbar ▸ Or.inl rfl) hnot
    rw [after_space hx] at hrest
    refine List.forall_mem_cons.mpr ⟨hx, ih ?_ hrest⟩
    simpa [BranchEnd, skipSpace, hx] using h

theorem skipSpace_append_spaces {w : List Char} (hw : ∀ x ∈ w, isSpace x = true) (t : List Char) :
    skipSpace (w ++ t) = skipSpace t := List.dropWhile_append_of_pos hw

theorem isBlank_of_startsStep {c : Char} (hc : startsStep c = true) : isBlank c = false := by
  simp only [startsStep, Bool.or_eq_true, beq_iff_eq] at hc
  rcases hc with ((hc | rfl) | rfl) | rfl
  · exact isBlank_of_isNameChar (isNameChar_of_isNameStart hc)
  all_goals decide

theorem startsStep_of_step {st : Step} (h : step expression s = some (st, r)) :
    ∃ x ∈ s.head?, startsStep x = true := by
  cases s with
  | nil =>
    rw [step_of_no_start (by simp)] at h
    simp at h
  | cons x s =>
    refine ⟨x, rfl, ?_⟩
    cases hx : startsStep x with
    | true => rfl
    | false =>
      rw [step_of_no_start (by simpa using hx)] at h
      simp at h

structure Piece (b : List Char) (e : Expr) : Prop where
  read : relativePath expression b = some (e, [])
  trimmed : trimEnd b = b

/-- The text of a relative path that a branch ends with is read alike when cut out and trimmed. -/
theorem piece_of_relativePath (h : relativePath expression s = some (e, r)) (hr : BranchEnd r) :
    ∃ c, s = c ++ r ∧ crossed (inside 0) c = some (inside 0) ∧ Piece (trim c) e := by
  obtain ⟨c, rfl, hne, hc⟩ := exists_crossed_of_relativePath h
  refine ⟨c, rfl, hc, ?_⟩
  obtain ⟨first, u, lists, hfirst, hlists, rfl⟩ := relativePath_iff.mp h
  have hstart : trim c = trimEnd c := by
    obtain ⟨x, hx, hstarts⟩ := startsStep_of_step hfirst
    rw [trim, trimStart_of_head]
    intro y hy
    obtain rfl : y = x := by
      rw [List.head?_append_of_ne_nil _ hne] at hx
      exact Option.mem_unique hy hx
    exact isBlank_of_startsStep hstarts
  obtain ⟨w, hw, hblank, hlast⟩ := exists_trimEnd c
  rw [hw] at hc
  obtain ⟨htext, hspaces⟩ := crossed_of_append_blanks hblank hc
  have htail : BranchEnd (w ++ r) := by
    rw [BranchEnd, skipSpace_append_spaces hspaces]
    exact hr
  have hcut : Cut (w ++ r) [] (inside 0) (c ++ r) (trimEnd c) := by
    refine ⟨trimEnd c, w ++ r, [], ?_, (List.append_nil _).symm, .inl rfl, .inl rfl, htext⟩
    rw [← List.append_assoc, ← hw]
  have hsame := step_same (twins_cut htail.stops branchEnd_nil.stops) hcut
  rw [hfirst] at hsame
  generalize hfirst' : step expression (trimEnd c) = x' at hsame
  cases hsame with
  | @some _ _ u' hu =>
    obtain ⟨r', hrest, hmany⟩ := many_slashStep_cut htail.endsPath branchEnd_nil.stops hu hlists
    -- what is left over is made of spaces, and the trimmed text does not end in a space
    obtain ⟨d, v, v', hv, rfl, -, hv', hd⟩ := hrest
    obtain rfl : v' = [] := by rcases hv' with rfl | rfl <;> rfl
    rw [List.append_nil] at hmany
    have hspaces : ∀ x ∈ d, isSpace x = true := spaces_of_crossed (hv ▸ hr) hd
    have hnone : slashStep expression d = none := by
      refine slashStep_of_no_slash fun hslash => ?_
      exact absurd (hspaces '/' (List.mem_of_mem_head? hslash)) (by decide)
    simp only [many_of_none hnone, Option.map_some, List.append_nil] at hmany
    obtain ⟨f, hf, -⟩ := exists_crossed_of_relativePath
      (relativePath_iff.mpr ⟨first, u', lists, hfirst', hmany, rfl⟩)
    obtain rfl : d = [] := by
      rcases List.eq_nil_or_concat d with rfl | ⟨before, last, rfl⟩
      · rfl
      · have hblank : isBlank last = false := hlast last (by rw [hf]; simp)
        rw [isBlank_of_isSpace last (hspaces last (by simp))] at hblank
        cases hblank
    rw [hstart]
    exact ⟨relativePath_iff.mpr ⟨first, u', lists, hfirst', hmany, rfl⟩, trimEnd_of_last hlast⟩

/-- A query begins with a parenthesis only if its first branch does. -/
theorem head_of_branches (hp : ∀ b ∈ (branches s).map trim, b.head? ≠ some '(') :
    (skipSpace s).head? ≠ some '(' := by
  intro hhead
  have hw : ∀ x ∈ s.takeWhile isSpace, isBlank x = true := fun x hx =>
    isBlank_of_isSpace x (List.mem_takeWhile_imp hx)
  have hs : s.takeWhile isSpace ++ skipSpace s = s := List.takeWhile_append_dropWhile
  obtain ⟨b, hb, hopen⟩ := head_trim_branch hhead (by decide) (by decide)
  rw [← branches_blanks_append hw, hs] at hb
  exact hp b hb hopen

/-- Each operand of a union of relative paths is a branch of the query. -/
theorem pieces_of_operands (h : Operands s es) (he : ∀ e ∈ es, ∃ steps, e = .relative steps)
    (hp : ∀ b ∈ (branches s).map trim, b.head? ≠ some '(') :
    List.Forall₂ Piece ((branches s).map trim) es := by
  induction h with
  | @last s e hread =>
    obtain ⟨steps, rfl⟩ := he _ List.mem_cons_self
    obtain ⟨c, hs, hc, hpiece⟩ :=
      piece_of_relativePath (relativePath_of_path (head_of_branches hp) hread) branchEnd_nil
    rw [List.append_nil] at hs
    subst hs
    rw [branches_of_crossed hc]
    exact .cons hpiece .nil
  | @more s r s' e es hread hr _ ih =>
    obtain ⟨⟨steps, rfl⟩, hes⟩ := List.forall_mem_cons.mp he
    have hend : BranchEnd r := fun x hx => by
      rw [hr] at hx
      exact (Option.some.inj hx).symm
    obtain ⟨c, rfl, hc, hpiece⟩ := piece_of_relativePath (relativePath_of_path (head_of_branches hp) hread) hend
    rw [branches_at_bar hc hr] at hp ⊢
    obtain ⟨-, hp⟩ := List.forall_mem_cons.mp hp
    exact .cons hpiece (ih hes hp)

end MarkupQuery.Query
