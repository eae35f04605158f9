import MarkupQuery.Proofs.Query.Balance
import MarkupQuery.Proofs.Query.Endings
import MarkupQuery.Proofs.Query.Heads
import MarkupQuery.Proofs.Query.Remainders
import Mathlib.Data.Option.Basic

namespace MarkupQuery.Query

open MarkupQuery.Text MarkupQuery.Page Reader

variable {R : Nesting → List Char → List Char → Prop} {α : Type} {bound depth l : Nat}
  {n : Nesting} {z s s' r u u' : List Char} {e : Expr}

section Slashes

theorem rest_slashStep_of_two (s : List Char) :
    rest (slashStep expression) ('/' :: '/' :: s) = rest (step expression) s := by
  rw [rest, slashStep_of_two, Option.map_map]
  rfl

theorem rest_slashStep_of_one (hs : s.head? ≠ some '/') :
    rest (slashStep expression) ('/' :: s) = rest (step expression) s := by
  rw [rest, slashStep_of_one hs, Option.map_map]
  rfl

theorem rest_slashSteps (s : List Char) :
    rest (slashSteps expression) s = some (exhaust (slashStep expression) s) := by
  rw [slashSteps, rest_map]
  rfl

theorem rest_behind {p : Reader α} (s : List Char) : rest (.both p (slashSteps expression)) s =
    (rest p s).map (exhaust (slashStep expression)) := by
  rw [rest_both]
  cases rest p s with
  | none => rfl
  | some r => exact rest_slashSteps r

theorem rest_relativePath (s : List Char) : rest (relativePath expression) s =
    (rest (step expression) s).map (exhaust (slashStep expression)) := by
  rw [relativePath, rest_map, rest_behind]

theorem rest_absolutePath_of_two (s : List Char) :
    rest (absolutePath expression) ('/' :: '/' :: s) =
      (rest (step expression) s).map (exhaust (slashStep expression)) := by
  rw [rest, absolutePath_of_two, ← rest, rest_map, rest_behind]

theorem rest_absolutePath_of_one (hs : s.head? ≠ some '/') :
    rest (absolutePath expression) ('/' :: s) =
      some (exhaust (slashStep expression) ((rest (step expression) s).getD s)) := by
  rw [rest, absolutePath_of_one hs, ← rest, rest_map, rest_behind, rest_optional]
  rfl

theorem rest_path (s : List Char) : rest (path expression) s =
    ((rest (filtered expression) s).or (rest (locationPath expression) s)).map
      (exhaust (slashStep expression)) := by
  rw [path, rest_map, rest_behind, rest_orElse]

end Slashes

section Rests

/-- What is left of twins is left of both or of neither. -/
theorem rel_of_same {p p' : Reader α} {taken : Nat}
    (h : Same R n taken s s' (p s) (p' s')) : Option.Rel (R n) (rest p s) (rest p' s') := by
  unfold rest
  generalize p s = x at h
  generalize p' s' = x' at h
  cases h with
  | none => exact .none
  | some hr => exact .some hr

theorem rel_of_steady {p : Reader α}
    (h : ∀ bound, Steady R bound 0 0 0 p p) (hr : R (inside 0) s s') :
    Option.Rel (R (inside 0)) (rest p s) (rest p s') :=
  rel_of_same (h (max s.length s'.length + 1) s s' (by omega) (by omega) hr)

/-- Whether its fraction counts or not, a numeral ends at the same place. -/
theorem blind_numeral : blind Number.numeral? = blind Number.wholeNumeral? := by
  funext s
  unfold blind Reader.map
  by_cases h : Number.LosesFraction s
  · obtain ⟨x, y, -, hx, hy⟩ := h.numerals
    rw [hx, hy]
    rfl
  · rw [Number.numeral_eq_whole_iff.mpr h]

/-- Though the fraction of a numeral does not count at the end of a text, it is read there. -/
theorem steady_blindNumeral (hR : Twins R) :
    Steady R bound 0 depth depth (blind Number.numeral?) (blind Number.numeral?) := by
  rw [blind_numeral]
  exact .map _ (steady_wholeNumeral hR)

def blindPrimary : Reader Unit :=
  .spaced <| .orElse (blind Number.numeral?) (blind (unnumbered expression))

theorem rest_primary : rest (primary expression) = rest blindPrimary := by
  funext s
  simp only [primary, blindPrimary, unnumbered, rest_spaced, rest_orElse, rest_blind, rest_map,
    skipSpace_skipSpace]
  cases rest Number.numeral? (skipSpace s) with
  | some r => rfl
  | none => simp [Function.comp_def, skipSpace_skipSpace]

theorem rest_filtered (s : List Char) : rest (filtered expression) s =
    rest (.both blindPrimary (.many (predicate expression))) s := by
  rw [filtered, rest_map, rest_both, rest_both, rest_primary]

theorem rel_filtered (hR : Twins R) (h : R (inside 0) s s') :
    Option.Rel (R (inside 0)) (rest (filtered expression) s) (rest (filtered expression) s') := by
  rw [rest_filtered, rest_filtered]
  refine rel_of_steady (fun bound => ?_) h
  exact .both (hR.spaced (.orElse (steady_blindNumeral hR) (.map _ (steady_unnumbered hR))))
    (.many (steady_predicate (fun depth => steady_expression hR depth) hR))

theorem wholeWord_of_word {text : String} {a : Unit} (h : Reader.word text s = some (a, r))
    (hr : ∀ c ∈ r.head?, isNameChar c = false) : wholeWord text s = some (a, r) := by
  unfold wholeWord
  rw [h]
  cases r with
  | nil => rfl
  | cons c r => simp [hr c rfl]

theorem steady_wholeWord_outside (hR : Twins R) {text : String}
    (ht : areWords [((), text)] = true) :
    Steady R bound 0 depth depth (wholeWord text) (wholeWord text) := by
  intro s s' hs hs' h
  have hword := (steady_word hR (passes_of_areWords ht _ List.mem_cons_self)).weaken s s' hs hs' h
  cases hx : Reader.word text s with
  | none =>
    rw [hx] at hword
    generalize hx' : Reader.word text s' = x' at hword
    cases hword
    simp only [wholeWord, hx, hx']
    exact .none
  | some found =>
    rw [hx] at hword
    generalize hx' : Reader.word text s' = x' at hword
    cases hword with
    | @some a r r' hr hl hl' =>
      -- a word ends where no name goes on, in both texts or in neither
      rcases hR.cases_passes hr (isNameChar · = true)
        (fun c hc => ⟨depth, passes_of_isNameChar hc depth⟩) with
        ⟨c, t, t', rfl, rfl, hc, -⟩ | ⟨hno, hno'⟩
      · simp only [wholeWord, hx, hx', hc, if_true]
        exact .none
      · rw [wholeWord_of_word hx (by simpa using hno), wholeWord_of_word hx' (by simpa using hno')]
        exact .some hr hl hl'

/-- Outside of brackets too an operator other than the union is read alike in twins. -/
theorem steady_operatorAt_outside (hR : Twins R) (hl : l < 6) :
    Steady R bound 0 depth depth (operatorAt l) (operatorAt l) := by
  have hname : ∀ {op text}, areWords [((), text)] = true →
      Steady R bound 0 depth depth (operatorName op text) (operatorName op text) := fun ht =>
    .map _ (steady_wholeWord_outside hR ht)
  have hword : ∀ {op text}, areWords [((), text)] = true →
      Steady R bound 0 depth depth (operatorWord op text) (operatorWord op text) := fun ht =>
    .map _ (steady_word hR (passes_of_areWords ht _ List.mem_cons_self)).weaken
  have hchar : ∀ {op c}, isPlain c = true → isStop c = false →
      Steady R bound 0 depth depth (operatorChar op c) (operatorChar op c) := fun hc hs =>
    .map _ (steady_plainChar hR hc hs).weaken
  match l, hl with
  | 0, _ => exact hname (by decide)
  | 1, _ => exact hname (by decide)
  | 2, _ => exact .orElse (hchar rfl rfl) (hword (by decide))
  | 3, _ =>
    exact .orElse (hword (by decide)) <| .orElse (hword (by decide)) <|
      .orElse (hword (by decide)) <| .orElse (hword (by decide)) <| .orElse (hchar rfl rfl) <|
      .orElse (hword (by decide)) <| .orElse (hchar rfl rfl) (hword (by decide))
  | 4, _ => exact .orElse (hchar rfl rfl) (hchar rfl rfl)
  | 5, _ => exact .orElse (hchar rfl rfl) (.orElse (hname (by decide)) (hname (by decide)))

end Rests

/-- A text, and the same text with `z` behind it; no slash at its end meets one in `z`. The end of
the first may already be passed, with the spaces of the second behind it. -/
def Prolonged (z : List Char) (n : Nesting) (s s' : List Char) : Prop :=
  s.foldl Nesting.after n = inside 0 ∧ (s.getLast? ≠ some '/' ∨ z.head? ≠ some '/') ∧
    (s' = s ++ z ∨ (s = [] ∧ s' = skipSpace z))

namespace Prolonged

theorem tail {c : Char} (h : Prolonged z n (c :: s) s') :
    s' = c :: (s ++ z) ∧ Prolonged z (n.after c) s (s ++ z) := by
  obtain ⟨hnesting, hlast, hs' | ⟨hnil, -⟩⟩ := h
  · refine ⟨hs', hnesting, ?_, .inl rfl⟩
    cases s with
    | nil => simp
    | cons d s => rwa [List.getLast?_cons_cons] at hlast
  · cases hnil

/-- A slash that stands alone still does in front of `z`. -/
theorem one_slash (h : Prolonged z n ('/' :: s) s') (hs : s.head? ≠ some '/') :
    (s ++ z).head? ≠ some '/' := by
  cases s with
  | nil => simpa using h.2.1
  | cons d s => simpa using hs

theorem of_nil (h : Prolonged z n [] s') : n = inside 0 ∧ (s' = z ∨ s' = skipSpace z) :=
  ⟨h.1, h.2.2.imp id And.right⟩

theorem twins (hz : Stops z) : Twins (Prolonged z) where
  cases := by
    intro n s s' h
    cases s with
    | cons c s =>
      obtain ⟨rfl, htail⟩ := h.tail
      exact .inr (.inl ⟨c, s, s ++ z, rfl, rfl, htail⟩)
    | nil =>
      obtain ⟨rfl, hs'⟩ := h.of_nil
      refine .inr (.inr ⟨rfl, fun _ hc => by simp [skipSpace] at hc, stops_of_tail hz hs', ?_⟩)
      rw [skipSpace_eq_of_tail hs']
      exact ⟨rfl, by simp [skipSpace], .inr ⟨rfl, rfl⟩⟩

end Prolonged

section Slashes

variable (hz : Stops z)

include hz

theorem rel_step (h : Prolonged z (inside 0) s s') : Option.Rel (Prolonged z (inside 0))
    (rest (step expression) s) (rest (step expression) s') :=
  rel_of_same (step_same (Prolonged.twins hz) h)

/-- In front of the end of the first text a step behind slashes is read in both or in neither. -/
theorem rel_slashStep (h : Prolonged z (inside 0) s s') (hne : s ≠ []) :
    Option.Rel (Prolonged z (inside 0)) (rest (slashStep expression) s)
      (rest (slashStep expression) s') := by
  obtain ⟨c, s, rfl⟩ := List.exists_cons_of_ne_nil hne
  obtain ⟨rfl, htail⟩ := h.tail
  by_cases hc : c = '/'
  · subst hc
    by_cases htwo : s.head? = some '/'
    · obtain ⟨s, rfl⟩ := List.head?_eq_some_iff.mp htwo
      rw [rest_slashStep_of_two, List.cons_append, rest_slashStep_of_two]
      exact rel_step hz htail.tail.2
    · rw [rest_slashStep_of_one htwo, rest_slashStep_of_one (h.one_slash htwo)]
      exact rel_step hz htail
  · have hno : ∀ t, (c :: t).head? ≠ some '/' := fun t => by simpa using hc
    rw [rest_eq_none.mpr (slashStep_of_no_slash (hno s)),
      rest_eq_none.mpr (slashStep_of_no_slash (hno (s ++ z)))]
    exact .none

/-- Where the steps of the first text end, the second one may go on with further steps. -/
theorem exhaust_slashStep (h : Prolonged z (inside 0) s s') :
    ∃ u', Prolonged z (inside 0) (exhaust (slashStep expression) s) u' ∧
      exhaust (slashStep expression) s' = exhaust (slashStep expression) u' := by
  induction hn : s.length using Nat.strong_induction_on generalizing s s' with
  | _ n ih =>
    by_cases hnil : s = []
    · subst hnil
      refine ⟨s', ?_, rfl⟩
      rwa [exhaust_of_none (rest_eq_none.mpr (slashStep_of_no_slash (by simp)))]
    · have hrel := rel_slashStep hz h hnil
      cases hr : rest (slashStep expression) s with
      | none => exact ⟨s', by rwa [exhaust_of_none hr], rfl⟩
      | some r =>
        rw [hr] at hrel
        generalize hr' : rest (slashStep expression) s' = x' at hrel
        cases hrel with
        | some hrest =>
          rw [strict_slashStep.exhaust_of_some hr, strict_slashStep.exhaust_of_some hr']
          exact ih _ (hn ▸ strict_slashStep.rest_lt hr) hrest rfl

end Slashes

/-- What a reader takes off the first text it takes off the second one too, where further steps may
follow it. -/
def GoesOn (z : List Char) (p : Reader α) : Prop :=
  ∀ {s s' r}, Prolonged z (inside 0) s s' → rest p s = some r → ∃ r',
    Prolonged z (inside 0) r r' ∧ rest p s' = some (exhaust (slashStep expression) r')

section Paths

variable (hz : Stops z)

include hz

/-- Steps behind what is left of both texts. -/
theorem exhaust_of_rel {x x' : Option (List Char)}
    (h : Option.Rel (Prolonged z (inside 0)) x x')
    (hx : x.map (exhaust (slashStep expression)) = some r) : ∃ r', Prolonged z (inside 0) r r' ∧
      x'.map (exhaust (slashStep expression)) = some (exhaust (slashStep expression) r') := by
  cases h with
  | none => cases hx
  | some hrest =>
    obtain rfl := Option.some.inj hx
    obtain ⟨r', hr', he⟩ := exhaust_slashStep hz hrest
    exact ⟨r', hr', congrArg some he⟩

theorem goesOn_locationPath : GoesOn z (locationPath expression) := by
  intro s s' r h hr
  by_cases hslash : s.head? = some '/'
  · obtain ⟨s, rfl⟩ := List.head?_eq_some_iff.mp hslash
    obtain ⟨rfl, htail⟩ := h.tail
    rw [rest, locationPath_of_slash rfl, ← rest] at hr ⊢
    by_cases htwo : s.head? = some '/'
    · obtain ⟨s, rfl⟩ := List.head?_eq_some_iff.mp htwo
      rw [rest_absolutePath_of_two] at hr
      rw [List.cons_append, rest_absolutePath_of_two]
      exact exhaust_of_rel hz (rel_step hz htail.tail.2) hr
    · rw [rest_absolutePath_of_one htwo] at hr
      rw [rest_absolutePath_of_one (h.one_slash htwo)]
      have hrel : Option.Rel (Prolonged z (inside 0)) (some ((rest (step expression) s).getD s))
          (some ((rest (step expression) (s ++ z)).getD (s ++ z))) := by
        have hstep := rel_step hz htail
        generalize rest (step expression) s = x at hstep
        generalize rest (step expression) (s ++ z) = x' at hstep
        cases hstep with
        | none => exact .some htail
        | some hrest => exact .some hrest
      exact exhaust_of_rel hz hrel hr
  · -- nothing is read off an empty text, so the second text begins as the first does
    have hne : s ≠ [] := by
      rintro rfl
      cases hr
    obtain ⟨c, s, rfl⟩ := List.exists_cons_of_ne_nil hne
    obtain ⟨rfl, -⟩ := h.tail
    rw [rest, locationPath_of_no_slash hslash, ← rest, rest_relativePath] at hr
    rw [rest, locationPath_of_no_slash (by simpa using hslash), ← rest, rest_relativePath]
    exact exhaust_of_rel hz (rel_step hz h) hr

theorem goesOn_path : GoesOn z (path expression) := by
  intro s s' r h hr
  rw [rest_path] at hr ⊢
  have hrel := rel_filtered (Prolonged.twins hz) h
  cases hx : rest (filtered expression) s with
  | some u =>
    rw [hx] at hr hrel
    generalize rest (filtered expression) s' = x' at hrel
    cases hrel with
    | some hrest => exact exhaust_of_rel hz (.some hrest) hr
  | none =>
    rw [hx] at hr hrel
    generalize rest (filtered expression) s' = x' at hrel
    cases hrel
    rw [Option.none_or] at hr ⊢
    obtain ⟨u, hu, rfl⟩ := Option.map_eq_some_iff.mp hr
    obtain ⟨u', hu', he⟩ := goesOn_locationPath hz h hu
    obtain ⟨r', hr', hsteps⟩ := exhaust_slashStep hz hu'
    refine ⟨r', hr', ?_⟩
    rw [he, Option.map_some, strict_slashStep.exhaust_exhaust, hsteps]

theorem goesOn_signed : GoesOn z signed := by
  intro s s' r h hr
  rw [signed, rest_blind, rest_both, rest_optional, Option.bind_some] at hr ⊢
  have hsign : Option.Rel (Prolonged z (inside 0)) (rest (.spaced (.char '-')) s)
      (rest (.spaced (.char '-')) s') :=
    rel_of_steady (fun _ => ((Prolonged.twins hz).spaced
      (steady_plainChar (Prolonged.twins hz) (show isPlain '-' = true from rfl) rfl)).weaken) h
  generalize rest (.spaced (.char '-')) s = x at hsign hr
  generalize rest (.spaced (.char '-')) s' = x' at hsign
  cases hsign with
  | none => exact goesOn_path hz h hr
  | some hrest => exact goesOn_path hz hrest hr

theorem goesOn_operand (l : Nat) : GoesOn z (operand l) := by
  unfold operand
  split
  · exact goesOn_signed hz
  · intro s s' r h hr
    rw [rest_blind] at hr ⊢
    exact goesOn_path hz h hr

end Paths

section Operations

theorem slashStep_behind_path (h : rest (path expression) s = some r) :
    rest (slashStep expression) r = none := by
  rw [rest_path] at h
  obtain ⟨u, -, rfl⟩ := Option.map_eq_some_iff.mp h
  exact strict_slashStep.rest_exhaust u

theorem slashStep_behind_signed (h : rest signed s = some r) :
    rest (slashStep expression) r = none := by
  rw [signed, rest_blind, rest_both, rest_optional, Option.bind_some] at h
  exact slashStep_behind_path h

theorem slashStep_behind_operand (h : rest (operand l) s = some r) :
    rest (slashStep expression) r = none := by
  unfold operand at h
  split at h
  · exact slashStep_behind_signed h
  · rw [rest_blind] at h
    exact slashStep_behind_path h

/-- An operator in the first text is one in the second text. -/
theorem operatorAt_prolonged {op : BinaryOp} (hz : Stops z) (h : Prolonged z (inside 0) s s')
    (hl : l ≤ 6) (hop : operatorAt l s = some (op, r)) :
    ∃ op' r', Prolonged z (inside 0) r r' ∧ operatorAt l s' = some (op', r') := by
  rcases Nat.lt_or_eq_of_le hl with hl | rfl
  · have hrel := rel_of_steady
      (fun _ => steady_operatorAt_outside (Prolonged.twins hz) hl) h
    rw [rest_eq_some.mpr ⟨op, hop⟩] at hrel
    generalize hx : rest (operatorAt l) s' = x' at hrel
    cases hrel with
    | some hrest =>
      obtain ⟨op', hop'⟩ := rest_eq_some.mp hx
      exact ⟨op', _, hrest, hop'⟩
  · obtain ⟨_, hchar, rfl⟩ :=
      map_eq_some.mp (show operatorChar .union '|' s = some (op, r) from hop)
    obtain rfl := char_eq_some.mp hchar
    obtain ⟨rfl, htail⟩ := h.tail
    exact ⟨.union, _, htail, rfl⟩

/-- Operations up to the end of the first text are operations of the second one, where further steps
may follow the last operand. -/
theorem afterOperations_prolonged (hz : Stops z) (h : Prolonged z (inside 0) s s')
    (hstep : rest (slashStep expression) s = none) (hs : afterOperations s = []) :
    ∃ w, (w = z ∨ w = skipSpace z) ∧ afterOperations (exhaust (slashStep expression) s') =
      afterOperations (exhaust (slashStep expression) w) := by
  induction hn : s.length using Nat.strong_induction_on generalizing s s' with
  | _ n ih =>
    by_cases hnil : s = []
    · subst hnil
      exact ⟨s', h.of_nil.2, rfl⟩
    · have hoperation : rest (operations 6) s ≠ none := fun hnone =>
        hnil ((exhaust_of_none hnone).symm.trans hs)
      obtain ⟨r, hr⟩ := Option.ne_none_iff_exists'.mp hoperation
      obtain ⟨l, op, t, hl, hop, hoperand⟩ := exists_operation hr
      have hlt := (strict_operations 6).rest_lt hr
      obtain ⟨op', t', ht, hop'⟩ :=
        operatorAt_prolonged hz ((Prolonged.twins hz).skipSpace h) hl hop
      obtain ⟨r', hrest, hoperand'⟩ :=
        goesOn_operand hz l ((Prolonged.twins hz).skipSpace ht) hoperand
      have hstep' : rest (slashStep expression) s' = none := by
        have hrel := rel_slashStep hz h hnil
        rw [hstep] at hrel
        generalize rest (slashStep expression) s' = x' at hrel ⊢
        cases hrel
        rfl
      rw [afterOperations_of_some hl hop hoperand] at hs
      obtain ⟨w, hw, he⟩ := ih _ (hn ▸ hlt) hrest (slashStep_behind_operand hoperand) hs rfl
      refine ⟨w, hw, ?_⟩
      rw [exhaust_of_none hstep', afterOperations_of_some hl hop' hoperand', he]

/-- Behind the text of an expression its last path may go on with steps, and then operations may
follow. -/
theorem rest_expression_append (hz : Stops z) (hs : s.getLast? ≠ some '/' ∨ z.head? ≠ some '/')
    (h : expression s = some (e, [])) : ∃ w, (w = z ∨ w = skipSpace z) ∧
      rest expression (s ++ z) =
        some (afterOperations (exhaust (slashStep expression) w)) := by
  obtain ⟨c, hc, hbalanced⟩ := balances_expression s e [] h
  rw [List.append_nil] at hc
  subst hc
  have hprolonged : Prolonged z (inside 0) s (s ++ z) :=
    ⟨hbalanced.foldl_after 0, hs, .inl rfl⟩
  have hrest := rest_expression s
  rw [rest_eq_some.mpr ⟨e, h⟩] at hrest
  obtain ⟨u, hu, hoperations⟩ := Option.map_eq_some_iff.mp hrest.symm
  obtain ⟨u', hu', hread⟩ := goesOn_signed hz hprolonged hu
  obtain ⟨w, hw, he⟩ :=
    afterOperations_prolonged hz hu' (slashStep_behind_signed hu) hoperations
  refine ⟨w, hw, ?_⟩
  rw [rest_expression, hread, Option.map_some, he]

end Operations

end MarkupQuery.Query
