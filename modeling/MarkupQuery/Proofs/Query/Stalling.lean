import MarkupQuery.Proofs.Query.Arguments

namespace MarkupQuery.Query

open MarkupQuery.Text

variable {α β : Type} {p : Reader α} {s t r : List Char} {c : Char} {steps : List Step}

def startsOperator (c : Char) : Bool :=
  ['*', '+', '-', '=', '!', '<', '>', '&', 'd', 'm', 'a', 'o'].contains c

/-- A rest that nothing goes on with: no predicate, no step, no operator and no end of brackets. -/
structure Stuck (r : List Char) : Prop where
  head : ∃ c, (skipSpace r).head? = some c ∧ startsOperator c = false ∧ ¬ Closes c
  noPredicate : predicate expression r = none
  noStep : slashStep expression r = none
  noUnion : barred r = none

theorem Stuck.ne_nil (h : Stuck r) : r ≠ [] := by
  rintro rfl
  obtain ⟨c, hc, -⟩ := h.head
  cases hc

theorem Stuck.not_closed (h : Stuck r) (hc : Closes c) : (skipSpace r).head? ≠ some c := by
  obtain ⟨d, hd, -, hopen⟩ := h.head
  rw [hd]
  rintro ⟨⟩
  exact hopen hc

theorem barred_of_head_ne (h : (skipSpace r).head? ≠ some '|') : barred r = none := by
  have hbar : Reader.spaced (operatorChar .union '|') r = none := by
    simp [Reader.spaced, operatorChar, Reader.map, char_of_head_ne h]
  simp [barred, Reader.both, hbar]

def isInert (c : Char) : Bool :=
  !(['[', '/', '|', ',', ')', ']'].contains c || isSpace c || startsOperator c)

theorem stuck_of_isInert (hc : isInert c = true) (s : List Char) : Stuck (c :: s) := by
  simp only [isInert, Bool.not_eq_true', Bool.or_eq_false_iff, List.contains_eq_mem,
    decide_eq_false_iff_not, List.mem_cons, List.not_mem_nil, or_false, not_or] at hc
  obtain ⟨⟨⟨hbracket, hslash, hbar, hcomma, hparen, hclose⟩, hspace⟩, hoperator⟩ := hc
  have hskip : skipSpace (c :: s) = c :: s := by simp [skipSpace, hspace]
  refine ⟨⟨c, by rw [hskip]; rfl, hoperator, ?_⟩, predicate_of_head_ne ?_ expression,
    slashStep_of_no_slash ?_, barred_of_head_ne ?_⟩
  · rintro (rfl | rfl | rfl)
    · exact hcomma rfl
    · exact hparen rfl
    · exact hclose rfl
  · simpa [hskip] using hbracket
  · simpa using hslash
  · simpa [hskip] using hbar

theorem stuck_of_slash (hs : s.head? = some '/') (h : slashStep expression s = none) :
    Stuck s := by
  have hskip := skipSpace_of_slash hs
  refine ⟨⟨'/', by rw [hskip, hs], by decide, ?_⟩, predicate_of_head_ne ?_ expression, h,
    barred_of_head_ne ?_⟩
  · rintro (h | h | h) <;> cases h
  · rw [hskip, hs]
    simp
  · rw [hskip, hs]
    simp

theorem stuck_of_bracket (h : predicate expression ('[' :: s) = none) : Stuck ('[' :: s) := by
  have hskip : skipSpace ('[' :: s) = '[' :: s := rfl
  refine ⟨⟨'[', rfl, by decide, ?_⟩, h, slashStep_of_no_slash (by simp),
    barred_of_head_ne (by simp [hskip])⟩
  rintro (h | h | h) <;> cases h

theorem stuck_of_bar (hs : (skipSpace s).head? = some '|') (h : barred s = none) : Stuck s := by
  refine ⟨⟨'|', hs, by decide, ?_⟩, predicate_of_head_ne (by simp [hs]) expression,
    slashStep_of_no_slash (head_ne_of_skipSpace (by simp [hs])), h⟩
  rintro (h | h | h) <;> cases h

/-- Whatever is read off a text, the rest is stuck. -/
def Stalls (p : Reader α) (s : List Char) : Prop := ∀ a r, p s = some (a, r) → Stuck r

theorem stalls_of_none (h : p s = none) : Stalls p s := by simp [Stalls, h]

theorem Stalls.map (h : Stalls p s) (f : α → β) : Stalls (.map f p) s := by
  intro b r hb
  obtain ⟨a, ha, -⟩ := map_eq_some.mp hb
  exact h a r ha

theorem Stalls.orElse {q : Reader α} (hp : Stalls p s) (hq : Stalls q s) :
    Stalls (.orElse p q) s := by
  intro a r ha
  unfold Reader.orElse at ha
  split at ha
  · rename_i found hfound
    exact hp a r (hfound.trans ha)
  · exact hq a r ha

/-- Where a text stalls, nothing further is read in a row. -/
theorem Stalls.both_many {q : Reader β} (h : Stalls p s) (hq : ∀ r, Stuck r → q r = none) :
    Stalls (.both p (.many q)) s := by
  rintro ⟨a, more⟩ r hboth
  obtain ⟨t, ha, hmore⟩ := both_eq_some.mp hboth
  have ht := h a t ha
  rw [many_of_none (hq t ht)] at hmore
  obtain ⟨-, rfl⟩ := Prod.mk.inj (Option.some.inj hmore)
  exact ht

theorem Stalls.slashSteps_behind (h : Stalls p s) :
    Stalls (.both p (slashSteps expression)) s := by
  rintro ⟨a, more⟩ r hboth
  obtain ⟨t, ha, hmore⟩ := both_eq_some.mp hboth
  have ht := h a t ha
  rw [slashSteps_of_none ht.noStep] at hmore
  obtain ⟨-, rfl⟩ := Prod.mk.inj (Option.some.inj hmore)
  exact ht

section Steps

theorem stalls_step (h : Stalls stepHead s) : Stalls (step expression) s :=
  (h.both_many fun _ hr => hr.noPredicate).map _

theorem stalls_slashStep_of_one (hs : s.head? ≠ some '/') (h : Stalls (step expression) s) :
    Stalls (slashStep expression) ('/' :: s) := by
  intro steps r hread
  rw [slashStep_of_one hs] at hread
  obtain ⟨⟨st, u⟩, hst, he⟩ := Option.map_eq_some_iff.mp hread
  obtain ⟨-, rfl⟩ := Prod.mk.inj he
  exact h st u hst

theorem stalls_slashStep_of_two (h : Stalls (step expression) s) :
    Stalls (slashStep expression) ('/' :: '/' :: s) := by
  intro steps r hread
  rw [slashStep_of_two] at hread
  obtain ⟨⟨st, u⟩, hst, he⟩ := Option.map_eq_some_iff.mp hread
  obtain ⟨-, rfl⟩ := Prod.mk.inj he
  exact h st u hst

theorem stalls_slashSteps (hs : s.head? = some '/') (h : Stalls (slashStep expression) s) :
    Stalls (slashSteps expression) s := by
  intro steps r hread
  obtain ⟨lists, hlists, -⟩ := map_eq_some.mp hread
  rcases strict_slashStep.many_iff.mp hlists with ⟨hnone, -, rfl⟩ | ⟨_, u, rest, hfirst, hrest, -⟩
  · exact stuck_of_slash hs hnone
  · have hu := h _ u hfirst
    rw [many_of_none hu.noStep] at hrest
    obtain ⟨-, rfl⟩ := Prod.mk.inj (Option.some.inj hrest)
    exact hu

/-- Steps that are read in full stand in front of a place where steps stall. -/
theorem Stalls.slashSteps_append (hs : slashSteps expression s = some (steps, []))
    (ht : t.head? = some '/') (h : Stalls (slashSteps expression) t) :
    Stalls (slashSteps expression) (s ++ t) := by
  intro more r hread
  rw [slashSteps_append_slash hs ht] at hread
  obtain ⟨⟨found, u⟩, hfound, he⟩ := Option.map_eq_some_iff.mp hread
  obtain ⟨-, rfl⟩ := Prod.mk.inj he
  exact h found u hfound

theorem slashStep_ne_nil (h : slashStep expression s = some (steps, r)) : steps ≠ [] := by
  obtain ⟨⟨between, st⟩, -, rfl⟩ := map_eq_some.mp h
  simp

/-- A path from the document node stalls where its steps do, if there are any. -/
theorem stalls_path_of_slash (hs : s.head? = some '/') (h : Stalls (slashSteps expression) s)
    (hnone : slashStep expression s = none → Stalls (absolutePath expression) s) :
    Stalls (path expression) s := by
  intro e r hread
  have habsolute := absolutePath_of_path hs hread
  cases hfirst : slashStep expression s with
  | none => exact hnone hfirst e r habsolute
  | some found =>
    obtain ⟨first, u⟩ := found
    obtain ⟨lists, v, hlists⟩ := exists_many (slashStep expression) u
    have hsteps : slashSteps expression s = some (first ++ lists.flatten, v) :=
      map_eq_some.mpr ⟨first :: lists, by rw [strict_slashStep.many_of_some hfirst, hlists]; rfl, rfl⟩
    have hne : first ++ lists.flatten ≠ [] :=
      List.append_ne_nil_of_left_ne_nil (slashStep_ne_nil hfirst) _
    rw [absolutePath_of_slashSteps hsteps hne] at habsolute
    obtain ⟨-, rfl⟩ := Prod.mk.inj (Option.some.inj habsolute)
    exact h _ _ hsteps

theorem stalls_path_of_two (h : Stalls (slashSteps expression) ('/' :: '/' :: s)) :
    Stalls (path expression) ('/' :: '/' :: s) := by
  refine stalls_path_of_slash rfl h fun hnone => stalls_of_none ?_
  rw [slashStep_of_two, Option.map_eq_none_iff] at hnone
  simp [absolutePath_of_two, Reader.map, Reader.both, hnone]

/-- Behind one slash there need not be a step. -/
theorem stalls_path_of_one (hs : s.head? ≠ some '/')
    (h : Stalls (slashSteps expression) ('/' :: s))
    (hstuck : step expression s = none → Stuck s) : Stalls (path expression) ('/' :: s) := by
  refine stalls_path_of_slash rfl h fun hnone e r hread => ?_
  rw [slashStep_of_one hs, Option.map_eq_none_iff] at hnone
  rw [absolutePath_of_one hs] at hread
  obtain ⟨⟨first, more⟩, hboth, -⟩ := map_eq_some.mp hread
  obtain ⟨u, hfirst, hmore⟩ := both_eq_some.mp hboth
  rw [optional_of_none hnone] at hfirst
  obtain ⟨-, rfl⟩ := Prod.mk.inj (Option.some.inj hfirst)
  rw [slashSteps_of_none (slashStep_of_no_slash hs)] at hmore
  obtain ⟨-, rfl⟩ := Prod.mk.inj (Option.some.inj hmore)
  exact hstuck hnone

theorem stalls_relativePath (h : Stalls (step expression) s) :
    Stalls (relativePath expression) s := h.slashSteps_behind.map _

theorem stalls_path (hprimary : primary expression s = none)
    (h : Stalls (locationPath expression) s) : Stalls (path expression) s := by
  have hfiltered : filtered expression s = none := by
    simp [filtered, Reader.map, Reader.both, hprimary]
  exact ((stalls_of_none hfiltered).orElse h).slashSteps_behind.map _

/-- A path from the context node stalls where its steps do. -/
theorem stalls_path_of_point (hs : s.head? = some '/') (h : Stalls (slashSteps expression) s) :
    Stalls (path expression) ('.' :: s) := by
  have hstops := stops_of_slash hs
  refine stalls_path (primary_of_point hstops) ?_
  intro e r hread
  rw [locationPath_of_no_slash (by simp)] at hread
  obtain ⟨first, u, lists, hfirst, hlists, -⟩ := relativePath_iff.mp hread
  rw [step_point hstops] at hfirst
  obtain ⟨-, rfl⟩ := Prod.mk.inj (Option.some.inj hfirst)
  exact h lists.flatten r (map_eq_some.mpr ⟨lists, hlists, rfl⟩)

end Steps

section Levels

variable {x : Char} {op : BinaryOp}

theorem Stuck.head_ne (h : Stuck r) (hx : startsOperator x = true) :
    (skipSpace r).head? ≠ some x := by
  obtain ⟨c, hc, hstart, -⟩ := h.head
  rw [hc]
  rintro ⟨⟩
  simp [hx] at hstart

theorem Stuck.no_char (h : Stuck r) (hx : startsOperator x = true) :
    operatorChar op x (skipSpace r) = none := by
  simp [operatorChar, Reader.map, char_of_head_ne (h.head_ne hx)]

theorem Stuck.no_word (h : Stuck r) {word : String} (hw : word.toList.head? = some x)
    (hx : startsOperator x = true) : operatorWord op word (skipSpace r) = none := by
  simp [operatorWord, Reader.map, word_of_head_ne hw (h.head_ne hx)]

theorem Stuck.no_name (h : Stuck r) {word : String} (hw : word.toList.head? = some x)
    (hx : startsOperator x = true) : operatorName op word (skipSpace r) = none := by
  simp [operatorName, wholeWord, Reader.map, word_of_head_ne hw (h.head_ne hx)]

theorem Stalls.leftChain {operand : Reader Expr} {operator : Reader BinaryOp}
    (h : Stalls operand s) (ho : ∀ r, Stuck r → operator (skipSpace r) = none) :
    Stalls (leftChain operand operator) s :=
  (h.both_many fun r hr => by simp [Reader.both, Reader.spaced, ho r hr]).map _

/-- A text that stalls as a union and has no sign in front stalls at every level. -/
theorem stalls_expression (hs : (skipSpace s).head? ≠ some '-')
    (h : Stalls (unionExpr expression) s) : Stalls expression s := by
  have hunary : Stalls (unaryExpr expression) s := by
    refine Stalls.map (fun signed r hread => ?_) _
    obtain ⟨t, hsign, hunion⟩ := both_eq_some.mp (show _ = some ((signed.1, signed.2), r) from hread)
    rw [optional_sign_of_head_ne hs] at hsign
    obtain ⟨-, rfl⟩ := Prod.mk.inj (Option.some.inj hsign)
    exact h _ r hunion
  -- a stuck rest begins with no operator of any level
  have hmultiplicative : Stalls (multiplicativeExpr expression) s := by
    refine hunary.leftChain fun r hr => ?_
    have htimes : operatorChar .times '*' (skipSpace r) = none := hr.no_char (by decide)
    have hdivide : operatorName .divide "div" (skipSpace r) = none := hr.no_name rfl (by decide)
    have hmodulo : operatorName .modulo "mod" (skipSpace r) = none := hr.no_name rfl (by decide)
    simp [multiplicativeOp, Reader.orElse, htimes, hdivide, hmodulo]
  have hadditive : Stalls (additiveExpr expression) s := by
    refine hmultiplicative.leftChain fun r hr => ?_
    have hplus : operatorChar .plus '+' (skipSpace r) = none := hr.no_char (by decide)
    have hminus : operatorChar .minus '-' (skipSpace r) = none := hr.no_char (by decide)
    simp [additiveOp, Reader.orElse, hplus, hminus]
  have hrelational : Stalls (relationalExpr expression) s := by
    refine hadditive.leftChain fun r hr => ?_
    have hword : ∀ op word, word.toList.head? = some '<' ∨ word.toList.head? = some '>' ∨
        word.toList.head? = some '&' → operatorWord op word (skipSpace r) = none := by
      rintro op word (hw | hw | hw) <;> exact hr.no_word hw (by decide)
    have hless : operatorChar .less '<' (skipSpace r) = none := hr.no_char (by decide)
    have hgreater : operatorChar .greater '>' (skipSpace r) = none := hr.no_char (by decide)
    simp [relationalOp, Reader.orElse, hword, hless, hgreater]
  have hequality : Stalls (equalityExpr expression) s := by
    refine hrelational.leftChain fun r hr => ?_
    have hequals : operatorChar .equals '=' (skipSpace r) = none := hr.no_char (by decide)
    have hdiffers : operatorWord .notEquals "!=" (skipSpace r) = none :=
      hr.no_word rfl (by decide)
    simp [equalityOp, Reader.orElse, hequals, hdiffers]
  have hand : Stalls (andExpr expression) s :=
    hequality.leftChain fun r hr => hr.no_name rfl (by decide)
  intro e r hread
  rw [expression_eq] at hread
  exact hand.leftChain (fun r hr => hr.no_name rfl (by decide)) e r hread

theorem stalls_unionExpr (h : Stalls (.both (path expression) (.many barred)) s) :
    Stalls (unionExpr expression) s := by
  rw [unionExpr, leftChain]
  exact Stalls.map h _

theorem stalls_expression_of_path (hs : (skipSpace s).head? ≠ some '-')
    (h : Stalls (path expression) s) : Stalls expression s :=
  stalls_expression hs (stalls_unionExpr (h.both_many fun _ hr => hr.noUnion))

end Levels

end MarkupQuery.Query
