import MarkupQuery.Proofs.Number.Whole
import MarkupQuery.Proofs.Query.Primaries

namespace MarkupQuery.Query

open MarkupQuery.Text

variable {l : Nat} {rest text : List Char} {texts : List (List Char)} {axis : Axis}
  {test : NodeTest} {st : Step} {steps : List Step} {start : Expr}

theorem Ends.head (h : Ends l rest) :
    ∀ c ∈ rest.head?, c = ',' ∨ c = ')' ∨ c = ']' ∨ c = ' ' ∨ c = '/' ∨ c = '[' := by
  cases h with
  | nil => simp
  | close h r => rcases h with rfl | rfl | rfl <;> simp
  | operator op h r => simp
  | slash h r => simp
  | bracket h r => simp

/-- A name ends in front of such a place. -/
theorem Ends.follows (h : Ends l rest) : Follows rest where
  noNameChar c hc := by
    rcases h.head c hc with rfl | rfl | rfl | rfl | rfl | rfl <;> decide
  noOpen hc := by
    rcases h.head_skipSpace hc with hclose | ⟨op, hop⟩ | ⟨-, hslash⟩ | ⟨-, hbracket⟩
    · exact absurd hclose (by unfold Closes; decide)
    · cases op <;> simp [BinaryOp.word] at hop
    · cases hslash
    · cases hbracket
  noColons := by
    refine word_of_head_ne (show "::".toList.head? = some ':' from rfl) fun hc => ?_
    rcases h.head ':' hc with h | h | h | h | h | h <;> exact absurd h (by decide)

theorem Ends.head_ne_colon (h : Ends l rest) : rest.head? ≠ some ':' := fun hc => by
  rcases h.head ':' hc with h | h | h | h | h | h <;> exact absurd h (by decide)

/-- No step begins there. -/
theorem Ends.step (h : Ends l rest) : Query.step expression rest = none := by
  refine step_of_no_start (fun c hc => ?_) expression
  rcases h.head c hc with rfl | rfl | rfl | rfl | rfl | rfl <;> decide

theorem nodeTest_text (h : test.Printable) (hrest : Ends l rest) :
    ∃ t, (t = rest ∨ t = skipSpace rest) ∧ nodeTest (test.text ++ rest) = some (test, t) := by
  match test, h with
  | .name none localName, h =>
    exact ⟨rest, .inl rfl, (testText_name h.2).test rest hrest.follows hrest.head_ne_colon⟩
  | .name (some qualifier) localName, h =>
    exact ⟨rest, .inl rfl,
      (testText_qualified (h.1 qualifier rfl) h.2).test rest hrest.follows hrest.head_ne_colon⟩
  | .anyIn qualifier, h =>
    exact ⟨rest, .inl rfl, (testText_anyIn h).test rest hrest.follows hrest.head_ne_colon⟩
  | .any, _ => exact ⟨rest, .inl rfl, rfl⟩
  | .type kind, _ =>
    refine ⟨skipSpace rest, .inr rfl, ?_⟩
    cases kind <;> rfl

theorem axis_word (axis : Axis) (s : List Char) :
    Query.axis (axis.word.toList ++ ':' :: ':' :: s) = some (axis, s) := by
  cases axis <;> rfl

theorem isPlain_word (axis : Axis) : IsPlain axis.word := by
  cases axis <;> decide +kernel

def withAxis (axis : Axis) (s : List Char) : List Char := axis.word.toList ++ ':' :: ':' :: s

theorem withAxis_append (axis : Axis) (s t : List Char) :
    withAxis axis s ++ t = withAxis axis (s ++ t) := by
  simp [withAxis]

theorem head_withAxis_ne (axis : Axis) {c : Char} (hc : isNameStart c = false) (s : List Char) :
    (withAxis axis s).head? ≠ some c := (isPlain_word axis).head_ne hc _

theorem stepHead_withAxis {s t : List Char} (h : nodeTest s = some (test, t)) :
    stepHead (withAxis axis s) = some ((axis, test), t) := by
  have hpoint : (withAxis axis s).head? ≠ some '.' := head_withAxis_ne axis (by decide) s
  have htwo : Reader.word ".." (withAxis axis s) = none :=
    word_of_head_ne (show "..".toList.head? = some '.' from rfl) hpoint
  have hone : Reader.word "." (withAxis axis s) = none :=
    word_of_head_ne (show ".".toList.head? = some '.' from rfl) hpoint
  have hat : Reader.char '@' (withAxis axis s) = none :=
    char_of_head_ne (head_withAxis_ne axis (by decide) s)
  have haxis : Query.axis (withAxis axis s) = some (axis, s) := axis_word axis s
  generalize withAxis axis s = whole at hpoint htwo hone hat haxis ⊢
  simp [stepHead, Reader.orElse, Reader.map, Reader.both, Reader.optional, htwo, hone, hat, haxis,
    h]

/-- An axis does not begin a primary expression: no function is called by its name. -/
theorem primary_withAxis (axis : Axis) (s : List Char) :
    primary expression (withAxis axis s) = none := by
  obtain ⟨x, cs, hname, hstart, -⟩ := (isPlain_word axis).eq_cons
  have htext : withAxis axis s = x :: (cs ++ ':' :: ':' :: s) := by simp [withAxis, hname]
  have hne : ∀ c, isNameStart c = false → x ≠ c := by
    rintro c hc rfl
    simp [hstart] at hc
  have hskip : skipSpace (withAxis axis s) = withAxis axis s := by
    rw [htext]
    exact skipSpace_of_isNameChar (isNameChar_of_isNameStart hstart) _
  have hnumeral : Number.numeral? (withAxis axis s) = none := by
    refine Number.numeral_of_head ?_ (head_withAxis_ne axis (by decide) s)
    rw [htext]
    simpa using isDigit_of_isNameStart hstart
  have hliteral : stringLiteral (withAxis axis s) = none := by
    rw [htext]
    simp [stringLiteral, hne '\'' (by decide), hne '"' (by decide)]
  -- the axis could be the prefix of a function, but no name follows the first colon
  have hcall : functionCall expression (withAxis axis s) = none := by
    have hplain : plainName (withAxis axis s) = some (axis.word, ':' :: ':' :: s) :=
      plainName_append (isPlain_word axis) (by simp; decide)
    have hcolon : plainName (':' :: s) = none := rfl
    have hopen : Reader.char '(' (skipSpace (':' :: ':' :: s)) = none := rfl
    simp [functionCall, qualifiedName_of_colon hplain, hcolon, hopen]
  have hparen : parenthesized expression (withAxis axis s) = none := by
    have hopen : Reader.spaced (.char '(') (withAxis axis s) = none := by
      refine spaced_char_of_head_ne ?_
      rw [hskip]
      exact head_withAxis_ne axis (by decide) s
    simp [parenthesized, Reader.map, Reader.both, hopen]
  simp [primary, Reader.spaced, Reader.orElse, Reader.map, hskip, hnumeral, hliteral, hcall, hparen]

theorem IsPlain.stands {name : String} (h : IsPlain name) : Stands l name.toList := by
  obtain ⟨x, cs, hname, hstart, -⟩ := h.eq_cons
  have hsign : x ≠ '-' := by
    rintro rfl
    exact absurd hstart (by decide)
  have hblank : ∀ c ∈ x :: cs, isBlank c = false := fun c hc =>
    isBlank_of_isNameChar (h.isNameChar c (hname ▸ hc))
  rw [hname]
  exact .of_primary (hblank x List.mem_cons_self) hsign fun y hy => hblank y (List.mem_of_getLast? hy)

theorem NodeTest.trimmed_text (h : test.Printable) :
    ∀ x ∈ test.text.getLast?, isBlank x = false := by
  match test, h with
  | .name none localName, h => exact (h.2.stands (l := 0)).trimmed
  | .name (some qualifier) localName, h =>
    have htext := (h.2.stands (l := 0)).trimmed_append (qualifier.toList ++ [':'])
    simpa [NodeTest.text] using htext
  | .anyIn qualifier, _ =>
    have htext : (NodeTest.anyIn qualifier).text = (qualifier.toList ++ [':']) ++ ['*'] := by
      simp [NodeTest.text]
    rw [htext, List.getLast?_concat]
    simp
    rfl
  | .any, _ => simp [NodeTest.text]; rfl
  | .type kind, _ =>
    have htext : (NodeTest.type kind).text = (kind.word.toList ++ ['(']) ++ [')'] := by
      simp [NodeTest.text]
    rw [htext, List.getLast?_concat]
    simp
    rfl

/-- A text that is read as the axis and the node test of a step. -/
structure HeadText (text : List Char) (axis : Axis) (test : NodeTest) : Prop
    extends Stands 10 text where
  reads : ∀ l rest, Ends l rest → ∃ t, (t = rest ∨ t = Text.skipSpace rest) ∧
    stepHead (text ++ rest) = some ((axis, test), t)
  noSlash : text.head? ≠ some '/'

/-- A text that is read as a step wherever a path can end or go on behind it. -/
structure StepText (text : List Char) (st : Step) : Prop extends Stands 10 text where
  reads : ∀ rest, Ends 9 rest → ∃ t, (t = rest ∨ t = Text.skipSpace rest) ∧
    step expression (text ++ rest) = some (st, t)
  noSlash : text.head? ≠ some '/'

/-- Behind the axis and the node test come the predicates. -/
theorem HeadText.stepText {es : List Expr} (h : HeadText text axis test)
    (hes : List.Forall₂ Item texts es) :
    StepText (text ++ predicatesText texts) (.mk axis test es) where
  toStands := h.toStands.append (trimmed_predicatesText texts)
  reads := by
    intro rest hrest
    have hopen := head_ne_bracket hrest (Nat.le_refl _)
    obtain ⟨t, u, ht, hhead, hmany⟩ : ∃ t u, (t = rest ∨ t = Text.skipSpace rest) ∧
        stepHead (text ++ (predicatesText texts ++ rest)) = some ((axis, test), u) ∧
        Reader.many (predicate expression) u = some (es, t) := by
      -- blanks may be skipped behind the head, but there are none in front of a bracket
      cases hes with
      | nil =>
        obtain ⟨t, ht, hhead⟩ := h.reads 9 rest hrest
        refine ⟨t, t, ht, hhead, many_of_none (predicate_of_head_ne ?_ expression)⟩
        rwa [skipSpace_eq_of_tail ht]
      | @cons first e more es hfirst hmore =>
        have hinner := (List.Forall₂.cons hfirst hmore).imp fun _ _ => Item.inner
        obtain ⟨t, ht, hmany⟩ := many_predicate_append hinner hopen
        have hbracket : Ends 10 (predicatesText (first :: more) ++ rest) :=
          .bracket (Nat.le_refl _) _
        obtain ⟨u, hu, hhead⟩ := h.reads 10 _ hbracket
        obtain rfl : u = predicatesText (first :: more) ++ rest := by rcases hu with rfl | rfl <;> rfl
        exact ⟨t, _, ht, hhead, hmany⟩
    refine ⟨t, ht, ?_⟩
    rw [List.append_assoc]
    exact map_eq_some.mpr ⟨((axis, test), es), both_eq_some.mpr ⟨u, hhead, hmany⟩, rfl⟩
  noSlash := by
    rw [List.head?_append_of_ne_nil _ h.nonempty]
    exact h.noSlash

theorem headText_withAxis (axis : Axis) (h : test.Printable) :
    HeadText (withAxis axis test.text) axis test where
  toStands := by
    have htext : withAxis axis test.text = axis.word.toList ++ [':', ':'] ++ test.text := by
      simp [withAxis]
    rw [htext]
    exact ((isPlain_word axis).stands.append (by simp; rfl)).append (NodeTest.trimmed_text h)
  reads := by
    intro l rest hrest
    obtain ⟨t, ht, htest⟩ := nodeTest_text h hrest
    refine ⟨t, ht, ?_⟩
    rw [withAxis_append]
    exact stepHead_withAxis htest
  noSlash := head_withAxis_ne axis (by decide) _

/-- A step that names its axis is never read as a call. -/
structure WrittenStep (text : List Char) (st : Step) : Prop extends StepText text st where
  noPrimary : ∀ rest, primary expression (text ++ rest) = none

theorem writtenStep_withAxis {es : List Expr} (axis : Axis) (h : test.Printable)
    (hes : List.Forall₂ Item texts es) :
    WrittenStep (withAxis axis (test.text ++ predicatesText texts)) (.mk axis test es) where
  toStepText := by
    rw [← withAxis_append]
    exact (headText_withAxis axis h).stepText hes
  noPrimary rest := by
    rw [withAxis_append]
    exact primary_withAxis axis _

def slashed (texts : List (List Char)) : List Char := texts.flatMap fun text => '/' :: text

theorem slashSteps_of_some {s u : List Char} {first : List Step}
    (h : slashStep expression s = some (first, u)) :
    slashSteps expression s =
      (slashSteps expression u).map fun (more, t) => (first ++ more, t) := by
  obtain ⟨lists, t, hlists⟩ := exists_many (slashStep expression) u
  simp [slashSteps, Reader.map, strict_slashStep.many_of_some h, hlists]

/-- A step in front of others. Only behind the last one there are spaces to skip. -/
theorem StepText.before_steps (h : StepText text st) (hmore : List.Forall₂ StepText texts steps)
    (hrest : Ends 8 rest) {t : List Char} (ht : t = rest ∨ t = Text.skipSpace rest)
    (hsteps : slashSteps expression (slashed texts ++ rest) = some (steps, t)) :
    ∃ u t, (t = rest ∨ t = Text.skipSpace rest) ∧
      step expression (text ++ (slashed texts ++ rest)) = some (st, u) ∧
      slashSteps expression u = some (steps, t) := by
  cases hmore with
  | nil =>
    obtain ⟨u, hu, hread⟩ := h.reads rest (hrest.mono (by omega))
    exact ⟨u, u, hu, hread, slashSteps_of_none (slashStep_of_ends hrest (Nat.le_refl _) hu)⟩
  | cons _ _ =>
    obtain ⟨u, hu, hread⟩ := h.reads _ (.slash (Nat.le_refl _) _)
    obtain rfl : u = _ := by rcases hu with hu | hu <;> exact hu
    exact ⟨_, t, ht, hread, hsteps⟩

theorem slashSteps_slashed (h : List.Forall₂ StepText texts steps) (hrest : Ends 8 rest) :
    ∃ t, (t = rest ∨ t = skipSpace rest) ∧
      slashSteps expression (slashed texts ++ rest) = some (steps, t) := by
  induction h with
  | nil =>
    exact ⟨rest, .inl rfl, slashSteps_of_none (slashStep_of_ends hrest (Nat.le_refl _) (.inl rfl))⟩
  | @cons text st texts steps hfirst hmore ih =>
    obtain ⟨_, ht, hsteps⟩ := ih
    obtain ⟨u, t, ht, hread, hsteps⟩ := hfirst.before_steps hmore hrest ht hsteps
    have hslash : slashStep expression (slashed (text :: texts) ++ rest) = some ([st], u) := by
      have htext : slashed (text :: texts) ++ rest = '/' :: (text ++ (slashed texts ++ rest)) := by
        simp [slashed]
      have hhead : (text ++ (slashed texts ++ rest)).head? ≠ some '/' := by
        rw [List.head?_append_of_ne_nil _ hfirst.nonempty]
        exact hfirst.noSlash
      rw [htext, slashStep_of_one hhead, hread]
      rfl
    exact ⟨t, ht, by rw [slashSteps_of_some hslash, hsteps]; rfl⟩

theorem joinWith_slash (first : List Char) (more : List (List Char)) :
    joinWith ['/'] (first :: more) = first ++ slashed more := joinWith_eq_flatMap ['/'] first more

theorem trimmed_slashed (h : List.Forall₂ StepText texts steps) :
    ∀ x ∈ (slashed texts).getLast?, isBlank x = false := by
  induction h with
  | nil => simp [slashed]
  | @cons text st texts steps hfirst _ ih =>
    have htext : slashed (text :: texts) = '/' :: text ++ slashed texts := rfl
    have hslash : Stands 0 ('/' :: text) :=
      .of_primary rfl (by decide) (hfirst.toStands.trimmed_append ['/'])
    rw [htext]
    exact (hslash.append ih).trimmed

/-- Steps with slashes between them are a path from the context node. -/
theorem reads_relative (h : List.Forall₂ WrittenStep texts steps) (hne : steps ≠ []) :
    Reads 8 (joinWith ['/'] texts) (.relative steps) (.relative steps) := by
  cases h with
  | nil => exact absurd rfl hne
  | @cons text st texts steps hfirst hwritten =>
    have hmore := hwritten.imp fun _ _ => WrittenStep.toStepText
    rw [joinWith_slash]
    refine { (hfirst.toStands.mono (by omega)).append (trimmed_slashed hmore) with
      reads := fun rest hrest => ?_ }
    obtain ⟨_, ht, hsteps⟩ := slashSteps_slashed hmore hrest
    obtain ⟨u, t, ht, hread, hsteps⟩ := hfirst.toStepText.before_steps hmore hrest ht hsteps
    have hslash : (text ++ (slashed texts ++ rest)).head? ≠ some '/' := by
      rw [List.head?_append_of_ne_nil _ hfirst.nonempty]
      exact hfirst.noSlash
    have hlocation : locationPath expression (text ++ (slashed texts ++ rest)) =
        some (.relative (st :: steps), t) := by
      rw [locationPath_of_no_slash hslash]
      exact map_eq_some.mpr ⟨(st, steps), both_eq_some.mpr ⟨u, hread, hsteps⟩, rfl⟩
    refine ⟨t, ht, ?_⟩
    rw [ite_self, List.append_assoc]
    exact path_of_locationPath (hfirst.noPrimary _) hlocation
      (slashStep_of_ends hrest (Nat.le_refl _) ht)

/-- Steps behind slashes are a path from the document node, and so is a slash alone. -/
theorem reads_absolute (h : List.Forall₂ StepText texts steps) :
    Reads 8 ('/' :: joinWith ['/'] texts) (.absolute steps) (.absolute steps) := by
  cases h with
  | nil =>
    have hstands : Stands 8 ['/'] := .of_primary rfl (by decide) (by simp; rfl)
    refine { hstands with reads := fun rest hrest => ⟨rest, .inl rfl, ?_⟩ }
    have hnone : slashStep expression rest = none :=
      slashStep_of_ends hrest (Nat.le_refl _) (.inl rfl)
    have hhead : rest.head? ≠ some '/' :=
      head_ne_of_skipSpace (head_ne_slash hrest (Nat.le_refl _))
    have hlocation : locationPath expression ('/' :: rest) = some (.absolute [], rest) := by
      rw [locationPath_of_slash rfl, absolutePath_of_one hhead]
      exact map_eq_some.mpr ⟨(none, []), both_eq_some.mpr
        ⟨rest, optional_of_none hrest.step, slashSteps_of_none hnone⟩, rfl⟩
    rw [ite_self]
    exact path_of_locationPath (primary_of_slash rfl) hlocation hnone
  | @cons text st texts steps hfirst hmore =>
    have htext : '/' :: joinWith ['/'] (text :: texts) = slashed (text :: texts) := by
      rw [joinWith_slash]
      rfl
    have hslash : Stands 8 ('/' :: text) :=
      .of_primary rfl (by decide) (hfirst.toStands.trimmed_append ['/'])
    rw [htext]
    refine { hslash.append (trimmed_slashed hmore) with reads := fun rest hrest => ?_ }
    obtain ⟨t, ht, hsteps⟩ := slashSteps_slashed (.cons hfirst hmore) hrest
    exact ⟨t, ht, by rw [ite_self]; exact path_of_slashSteps hsteps (by simp)⟩

/-- Steps behind an expression that is no path continue it. -/
theorem Reads.continued {last : Expr} (hstart : Reads 9 text start last)
    (hpath : start.isPath = false) (h : List.Forall₂ StepText texts steps) (hne : steps ≠ []) :
    Reads 8 (text ++ '/' :: joinWith ['/'] texts) (.continued start steps)
      (.continued start steps) := by
  have htext : '/' :: joinWith ['/'] texts = slashed texts := by
    cases h with
    | nil => exact absurd rfl hne
    | cons _ _ => rw [joinWith_slash]; rfl
  rw [htext]
  refine { (hstart.toStands.mono (by omega)).append (trimmed_slashed h) with
    reads := fun rest hrest => ?_ }
  obtain ⟨t, ht, hsteps⟩ := slashSteps_slashed h hrest
  have hends : Ends 9 (slashed texts ++ rest) := by
    rw [← htext]
    exact .slash (Nat.le_refl _) _
  -- a slash follows, so no blank is skipped and `last` does not count
  obtain ⟨u, hu, hread⟩ := hstart.reads _ hends
  have hfiltered : filtered expression (text ++ (slashed texts ++ rest)) =
      some (start, slashed texts ++ rest) := by
    rw [← htext] at hu hread ⊢
    obtain rfl : u = _ := by rcases hu with hu | hu <;> exact hu
    exact hread
  have hcontinue : start.continueBy steps = .continued start steps := by
    cases start <;> simp_all [Expr.continueBy, Expr.isPath]
  have hor : Reader.orElse (filtered expression) (locationPath expression)
      (text ++ (slashed texts ++ rest)) = some (start, slashed texts ++ rest) := by
    simp [Reader.orElse, hfiltered]
  have hpath : path expression (text ++ (slashed texts ++ rest)) =
      some (.continued start steps, t) :=
    map_eq_some.mpr ⟨(start, steps), both_eq_some.mpr ⟨_, hor, hsteps⟩, hcontinue⟩
  refine ⟨t, ht, ?_⟩
  rw [ite_self, List.append_assoc]
  exact hpath

/-!
### Paths in abbreviated form

Nothing is written for the child axis and an at sign for the attribute axis, and a whole number in
brackets asks for a position.
-/

variable {n : Nat}

theorem axis_text (h : test.Printable) (hrest : Ends l rest) :
    Query.axis (test.text ++ rest) = none := by
  match test, h with
  | .name none localName, h => exact (testText_name h.2).noAxis rest hrest.follows
  | .name (some qualifier) localName, h =>
    exact (testText_qualified (h.1 qualifier rfl) h.2).noAxis rest hrest.follows
  | .anyIn qualifier, h => exact (testText_anyIn h).noAxis rest hrest.follows
  | .any, _ => exact testText_any.noAxis rest hrest.follows
  | .type kind, _ => cases kind <;> rfl

theorem head_text (h : test.Printable) (rest : List Char) :
    ∃ c, (test.text ++ rest).head? = some c ∧ (isNameStart c = true ∨ c = '*') := by
  have hplain : ∀ {name : String}, IsPlain name → ∀ s : List Char,
      ∃ c, (name.toList ++ s).head? = some c ∧ (isNameStart c = true ∨ c = '*') := by
    intro name hname s
    obtain ⟨c, hc, hstart⟩ := hname.head s
    exact ⟨c, hc, .inl hstart⟩
  match test, h with
  | .name none localName, h => exact hplain h.2 rest
  | .name (some qualifier) localName, h =>
    rw [NodeTest.text, List.append_assoc]
    exact hplain (h.1 qualifier rfl) _
  | .anyIn qualifier, h =>
    rw [NodeTest.text, List.append_assoc]
    exact hplain h _
  | .any, _ => exact ⟨'*', rfl, .inr rfl⟩
  | .type kind, _ => cases kind <;> exact ⟨_, rfl, .inl (by decide +kernel)⟩

theorem stands_text (h : test.Printable) : Stands l test.text := by
  obtain ⟨c, hc, hstart⟩ := head_text h []
  rw [List.append_nil] at hc
  obtain ⟨cs, hcs⟩ := List.head?_eq_some_iff.mp hc
  have hblank : Text.isBlank c = false := by
    rcases hstart with hstart | rfl
    · exact isBlank_of_isNameChar (isNameChar_of_isNameStart hstart)
    · rfl
  have hsign : c ≠ '-' := by
    rintro rfl
    rcases hstart with hstart | hstart
    · exact absurd hstart (by decide)
    · exact absurd hstart (by decide)
  have htrimmed := NodeTest.trimmed_text h
  rw [hcs] at htrimmed ⊢
  exact .of_primary hblank hsign htrimmed

/-- A node test alone is for children. -/
theorem headText_child (h : test.Printable) : HeadText test.text .child test where
  toStands := stands_text h
  reads := by
    intro l rest hrest
    obtain ⟨t, ht, htest⟩ := nodeTest_text h hrest
    obtain ⟨c, hc, hstart⟩ := head_text h rest
    exact ⟨t, ht, stepHead_of_nodeTest hc hstart (axis_text h hrest) htest⟩
  noSlash := by
    obtain ⟨c, hc, hstart⟩ := head_text h []
    rw [List.append_nil] at hc
    rintro hslash
    obtain rfl := Option.some.inj (hc.symm.trans hslash)
    exact absurd hstart (by decide)

/-- A node test behind an at sign is for attributes. -/
theorem headText_attribute (h : test.Printable) : HeadText ('@' :: test.text) .attribute test where
  toStands := .of_primary rfl (by decide) ((stands_text (l := 0) h).trimmed_append ['@'])
  reads := by
    intro l rest hrest
    obtain ⟨t, ht, htest⟩ := nodeTest_text h hrest
    exact ⟨t, ht, stepHead_at_of_nodeTest htest⟩
  noSlash := by simp

def Numeral.ofNat (n : Nat) : Numeral where
  whole := Nat.toDigits 10 n
  fraction := []
  whole_digits _ hc := Nat.isDigit_of_mem_toDigits (by decide) (by decide) hc
  fraction_digits := digits_nil
  nonempty := .inl Nat.toDigits_ne_nil

theorem Numeral.text_ofNat (n : Nat) : (Numeral.ofNat n).text = (toString n).toList := by
  rw [Nat.toString_eq_repr, Nat.toList_repr]
  simp [Numeral.text, Numeral.ofNat]

theorem Numeral.value_ofNat (hn : n < 2 ^ 53) (hpos : 0 < n) :
    (Numeral.ofNat n).value = Float.ofNat n := by
  have hdigits : Number.digitsValue (Nat.toDigits 10 n) = n := by
    have hread := Nat.ofDigitChars_toDigits (b := 10) (n := n) (by decide) (by decide)
    rwa [Nat.ofDigitChars_eq_foldl] at hread
  rw [← Number.nearest_whole hn hpos]
  show Number.nearest (Number.digitsValue (Nat.toDigits 10 n ++ [])) 1 = _
  rw [List.append_nil, hdigits]

/-- A whole number between brackets is read as a numeral. -/
theorem item_ofNat (n : Nat) : Item (toString n).toList (.number (Numeral.ofNat n).value) := by
  have hreads := (reads_numeral (Numeral.ofNat n)).lower (Nat.zero_le _) (Nat.le_refl _)
  rw [Numeral.text_ofNat] at hreads
  exact hreads.item

/-- It stands for the number, as long as that is not rounded. -/
theorem item_position (hn : n < 2 ^ 53) (hpos : 0 < n) :
    Item (toString n).toList (.number (Float.ofNat n)) :=
  Numeral.value_ofNat hn hpos ▸ item_ofNat n

end MarkupQuery.Query
