import MarkupQuery.Proofs.Query.Stalling

namespace MarkupQuery.Query

open MarkupQuery.Text

variable {s t r text bad cs : List Char} {c : Char} {name qualifier : String} {test : NodeTest}
  {texts : List (List Char)} {es : List Expr} {e : Expr}

/-- A text that stalls wherever it stands, and that is no end of arguments. -/
structure Broken (text : List Char) : Prop where
  head : ∃ c, text.head? = some c ∧ isSpace c = false ∧ c ≠ '-' ∧ c ≠ ')'
  stalls : ∀ t, Stalls expression (text ++ t)

theorem Broken.append (h : Broken text) (more : List Char) : Broken (text ++ more) := by
  obtain ⟨c, hc, hfirst⟩ := h.head
  refine ⟨⟨c, by rw [List.head?_append, hc]; rfl, hfirst⟩, fun t => ?_⟩
  rw [List.append_assoc]
  exact h.stalls _

theorem Broken.skipSpace (h : Broken text) (t : List Char) :
    Text.skipSpace (text ++ t) = text ++ t := by
  obtain ⟨c, hc, hspace, -⟩ := h.head
  obtain ⟨text, rfl⟩ := List.head?_eq_some_iff.mp hc
  simp [Text.skipSpace, hspace]

/-- A predicate that is broken inside is none. -/
theorem predicate_of_broken (h : Broken text) (t : List Char) :
    predicate expression ('[' :: (text ++ t)) = none := by
  cases hread : predicate expression ('[' :: (text ++ t)) with
  | none => rfl
  | some found =>
    obtain ⟨⟨⟨⟩, e, ⟨⟩⟩, hboth, -⟩ := map_eq_some.mp
      (show predicate expression ('[' :: (text ++ t)) = some (found.1, found.2) from hread)
    obtain ⟨u, hopen, hinner⟩ := both_eq_some.mp hboth
    obtain ⟨v, hv, hskip⟩ := spaced_eq_some.mp hopen
    obtain ⟨-, rfl⟩ := Prod.mk.inj (Option.some.inj hv)
    rw [h.skipSpace] at hskip
    subst hskip
    obtain ⟨w, he, hclose⟩ := both_eq_some.mp hinner
    have hw := h.stalls t e w he
    rw [spaced_char_of_head_ne (hw.not_closed (.inr (.inr rfl)))] at hclose
    cases hclose

section Names

structure Misread (text : List Char) : Prop where
  head : ∃ c, text.head? = some c ∧ c ≠ '.' ∧ c ≠ '@' ∧ c ≠ '/'
  noAxis : ∀ t, axis (text ++ t) = none
  stalls : ∀ t, Stalls nodeTest (text ++ t)

theorem Misread.append (h : Misread text) (more : List Char) : Misread (text ++ more) := by
  obtain ⟨c, hc, hfirst⟩ := h.head
  refine ⟨⟨c, by rw [List.head?_append, hc]; rfl, hfirst⟩, fun t => ?_, fun t => ?_⟩
  · rw [List.append_assoc]
    exact h.noAxis _
  · rw [List.append_assoc]
    exact h.stalls _

/-- No name test begins with a character that no name begins with. -/
theorem misread_of_no_start (hc : isNameStart c = false)
    (hfirst : c ≠ '*' ∧ c ≠ '.' ∧ c ≠ '@' ∧ c ≠ '/') (cs : List Char) : Misread (c :: cs) := by
  have hname : ∀ t, ∀ x ∈ (c :: cs ++ t).head?, isNameStart x = false := by
    rintro t x ⟨⟩
    exact hc
  refine ⟨⟨c, rfl, hfirst.2⟩, fun t => axis_of_no_start (hname t), fun t => stalls_of_none ?_⟩
  exact nodeTest_of_no_start (hname t) (by simpa using hfirst.1)

/-- What no name goes on with, and no test for a name either. -/
structure CutsName (c : Char) : Prop where
  inert : isInert c = true
  noNameChar : isNameChar c = false
  noOpen : c ≠ '('
  noColon : c ≠ ':'

theorem CutsName.follows (hc : CutsName c) (s : List Char) : Follows (c :: s) := by
  have hspace : isSpace c = false := by
    have := hc.inert
    simp only [isInert, Bool.not_eq_true', Bool.or_eq_false_iff] at this
    exact this.1.2
  refine ⟨?_, ?_, word_of_head_ne (show "::".toList.head? = some ':' from rfl) ?_⟩
  · rintro x ⟨⟩
    exact hc.noNameChar
  · simpa [skipSpace, hspace] using hc.noOpen
  · simpa using hc.noColon

theorem IsPlain.head_misread (h : IsPlain name) (rest : List Char) :
    ∃ c, (name.toList ++ rest).head? = some c ∧ c ≠ '.' ∧ c ≠ '@' ∧ c ≠ '/' := by
  obtain ⟨x, hx, hstart⟩ := h.head rest
  refine ⟨x, hx, ?_, ?_, ?_⟩ <;> rintro rfl <;> exact absurd hstart (by decide)

/-- A test that stops at a character that cuts a name short stalls there. -/
theorem TestText.misread (h : TestText text test) (hc : CutsName c) (cs : List Char) :
    Misread (text ++ c :: cs) where
  head := by
    obtain ⟨x, hx, hstart⟩ := h.head
    obtain ⟨text, rfl⟩ := List.head?_eq_some_iff.mp hx
    refine ⟨x, rfl, ?_⟩
    rcases hstart with hstart | rfl
    · refine ⟨?_, ?_, ?_⟩ <;> rintro rfl <;> exact absurd hstart (by decide)
    · decide
  noAxis t := by
    rw [List.append_assoc]
    exact h.noAxis _ (hc.follows _)
  stalls t := by
    rw [List.append_assoc, List.cons_append]
    intro found r hread
    rw [h.test _ (hc.follows _) (by simpa using hc.noColon)] at hread
    obtain ⟨-, rfl⟩ := Prod.mk.inj (Option.some.inj hread)
    exact stuck_of_isInert hc.inert _

/-- A colon belongs to a name only if another name or a star follows it. -/
theorem misread_of_qualifier (h : IsPlain qualifier) (hc : isNameStart c = false)
    (hfirst : c ≠ '*' ∧ c ≠ ':') (cs : List Char) :
    Misread (qualifier.toList ++ ':' :: c :: cs) where
  head := h.head_misread _
  noAxis t := by
    rw [List.append_assoc]
    exact axis_of_name h.isNameChar (follows_colon (by simpa using hfirst.2))
  stalls t := by
    have hfollows : Follows (':' :: c :: (cs ++ t)) := follows_colon (by simpa using hfirst.2)
    have hplain := plainName_append h hfollows.noNameChar
    have hlocal : plainName (c :: (cs ++ t)) = none := by simp [plainName, hc]
    have hword : Reader.word ":*" (':' :: c :: (cs ++ t)) = none := by
      simp [Reader.word, afterStart?, Ne.symm hfirst.1]
    have hname : qualifiedName (qualifier.toList ++ ':' :: c :: (cs ++ t)) =
        some ((none, qualifier), ':' :: c :: (cs ++ t)) := by
      rw [qualifiedName_of_colon hplain, hlocal]
      rfl
    intro found r hread
    rw [List.append_assoc, List.cons_append, List.cons_append] at hread
    simp [nodeTest, Reader.orElse, Reader.map, Reader.both, anyInTest, h.no_star,
      typeTest_of_name h.isNameChar hfollows, hplain, hword, hname] at hread
    rw [← hread.2]
    exact stuck_of_isInert (by decide) _

/-- No name goes on with a parenthesis, and there is no test for a node type either. -/
theorem misread_of_open (h : IsPlain name)
    (htype : ∀ t, typeTest (name.toList ++ '(' :: (cs ++ t)) = none)
    (haxis : ∀ t, axis (name.toList ++ '(' :: (cs ++ t)) = none) :
    Misread (name.toList ++ '(' :: cs) where
  head := h.head_misread _
  noAxis t := by
    rw [List.append_assoc]
    exact haxis t
  stalls t := by
    rw [List.append_assoc, List.cons_append]
    intro found r hread
    have hplain : plainName (name.toList ++ '(' :: (cs ++ t)) = some (name, '(' :: (cs ++ t)) :=
      plainName_append h (by rintro x ⟨⟩; decide)
    have hname : qualifiedName (name.toList ++ '(' :: (cs ++ t)) =
        some ((none, name), '(' :: (cs ++ t)) := qualifiedName_of_plain hplain (by simp)
    have hword : Reader.word ":*" ('(' :: (cs ++ t)) = none := rfl
    simp [nodeTest, Reader.orElse, Reader.map, Reader.both, anyInTest, h.no_star, htype, hplain,
      hword, hname] at hread
    rw [← hread.2]
    exact stuck_of_isInert (by decide) _

/-- A star is no prefix. -/
theorem misread_of_star (cs : List Char) : Misread ('*' :: ':' :: cs) where
  head := ⟨'*', rfl, by decide⟩
  noAxis t := axis_of_no_start (by rintro x ⟨⟩; decide)
  stalls t := by
    have htest : nodeTest ('*' :: ':' :: cs ++ t) = some (.any, ':' :: (cs ++ t)) := rfl
    intro found r hread
    rw [htest] at hread
    obtain ⟨-, rfl⟩ := Prod.mk.inj (Option.some.inj hread)
    exact stuck_of_isInert (by decide) _

/-- A step without an axis stalls where its node test does. -/
theorem stalls_step_of_nodeTest (hpoint : s.head? ≠ some '.') (hat : s.head? ≠ some '@')
    (haxis : axis s = none) (h : Stalls nodeTest s) : Stalls (Query.step expression) s := by
  have htwo : Reader.word ".." s = none :=
    word_of_head_ne (show "..".toList.head? = some '.' from rfl) hpoint
  have hone : Reader.word "." s = none :=
    word_of_head_ne (show ".".toList.head? = some '.' from rfl) hpoint
  have hchar : Reader.both (.char '@') nodeTest s = none := by
    rw [Reader.both, char_of_head_ne hat]
    rfl
  refine stalls_step (.orElse (.map (stalls_of_none htwo) _) (.orElse
    (.map (stalls_of_none hone) _) (.orElse ?_ (.map ?_ _))))
  · exact (stalls_of_none hchar).map _
  · rintro ⟨found, test⟩ r hread
    obtain ⟨u, hnone, htest⟩ := both_eq_some.mp hread
    rw [optional_of_none haxis] at hnone
    obtain ⟨-, rfl⟩ := Prod.mk.inj (Option.some.inj hnone)
    exact h test r htest

/-- A step to an attribute stalls where its node test does. -/
theorem stalls_step_at (h : Stalls nodeTest s) : Stalls (Query.step expression) ('@' :: s) := by
  have htwo : Reader.word ".." ('@' :: s) = none := rfl
  have hone : Reader.word "." ('@' :: s) = none := rfl
  have hstart : ∀ x ∈ ('@' :: s).head?, isNameStart x = false := by
    rintro x ⟨⟩
    decide
  have hnone : nodeTest ('@' :: s) = none := nodeTest_of_no_start hstart (by simp)
  have htest : Reader.both (.optional axis) nodeTest ('@' :: s) = none := by
    rw [both_of_some (optional_of_none (axis_of_no_start hstart)), hnone]
    rfl
  refine stalls_step (.orElse (.map (stalls_of_none htwo) _) (.orElse
    (.map (stalls_of_none hone) _) (.orElse (.map ?_ _) ?_)))
  · rintro ⟨⟨⟩, test⟩ r hread
    obtain ⟨u, hat, htest⟩ := both_eq_some.mp hread
    obtain ⟨-, rfl⟩ := Prod.mk.inj (Option.some.inj hat)
    exact h test r htest
  · exact (stalls_of_none htest).map _

theorem Misread.step (h : Misread text) (t : List Char) :
    Stalls (Query.step expression) (text ++ t) := by
  obtain ⟨c, hc, hpoint, hat, -⟩ := h.head
  obtain ⟨text, rfl⟩ := List.head?_eq_some_iff.mp hc
  exact stalls_step_of_nodeTest (by simpa using hpoint) (by simpa using hat) (h.noAxis t)
    (h.stalls t)

/-- An attribute whose name is misread breaks what it stands in. -/
theorem Misread.broken (h : Misread text) : Broken ('@' :: text) where
  head := ⟨'@', rfl, by decide⟩
  stalls t := by
    have hprimary : primary expression ('@' :: text ++ t) = none :=
      primary_of_no_start rfl (by simp [startsPrimary]; decide) expression
    refine stalls_expression_of_path (by simp [skipSpace, isSpace]) (stalls_path hprimary ?_)
    intro e r hread
    rw [locationPath_of_no_slash (by simp)] at hread
    exact stalls_relativePath (stalls_step_at (h.stalls t)) e r hread

end Names

section Calls

theorem Stuck.head_ne_close (h : Stuck r) : r.head? ≠ some ')' := by
  intro hr
  obtain ⟨r, rfl⟩ := List.head?_eq_some_iff.mp hr
  exact h.not_closed (.inr (.inl rfl)) rfl

theorem furtherArgument_of_stuck (h : Stuck r) : furtherArgument r = none := by
  have hcomma : Reader.spaced (.char ',') r = none :=
    spaced_char_of_head_ne (h.not_closed (.inl rfl))
  simp [furtherArgument, Reader.map, Reader.both, hcomma]

def brokenArguments (texts : List (List Char)) (bad : List Char) : List Char :=
  (texts.flatMap fun text => text ++ [',', ' ']) ++ bad

theorem brokenArguments_nil (bad : List Char) : brokenArguments [] bad = bad := rfl

theorem brokenArguments_cons (text : List Char) (texts : List (List Char)) (bad t : List Char) :
    brokenArguments (text :: texts) bad ++ t =
      text ++ ',' :: (' ' :: (brokenArguments texts bad ++ t)) := by
  simp [brokenArguments]

theorem many_furtherArgument_of_broken (hitems : List.Forall₂ Item texts es) (hbad : Broken bad)
    (t : List Char) {found : List Expr}
    (h : Reader.many furtherArgument ([',', ' '] ++ (brokenArguments texts bad ++ t)) =
      some (found, r)) : r.head? ≠ some ')' := by
  induction hitems generalizing found with
  | nil =>
    rw [brokenArguments_nil] at h
    rcases strict_furtherArgument.many_iff.mp h with ⟨-, -, rfl⟩ | ⟨e, u, rest, he, hrest, -⟩
    · simp
    · obtain ⟨⟨⟨⟩, e'⟩, hboth, -⟩ := map_eq_some.mp he
      obtain ⟨v, hcomma, he'⟩ := both_eq_some.mp hboth
      obtain ⟨w, hw, hskip⟩ := spaced_eq_some.mp hcomma
      obtain ⟨-, rfl⟩ := Prod.mk.inj (Option.some.inj hw)
      rw [show skipSpace ([' '].append (bad ++ t)) = skipSpace (bad ++ t) from rfl,
        hbad.skipSpace] at hskip
      subst hskip
      have hu := hbad.stalls t e' u he'
      rw [many_of_none (furtherArgument_of_stuck hu)] at hrest
      obtain ⟨-, rfl⟩ := Prod.mk.inj (Option.some.inj hrest)
      exact hu.head_ne_close
  | @cons text e texts es hfirst _ ih =>
    have hcomma := furtherArgument_of_comma hfirst (.inl rfl) (' ' :: (brokenArguments texts bad ++ t))
    rw [brokenArguments_cons, strict_furtherArgument.many_of_some hcomma] at h
    obtain ⟨⟨more, u⟩, hmore, he⟩ := Option.map_eq_some_iff.mp h
    obtain ⟨-, rfl⟩ := Prod.mk.inj he
    exact ih hmore

/-- Nothing closes arguments one of which is broken. -/
theorem separated_of_broken (hitems : List.Forall₂ Item texts es) (hbad : Broken bad)
    (t : List Char) {found : List Expr}
    (h : Reader.separated (.spaced (.char ',')) expression (brokenArguments texts bad ++ t) =
      some (found, r)) : r.head? ≠ some ')' := by
  unfold Reader.separated at h
  cases hitems with
  | nil =>
    rw [brokenArguments_nil] at h
    cases hfirst : expression (bad ++ t) with
    | none =>
      rw [hfirst] at h
      obtain ⟨-, rfl⟩ := Prod.mk.inj (Option.some.inj h)
      obtain ⟨c, hc, -, -, hclose⟩ := hbad.head
      rw [List.head?_append, hc]
      simpa using hclose
    | some read =>
      obtain ⟨first, u⟩ := read
      have hu := hbad.stalls t first u hfirst
      rw [hfirst] at h
      obtain ⟨⟨more, v⟩, hmore, he⟩ := Option.map_eq_some_iff.mp h
      obtain ⟨-, rfl⟩ := Prod.mk.inj he
      have hnone := many_of_none (furtherArgument_of_stuck hu)
      rw [show Reader.many (Reader.map Prod.snd (Reader.both (.spaced (.char ',')) expression)) u =
        some ([], u) from hnone] at hmore
      obtain ⟨-, rfl⟩ := Prod.mk.inj (Option.some.inj hmore)
      exact hu.head_ne_close
  | @cons text e texts es hfirst hmore =>
    rw [brokenArguments_cons, hfirst.reads ',' _ (.inl rfl)] at h
    obtain ⟨⟨more, u⟩, hothers, he⟩ := Option.map_eq_some_iff.mp h
    obtain ⟨-, rfl⟩ := Prod.mk.inj he
    exact many_furtherArgument_of_broken hmore hbad t hothers

structure CallName (name : String) : Prop where
  plain : IsPlain name
  noType : ∀ s, typeTest (name.toList ++ '(' :: s) = none
  noAxis : ∀ s, axis (name.toList ++ '(' :: s) = none

/-- A call that is not closed is read as a name test, which stops at the parenthesis. -/
theorem CallName.misread (h : CallName name) (cs : List Char) :
    Misread (name.toList ++ '(' :: cs) :=
  misread_of_open h.plain (fun _ => h.noType _) fun _ => h.noAxis _

theorem functionCall_of_broken (h : CallName name) (hitems : List.Forall₂ Item texts es)
    (hbad : Broken bad) (t : List Char) : functionCall expression
      (name.toList ++ '(' :: (brokenArguments texts bad ++ t)) = none := by
  have hplain : plainName (name.toList ++ '(' :: (brokenArguments texts bad ++ t)) =
      some (name, '(' :: (brokenArguments texts bad ++ t)) :=
    plainName_append h.plain (by rintro x ⟨⟩; decide)
  have hname := qualifiedName_of_plain hplain (by simp)
  have hopen : Reader.char '(' (skipSpace ('(' :: (brokenArguments texts bad ++ t))) =
      some ((), brokenArguments texts bad ++ t) := rfl
  simp only [functionCall, hname, bind, Option.bind, hopen]
  split
  · rfl
  · cases hread : Reader.separated (.spaced (.char ',')) expression
      (brokenArguments texts bad ++ t) with
    | none => rfl
    | some read =>
      have hclose := char_of_head_ne (separated_of_broken hitems hbad t hread)
      simp only [hclose]

/-- A call one of whose arguments is broken breaks what it stands in. -/
theorem broken_call (h : CallName name) (hitems : List.Forall₂ Item texts es)
    (hbad : Broken bad) : Broken (name.toList ++ '(' :: brokenArguments texts bad) where
  head := by
    obtain ⟨x, hx, hstart⟩ := h.plain.head ('(' :: brokenArguments texts bad)
    refine ⟨x, hx, isSpace_of_isNameStart hstart, ?_, ?_⟩ <;>
    rintro rfl <;> exact absurd hstart (by decide)
  stalls t := by
    rw [List.append_assoc, List.cons_append]
    obtain ⟨x, hx, hstart⟩ := h.plain.head ('(' :: (brokenArguments texts bad ++ t))
    have hsign : x ≠ '-' ∧ x ≠ '/' := by
      constructor <;> rintro rfl <;> exact absurd hstart (by decide)
    have hstep := (h.misread (brokenArguments texts bad)).step t
    have hcall := functionCall_of_broken h hitems hbad t
    rw [List.append_assoc, List.cons_append] at hstep
    obtain ⟨s, hs⟩ := List.head?_eq_some_iff.mp hx
    rw [hs] at hstep hcall ⊢
    have hskip : skipSpace (x :: s) = x :: s := by simp [skipSpace, isSpace_of_isNameStart hstart]
    refine stalls_expression_of_path (by simpa [hskip] using hsign.1)
      (stalls_path (primary_of_no_functionCall hstart hcall) ?_)
    intro e r hread
    rw [locationPath_of_no_slash (by simpa using hsign.2)] at hread
    exact stalls_relativePath hstep e r hread

theorem exists_joinWith (texts : List (List Char)) (bad : List Char) (more : List (List Char)) :
    ∃ tail, joinWith [',', ' '] (texts ++ bad :: more) = brokenArguments texts bad ++ tail := by
  induction texts with
  | nil =>
    cases more with
    | nil => exact ⟨[], by simp [joinWith, brokenArguments]⟩
    | cons text more => exact ⟨_, joinWith_cons _ _ (by simp)⟩
  | cons text texts ih =>
    obtain ⟨tail, htail⟩ := ih
    refine ⟨tail, ?_⟩
    rw [List.cons_append, joinWith_cons _ _ (by simp), htail, brokenArguments_cons]
    rfl

theorem broken_callText (h : CallName name) (hitems : List.Forall₂ Item texts es)
    (hbad : Broken bad) (more : List (List Char)) :
    Broken (callText name (texts ++ bad :: more)) := by
  obtain ⟨tail, htail⟩ := exists_joinWith texts bad more
  have htext : callText name (texts ++ bad :: more) =
      name.toList ++ '(' :: brokenArguments texts bad ++ (tail ++ [')']) := by
    simp [callText, htail]
  rw [htext]
  exact (broken_call h hitems hbad).append _

end Calls

/-!
### Words that are nearly names

Other languages have more characters in their names than queries have, but not more ASCII characters.
Where such a word stops to be a name, a query that it is written into stalls.
-/

variable {word : String}

/-- A name of a query, apart from characters outside ASCII and a minus sign in front. -/
def IsNearName (word : String) : Prop :=
  ∃ c cs, word.toList = c :: cs ∧ (isNameStart c = true ∨ c = '-' ∨ 128 ≤ c.toNat) ∧
    ∀ x ∈ cs, isNameChar x = true ∨ 128 ≤ x.toNat

theorem isInert_of_not_ascii (h : 128 ≤ c.toNat) : isInert c = true := by
  have hne : ∀ x : Char, x.toNat < 128 → c ≠ x := by
    rintro x hx rfl
    omega
  simp [isInert, startsOperator, isSpace, hne]

theorem cutsName_of_not_ascii (h : 128 ≤ c.toNat) (hc : isNameChar c = false) : CutsName c := by
  refine ⟨isInert_of_not_ascii h, hc, ?_, ?_⟩ <;> rintro rfl <;> exact absurd h (by decide)

/-- Where such a word stops to be a name: at its first character, or further on. -/
theorem IsNearName.cut (h : IsNearName word) (hn : ¬ IsPlain word) :
    (∃ c cs, word.toList = c :: cs ∧ isNameStart c = false ∧ (c = '-' ∨ 128 ≤ c.toNat)) ∨
      ∃ front c cs, IsPlain front ∧ word.toList = front.toList ++ c :: cs ∧
        isNameChar c = false ∧ 128 ≤ c.toNat := by
  obtain ⟨c, cs, hword, hc, hcs⟩ := h
  by_cases hstart : isNameStart c = true
  · refine .inr ?_
    cases hrest : cs.dropWhile isNameChar with
    | nil => exact absurd (isPlain_of_eq_cons hword hstart (List.dropWhile_eq_nil_iff.mp hrest)) hn
    | cons d ds =>
      have hsplit : cs = cs.takeWhile isNameChar ++ d :: ds := by
        rw [← hrest, List.takeWhile_append_dropWhile]
      have hd : isNameChar d = false := by
        have hnot := List.head?_dropWhile_not isNameChar cs
        rw [hrest] at hnot
        exact hnot
      have hlarge : isNameChar d = true ∨ 128 ≤ d.toNat := hcs d (by rw [hsplit]; simp)
      refine ⟨String.ofList (c :: cs.takeWhile isNameChar), d, ds, ?_, ?_, hd, ?_⟩
      · exact isPlain_of_eq_cons String.toList_ofList hstart fun x => List.mem_takeWhile_imp
      · rw [hword, String.toList_ofList, List.cons_append, ← hsplit]
      · simpa [hd] using hlarge
  · exact .inl ⟨c, cs, hword, by simpa using hstart, hc.resolve_left hstart⟩

theorem ne_of_start (hc : c = '-' ∨ 128 ≤ c.toNat) {x : Char} (hx : x.toNat < 128 ∧ x ≠ '-') :
    c ≠ x := by
  rintro rfl
  rcases hc with rfl | hc
  · exact hx.2 rfl
  · omega

theorem IsNearName.misread (h : IsNearName word) (hn : ¬ IsPlain word) : Misread word.toList := by
  rcases h.cut hn with ⟨c, cs, hword, hc, hfirst⟩ | ⟨front, c, cs, hfront, hword, hc, hlarge⟩
  · rw [hword]
    have hne := fun x => ne_of_start (x := x) hfirst
    exact misread_of_no_start hc ⟨hne '*' (by decide), hne '.' (by decide), hne '@' (by decide),
      hne '/' (by decide)⟩ cs
  · rw [hword]
    exact (testText_name hfront).misread (cutsName_of_not_ascii hlarge hc) cs

theorem IsNearName.misread_qualified (hq : IsPlain qualifier) (h : IsNearName word)
    (hn : ¬ IsPlain word) : Misread (qualifier.toList ++ ':' :: word.toList) := by
  rcases h.cut hn with ⟨c, cs, hword, hc, hfirst⟩ | ⟨front, c, cs, hfront, hword, hc, hlarge⟩
  · rw [hword]
    have hne := fun x => ne_of_start (x := x) hfirst
    exact misread_of_qualifier hq hc ⟨hne '*' (by decide), hne ':' (by decide)⟩ cs
  · have hmisread := (testText_qualified hq hfront).misread (cutsName_of_not_ascii hlarge hc) cs
    rw [hword]
    simpa using hmisread

end MarkupQuery.Query
