import MarkupQuery.Proofs.Query.Heads
import MarkupQuery.Proofs.Query.Primaries
import MarkupQuery.Selector.Compile

namespace MarkupQuery.Selector

open MarkupQuery.Text MarkupQuery.Query

/-- The expression for a literal: with both kinds of quotes in it, a concatenation. -/
def literalExpr (s : List Char) : Expr :=
  if !s.contains '\'' then .literal (String.ofList s)
  else if !s.contains '"' then .literal (String.ofList s)
  else .call "concat" (((splitWhere (· == '\'') s).map fun part =>
    .literal (String.ofList part)).intersperse (.literal "'"))

theorem forall₂_intersperse {α β : Type} {r : α → β → Prop} {a : α} {b : β} {as : List α}
    {bs : List β} (h : List.Forall₂ r as bs) (hab : r a b) :
    List.Forall₂ r (as.intersperse a) (bs.intersperse b) := by
  induction h with
  | nil => exact .nil
  | cons hfirst hrest ih =>
    cases hrest with
    | nil => exact .cons hfirst .nil
    | cons hsecond hmore => exact .cons hfirst (.cons hab ih)

theorem isPlain_concat : IsPlain "concat" := by decide

theorem isPlain_contains : IsPlain "contains" := by decide

theorem isPlain_normalizeSpace : IsPlain "normalize-space" := by decide

/-- The concatenation that a text with both quotes is emitted as. -/
theorem concat_eq (parts : List (List Char)) :
    "concat(".toList ++ joinWith ", \"'\", ".toList parts ++ [')'] =
      callText "concat" (parts.intersperse ['"', '\'', '"']) := by
  rw [callText, joinWith_intersperse]
  rfl

/-- The arguments of the concatenation: what stands between the apostrophes of the text, and each of
the apostrophes. -/
theorem arguments_pieces (s : List Char) : List.Forall₂ Argument
    (((splitWhere (· == '\'') s).map fun part => '\'' :: part ++ ['\'']).intersperse
      ['"', '\'', '"'])
    (((splitWhere (· == '\'') s).map fun part => .literal (String.ofList part)).intersperse
      (.literal "'")) := by
  have hparts : List.Forall₂ Argument
      ((splitWhere (· == '\'') s).map fun part => '\'' :: part ++ ['\''])
      ((splitWhere (· == '\'') s).map fun part => .literal (String.ofList part)) := by
    refine List.forall₂_map_left_iff.mpr (List.forall₂_map_right_iff.mpr ?_)
    refine List.forall₂_same.mpr fun part hpart => argument_quoted (.inl rfl) fun hmem => ?_
    have hquote := not_mem_splitWhere hpart _ hmem
    simp at hquote
  exact forall₂_intersperse hparts
    (argument_quoted (q := '"') (s := ['\'']) (.inr rfl) (by simp))

/-- A literal is read as the expression for it. -/
theorem argument_literal (s : List Char) : Argument (literal s) (literalExpr s) := by
  unfold literal literalExpr
  split
  · rename_i h
    exact argument_quoted (.inl rfl) (by simpa using h)
  split
  · rename_i h
    exact argument_quoted (.inr rfl) (by simpa using h)
  · rw [concat_eq]
    exact argument_call isPlain_concat (by decide) (arguments_pieces s)

/-- A literal is read as the expression for it, also at the end of a query. -/
theorem reads_literal (s : List Char) : Reads 10 (literal s) (literalExpr s) (literalExpr s) := by
  unfold literal literalExpr
  split
  · rename_i h
    have hquote : '\'' ∉ s := by simpa using h
    simpa [quotedText, hquote] using reads_quotedText (.inl hquote)
  split
  · rename_i happos h
    have hquote : '"' ∉ s := by simpa using h
    have hmem : '\'' ∈ s := by simpa using happos
    simpa [quotedText, hmem] using reads_quotedText (.inr hquote)
  · rw [concat_eq]
    exact reads_callText (.inl ⟨isPlain_concat, by decide⟩)
      ((arguments_pieces s).imp fun _ _ => Argument.item)

def wordExpr (test : NodeTest) (word : List Char) : Expr :=
  .call "contains" [
    .call "concat" [.literal " ", .call "normalize-space" [attributePath test], .literal " "],
    literalExpr (' ' :: word ++ [' '])]

theorem wordTest_eq (holder word : List Char) : wordTest holder word =
    callText "contains" [
      callText "concat" [['\'', ' ', '\''], callText "normalize-space" [holder], ['\'', ' ', '\'']],
      literal (' ' :: word ++ [' '])] := by
  have hstart : "contains(concat(' ', normalize-space(".toList = "contains".toList ++ '(' ::
      ("concat".toList ++ '(' :: (['\'', ' ', '\''] ++ ([',', ' '] ++
        ("normalize-space".toList ++ ['('])))) := by decide +kernel
  have hend : "), ' '), ".toList =
      ')' :: ([',', ' '] ++ (['\'', ' ', '\''] ++ (')' :: [',', ' ']))) := by decide +kernel
  unfold wordTest callText
  rw [hstart, hend]
  simp only [joinWith_eq_flatMap, List.flatMap_cons, List.flatMap_nil, List.append_assoc,
    List.cons_append, List.nil_append, List.append_nil]

theorem argument_space : Argument ['\'', ' ', '\''] (.literal " ") :=
  argument_quoted (s := [' ']) (.inl rfl) (by simp)

/-- The test for a word is read as the expression for it. -/
theorem argument_wordTest {text : List Char} {test : NodeTest} (h : TestText text test)
    (word : List Char) : Argument (wordTest ('@' :: text) word) (wordExpr test word) := by
  have hholder : Argument (callText "normalize-space" ['@' :: text])
      (.call "normalize-space" [attributePath test]) :=
    argument_call isPlain_normalizeSpace (by decide) (.cons (argument_attribute h) .nil)
  have hwords := argument_call isPlain_concat (by decide)
    (.cons argument_space (.cons hholder (.cons argument_space .nil)))
  rw [wordTest_eq]
  exact argument_call isPlain_contains (by decide)
    (.cons hwords (.cons (argument_literal _) .nil))

def Name.test (name : Name) : NodeTest :=
  if name.localName = "*" then
    match name.qualifier with
    | some qualifier => .anyIn qualifier
    | none => .any
  else .name name.qualifier name.localName

structure Name.Readable (name : Name) : Prop where
  qualifier : ∀ qualifier ∈ name.qualifier, IsPlain qualifier
  localName : name.localName = "*" ∨ IsPlain name.localName

theorem ne_star_of_isPlain {name : String} (h : IsPlain name) : name ≠ "*" := by
  rintro rfl
  exact absurd h (by decide)

theorem testText_emit {name : Name} (h : name.Readable) : TestText name.emit name.test := by
  obtain ⟨qualifier, localName⟩ := name
  obtain ⟨hqualifier, hlocal⟩ := h
  dsimp only at hqualifier hlocal
  rcases hlocal with rfl | hlocal
  · cases qualifier with
    | none => exact testText_any
    | some qualifier =>
      have hemit : Name.emit ⟨some qualifier, "*"⟩ = qualifier.toList ++ [':', '*'] := by
        simp [Name.emit]
      have htest : Name.test ⟨some qualifier, "*"⟩ = .anyIn qualifier := by simp [Name.test]
      rw [hemit, htest]
      exact testText_anyIn (hqualifier qualifier rfl)
  · rw [Name.test, if_neg (ne_star_of_isPlain hlocal)]
    cases qualifier with
    | none => exact testText_name hlocal
    | some qualifier => exact testText_qualified (hqualifier qualifier rfl) hlocal

def Filter.expr : Filter → Expr
  | .id value =>
    .binary .equals (attributePath (.name none "id")) (literalExpr value.toList)
  | .className value => wordExpr (.name none "class") value.toList
  | .attribute name .equals value =>
    .binary .equals (attributePath name.test) (literalExpr value.toList)
  | .attribute name .includes value => wordExpr name.test value.toList
  | .attribute name .contains value =>
    .call "contains" [attributePath name.test, literalExpr value.toList]

/-- The names in a filter are read in full; a star is read as any name. -/
def Filter.Legible : Filter → Prop
  | .id _ | .className _ => True
  | .attribute name _ _ => name.Readable

def Filter.Readable : Filter → Prop
  | .id _ | .className _ => True
  | .attribute name _ _ => name.Readable ∧ name.localName ≠ "*"

theorem Filter.Readable.legible {filter : Filter} (h : filter.Readable) : filter.Legible := by
  cases filter with
  | id _ | className _ => trivial
  | «attribute» name comparison value => exact h.1

theorem containsTest_eq (name : Name) (value : String) :
    (Filter.attribute name .contains value).emit =
      callText "contains" ['@' :: name.emit, literal value.toList] := by
  have hstart : "contains(".toList = "contains".toList ++ ['('] := rfl
  have hcomma : ", ".toList = [',', ' '] := rfl
  unfold Filter.emit callText
  rw [hstart, hcomma]
  simp only [joinWith_eq_flatMap, List.flatMap_cons, List.flatMap_nil, List.append_assoc,
    List.cons_append, List.nil_append, List.append_nil]

/-- A filter is read inside square brackets as its predicate. -/
theorem inner_filter {filter : Filter} (h : filter.Legible) : Inner filter.emit filter.expr := by
  cases filter with
  | id value =>
    have hname : TestText "id".toList (.name none "id") := testText_name (by decide)
    exact inner_equals hname (argument_literal _)
  | className value =>
    have hname : TestText "class".toList (.name none "class") := testText_name (by decide)
    exact (argument_wordTest hname _).inner
  | «attribute» name comparison value =>
    have hname := testText_emit h
    cases comparison with
    | equals => exact inner_equals hname (argument_literal _)
    | includes => exact (argument_wordTest hname _).inner
    | contains =>
      rw [containsTest_eq]
      exact (argument_call isPlain_contains (by decide)
        (.cons (argument_attribute hname) (.cons (argument_literal _) .nil))).inner

def Compound.test (compound : Compound) : NodeTest :=
  (compound.element.map Name.test).getD .any

def Compound.step (compound : Compound) : Step :=
  .mk .child compound.test (compound.filters.map Filter.expr)

structure Compound.Legible (compound : Compound) : Prop where
  element : ∀ name ∈ compound.element, name.Readable
  filters : ∀ filter ∈ compound.filters, filter.Legible

structure Compound.Readable (compound : Compound) : Prop where
  element : ∀ name ∈ compound.element, name.Readable
  filters : ∀ filter ∈ compound.filters, filter.Readable

theorem Compound.Readable.legible {compound : Compound} (h : compound.Readable) :
    compound.Legible := ⟨h.element, fun filter hf => (h.filters filter hf).legible⟩

/-- A compound is read as a step. -/
theorem step_compound {compound : Compound} (h : compound.Legible) :
    Query.step expression compound.emit = some (compound.step, []) := by
  obtain ⟨text, htext, hemit⟩ : ∃ text, TestText text compound.test ∧ compound.emit =
      text ++ (compound.filters.map Filter.emit).flatMap fun inner => '[' :: inner ++ [']'] := by
    obtain ⟨element, filters⟩ := compound
    cases element with
    | none => exact ⟨['*'], testText_any, by simp [Compound.emit, List.flatMap_map]⟩
    | some name =>
      exact ⟨name.emit, testText_emit (h.element name rfl),
        by simp [Compound.emit, List.flatMap_map]⟩
  have hinner : List.Forall₂ Inner (compound.filters.map Filter.emit)
      (compound.filters.map Filter.expr) :=
    List.forall₂_map_left_iff.mpr (List.forall₂_map_right_iff.mpr
      (List.forall₂_same.mpr fun filter hf => inner_filter (h.filters filter hf)))
  have hpredicates := many_predicate hinner
  have hrest : ∀ texts : List (List Char),
      Follows (texts.flatMap fun inner => '[' :: inner ++ [']']) ∧
      (texts.flatMap fun inner => '[' :: inner ++ [']']).head? ≠ some ':' := by
    intro texts
    cases texts with
    | nil => exact ⟨follows_nil, by simp⟩
    | cons inner texts => exact ⟨follows_cons (.inl rfl) _, by simp⟩
  obtain ⟨hfollows, hcolon⟩ := hrest (compound.filters.map Filter.emit)
  rw [hemit]
  exact map_eq_some.mpr ⟨((.child, compound.test), compound.filters.map Filter.expr),
    both_eq_some.mpr ⟨_, htext.stepHead hfollows hcolon, hpredicates⟩, rfl⟩

def Combinator.steps (step : Step) : Combinator → List Step
  | child => [step]
  | descendant => [Step.anywhereBelow, step]

def Branch.steps (branch : Branch) : List Step :=
  branch.flatMap fun (combinator, compound) => combinator.steps compound.step

theorem steps_ne_nil {branch : Branch} (hne : branch ≠ []) : branch.steps ≠ [] := by
  obtain ⟨⟨combinator, compound⟩, branch, rfl⟩ := List.exists_cons_of_ne_nil hne
  cases combinator <;> simp [Branch.steps, Combinator.steps]

def Branch.Legible (branch : Branch) : Prop := ∀ step ∈ branch, step.2.Legible

def Branch.Readable (branch : Branch) : Prop := ∀ step ∈ branch, step.2.Readable

theorem Branch.Readable.legible {branch : Branch} (h : branch.Readable) : branch.Legible :=
  fun step hstep => (h step hstep).legible

def emitSteps (branch : Branch) : List Char :=
  branch.flatMap fun (combinator, compound) => combinator.emit ++ compound.emit

theorem slashSteps_compound {compound : Compound} (h : compound.Legible)
    (combinator : Combinator) : slashSteps expression (combinator.emit ++ compound.emit) =
      some (combinator.steps compound.step, []) := by
  have hstep := step_compound h
  have hslash : compound.emit.head? ≠ some '/' := by
    obtain ⟨x, hx, hstart⟩ := startsStep_of_step hstep
    rw [hx]
    rintro he
    obtain rfl := Option.some.inj he
    exact absurd hstart (by decide)
  have hread : slashStep expression (combinator.emit ++ compound.emit) =
      some (combinator.steps compound.step, []) := by
    cases combinator with
    | child =>
      have hone := slashStep_of_one hslash
      rw [hstep] at hone
      exact hone
    | descendant =>
      have htwo := slashStep_of_two compound.emit
      rw [hstep] at htwo
      exact htwo
  have hend : slashStep expression [] = none := slashStep_of_no_slash (by simp)
  refine map_eq_some.mpr ⟨[combinator.steps compound.step], ?_, by simp⟩
  rw [strict_slashStep.many_of_some hread, many_of_none hend]
  rfl

theorem head_emitSteps {branch : Branch} (hne : branch ≠ []) :
    (emitSteps branch).head? = some '/' := by
  obtain ⟨⟨combinator, compound⟩, branch, rfl⟩ := List.exists_cons_of_ne_nil hne
  cases combinator <;> simp [emitSteps, Combinator.emit]

/-- A branch is read compound by compound. -/
theorem slashSteps_branch {branch : Branch} (h : branch.Legible) :
    slashSteps expression (emitSteps branch) = some (branch.steps, []) := by
  induction branch with
  | nil => exact slashSteps_of_none (slashStep_of_no_slash (by simp [emitSteps]))
  | cons step branch ih =>
    obtain ⟨hfirst, hrest⟩ := List.forall_mem_cons.mp h
    obtain ⟨combinator, compound⟩ := step
    have hread := slashSteps_compound hfirst combinator
    have hcons : emitSteps ((combinator, compound) :: branch) =
        combinator.emit ++ compound.emit ++ emitSteps branch := rfl
    rw [hcons]
    by_cases hne : branch = []
    · subst hne
      simpa [emitSteps, Branch.steps] using hread
    · rw [slashSteps_append_slash hread (head_emitSteps hne), ih hrest]
      rfl

def Anchor.path (steps : List Step) : Anchor → Expr
  | document => .absolute steps
  | context => .relative (Step.here :: steps)

/-- An emitted branch is read as a path wherever a branch ends behind it. -/
theorem operand_branch (anchor : Anchor) {branch : Branch} (h : branch.Legible)
    (hne : branch ≠ []) : Operand (emitBranch anchor branch) (anchor.path branch.steps) := by
  have hread := slashSteps_branch h
  have hhead := head_emitSteps hne
  have hsteps := steps_ne_nil hne
  have hends : ∀ t, BranchEnd t → ∃ r, skipSpace r = skipSpace t ∧
      slashSteps expression (emitSteps branch ++ t) = some (branch.steps, r) := by
    intro t ht
    obtain ⟨r, hr, happend⟩ := slashSteps_append_end hread ht
    exact ⟨r, skipSpace_eq_of_tail hr, happend⟩
  have hslash : ∀ t, (emitSteps branch ++ t).head? = some '/' := fun t => by
    obtain ⟨s, hs⟩ := List.head?_eq_some_iff.mp hhead
    rw [hs]
    rfl
  have htrimmed := slashSteps_trimEnd hread
  cases anchor with
  | document =>
    refine ⟨.inl hhead, fun t ht => ?_, path_of_slashSteps htrimmed hsteps⟩
    obtain ⟨r, hr, happend⟩ := hends t ht
    exact ⟨r, hr, path_of_slashSteps happend hsteps⟩
  | context =>
    refine ⟨.inr rfl, fun t ht => ?_, ?_⟩
    · obtain ⟨r, hr, happend⟩ := hends t ht
      exact ⟨r, hr, path_of_point (stops_of_slash (hslash t)) happend⟩
    · have hbegins : Begins (trimEnd (emitSteps branch)) := begins_trimEnd (.inl hhead)
      have hends : trimEnd (emitBranch .context branch) = '.' :: trimEnd (emitSteps branch) :=
        trimEnd_append ['.'] hbegins.ne_nil
      rw [hends]
      refine path_of_point (stops_of_slash ?_) htrimmed
      rw [head_trimEnd (Begins.head_not_blank (.inl hhead)), hhead]

theorem toList_query (anchor : Anchor) (found : List Branch) :
    (Compiled.query ⟨found.map fun branch => String.ofList (emitBranch anchor branch)⟩).toList =
      joinWith [' ', '|', ' '] (found.map (emitBranch anchor)) := by
  have htexts : (String.toList ∘ fun branch => String.ofList (emitBranch anchor branch)) =
      emitBranch anchor := by
    funext branch
    exact String.toList_ofList
  rw [Compiled.query, String.toList_intercalate, List.map_map, htexts]
  rfl

/-- A compiled selector is parsed as the union of the paths of its branches. -/
theorem parse_legible (anchor : Anchor) {first : Branch} {more : List Branch}
    (h : ∀ branch ∈ first :: more, branch.Legible ∧ branch ≠ []) :
    parse (Compiled.query ⟨(first :: more).map fun branch =>
        String.ofList (emitBranch anchor branch)⟩) =
      .ok (unionOf (anchor.path first.steps)
        (more.map fun branch => anchor.path branch.steps)) := by
  have hoperands : List.Forall₂ Operand ((first :: more).map (emitBranch anchor))
      ((first :: more).map fun branch => anchor.path branch.steps) :=
    List.forall₂_map_left_iff.mpr (List.forall₂_map_right_iff.mpr
      (List.forall₂_same.mpr fun branch hb => operand_branch anchor (h branch hb).1 (h branch hb).2))
  exact parse_of_operands hoperands (toList_query anchor (first :: more))

theorem parse_emitted (anchor : Anchor) {first : Branch} {more : List Branch}
    (h : ∀ branch ∈ first :: more, branch.Readable ∧ branch ≠ []) :
    parse (Compiled.query ⟨(first :: more).map fun branch =>
        String.ofList (emitBranch anchor branch)⟩) =
      .ok (unionOf (anchor.path first.steps)
        (more.map fun branch => anchor.path branch.steps)) :=
  parse_legible anchor fun branch hb => ⟨(h branch hb).1.legible, (h branch hb).2⟩

end MarkupQuery.Selector
