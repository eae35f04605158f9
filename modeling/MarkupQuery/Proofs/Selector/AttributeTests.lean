import MarkupQuery.Proofs.Selector.Acceptance

namespace MarkupQuery.Selector

open MarkupQuery.Text MarkupQuery.Query MarkupQuery.Tree MarkupQuery.Tree.Document

def Filter.attributeName : Filter → Name
  | .id _ => ⟨none, "id"⟩
  | .className _ => ⟨none, "class"⟩
  | .attribute name _ _ => name

def Filter.wanted : Filter → String
  | .id value | .className value | .attribute _ _ value => value

def Filter.Searches : Filter → Prop
  | .className _ | .attribute _ .includes _ | .attribute _ .contains _ => True
  | _ => False

def Name.value? (bindings : Bindings) (name : Name) (element : Element) : Option String :=
  (name.values bindings element).head?

/-- What a filter promises of the elements that pass it: that they have the attribute, and that
its value is the text, has it among its words or contains it. -/
def Filter.Promised (bindings : Bindings) (element : Element) : Filter → Prop
  | .id value => value ∈ Name.values bindings ⟨none, "id"⟩ element
  | .className word => ∃ value ∈ Name.value? bindings ⟨none, "class"⟩ element,
      word.toList ∈ spacedWords value.toList
  | .attribute name .equals value => value ∈ name.values bindings element
  | .attribute name .includes word => ∃ value ∈ name.value? bindings element,
      word.toList ∈ spacedWords value.toList
  | .attribute name .contains part => ∃ value ∈ name.value? bindings element,
      part.toList <:+: value.toList

/-- Where a filter does not ask for what it promises. A missing attribute counts as an empty
value. -/
def Filter.Strays (bindings : Bindings) (element : Element) : Filter → Prop
  | .className word =>
    WordStrays (Name.value bindings ⟨none, "class"⟩ element).toList word.toList
  | .attribute name .includes word => WordStrays (name.value bindings element).toList word.toList
  | .attribute name .contains part => part = "" ∧ name.value? bindings element = none
  | _ => False

section Filters

variable {bindings : Bindings} {name : Name} {element : Element} {filter : Filter}

theorem Name.value_eq : name.value bindings element = (name.value? bindings element).getD "" := rfl

/-- No word is among those of a value that is not there. -/
theorem exists_spacedWord_iff (word : List Char) :
    (∃ value ∈ name.value? bindings element, word ∈ spacedWords value.toList) ↔
      word ∈ spacedWords (name.value bindings element).toList := by
  rw [Name.value_eq]
  cases name.value? bindings element with
  | some value => simp
  | none => simp [spacedWords, splitWhere]

theorem exists_part_iff (part : String) :
    ((part.toList <:+: (name.value bindings element).toList) ↔
        ∃ value ∈ name.value? bindings element, part.toList <:+: value.toList) ↔
      ¬ (part = "" ∧ name.value? bindings element = none) := by
  rw [Name.value_eq]
  cases name.value? bindings element with
  | some value => simp
  | none => simp [List.infix_nil]

/-- A filter asks for what it promises unless it strays. -/
theorem holds_iff_promised : (filter.Holds bindings element ↔ filter.Promised bindings element) ↔
    ¬ filter.Strays bindings element := by
  cases filter with
  | id value => simp [Filter.Holds, Filter.Promised, Filter.Strays]
  | className word =>
    rw [Filter.Holds, Filter.Promised, Filter.Strays, exists_spacedWord_iff]
    exact hasWord_iff_mem_spacedWords
  | «attribute» name comparison value =>
    cases comparison with
    | equals => simp [Filter.Holds, Filter.Promised, Filter.Strays]
    | includes =>
      rw [Filter.Holds, Filter.Promised, Filter.Strays, exists_spacedWord_iff]
      exact hasWord_iff_mem_spacedWords
    | contains =>
      rw [Filter.Holds, Filter.Promised, Filter.Strays]
      exact exists_part_iff value

theorem hasWord_nil (word : List Char) : HasWord [] word ↔ word = [] := by
  have hwords : words [] = [] := rfl
  rw [HasWord, hwords]
  split
  · rename_i hword
    simp [hword]
  · rename_i hword
    simp [hword, splitWhere_ne_nil]

/-- Without the attribute, a filter that looks for a text holds if the text is empty. -/
theorem holds_iff_of_missing (hs : filter.Searches)
    (h : filter.attributeName.values bindings element = []) :
    filter.Holds bindings element ↔ filter.wanted = "" := by
  cases filter with
  | id value => exact hs.elim
  | className word =>
    have hvalue : Name.value bindings ⟨none, "class"⟩ element = "" := by
      rw [Name.value]; exact congrArg (·.head?.getD "") h
    rw [Filter.Holds, hvalue]
    simp [hasWord_nil, Filter.wanted]
  | «attribute» name comparison value =>
    have hvalue : name.value bindings element = "" := by
      rw [Name.value]; exact congrArg (·.head?.getD "") h
    cases comparison with
    | equals => exact hs.elim
    | includes =>
      rw [Filter.Holds, hvalue]
      simp [hasWord_nil, Filter.wanted]
    | contains =>
      rw [Filter.Holds, hvalue]
      simp [List.infix_nil, Filter.wanted]

theorem qualifiers_name (name : Name) : name.test.qualifiers = name.qualifier.toList := by
  unfold Name.test
  split <;> cases name.qualifier <;> rfl

/-- The only prefix in a filter is that of its attribute. -/
theorem qualifiers_expr (filter : Filter) :
    filter.expr.qualifiers = filter.attributeName.qualifier.toList := by
  cases filter with
  | id value =>
    simp [Filter.expr, Expr.qualifiers, qualifiers_attributePath, qualifiers_literal,
      NodeTest.qualifiers, Filter.attributeName]
  | className word =>
    rw [Filter.expr, qualifiers_wordExpr]
    simp [NodeTest.qualifiers, Filter.attributeName]
  | «attribute» name comparison value =>
    cases comparison with
    | equals =>
      simp [Filter.expr, Expr.qualifiers, qualifiers_attributePath, qualifiers_literal,
        qualifiers_name, Filter.attributeName]
    | includes =>
      rw [Filter.expr, qualifiers_wordExpr, qualifiers_name, Filter.attributeName]
    | contains =>
      simp [Filter.expr, Expr.qualifiers, listQualifiers, qualifiers_attributePath,
        qualifiers_literal, qualifiers_name, Filter.attributeName]

theorem Filter.bound_iff : filter.Bound bindings ↔ filter.attributeName.Bound bindings := by
  cases filter <;> simp [Filter.Bound, Filter.attributeName, Name.Bound]

theorem Filter.readable_iff :
    filter.Readable ↔ filter.Legible ∧ filter.attributeName.localName ≠ "*" := by
  cases filter <;> simp [Filter.Readable, Filter.Legible, Filter.attributeName]

theorem Filter.legible_token : filter.token.Legible ↔ filter.Legible := by
  cases filter <;> rfl

end Filters

section Selection

variable {s : Setting} {context : Site} {selector : String} {filter : Filter} {offset : Nat}

def Filter.branch (filter : Filter) : Branch := [(.descendant, ⟨none, [filter]⟩)]

theorem spells_filter (filter : Filter) : Spells [filter.branch] [filter.token] := by
  refine ⟨by simp, ?_, ?_⟩
  · intro branch hbranch
    obtain rfl := List.mem_singleton.mp hbranch
    refine ⟨⟨_, _, rfl⟩, fun step hstep => ?_⟩
    obtain rfl := List.mem_singleton.mp hstep
    simp [Compound.tokens]
  · simp [Filter.branch, Branch.tokens, stepTokens, Compound.tokens]

theorem compile_filter (ht : tokenize selector = .ok [⟨filter.token, offset⟩]) (anchor : Anchor) :
    compile anchor selector = .ok ⟨[String.ofList (emitBranch anchor filter.branch)]⟩ := by
  have hfound : branches selector [⟨filter.token, offset⟩] = .ok [filter.branch] :=
    branches_iff_spells.mpr (spells_filter filter)
  simp [compile, ht, hfound, bind, Except.bind, pure, Except.pure]

theorem branch_legible (h : filter.Legible) : filter.branch.Legible := by
  intro step hstep
  obtain rfl := List.mem_singleton.mp hstep
  exact ⟨by simp, by simpa using h⟩

theorem parse_filter (h : filter.Legible) (anchor : Anchor) :
    Query.parse (Compiled.query ⟨[String.ofList (emitBranch anchor filter.branch)]⟩) =
      .ok (anchor.path filter.branch.steps) := by
  refine @parse_legible anchor filter.branch [] fun branch hbranch => ?_
  obtain rfl := List.mem_singleton.mp hbranch
  exact ⟨branch_legible h, by simp [Filter.branch]⟩

theorem unbound_filter (anchor : Anchor) :
    unbound? s.bindings (anchor.path filter.branch.steps) = none ↔ filter.Bound s.bindings := by
  have hqualifiers : (anchor.path filter.branch.steps).qualifiers =
      filter.attributeName.qualifier.toList := by
    rw [← qualifiers_expr]
    cases anchor <;>
      simp [Anchor.path, Filter.branch, Branch.steps, Combinator.steps, Compound.step,
        Compound.test, Expr.qualifiers, stepsQualifiers, Step.qualifiers, Step.anywhereBelow,
        Step.here, NodeTest.qualifiers, listQualifiers]
  rw [unbound?_eq_none, hqualifiers, Filter.bound_iff, Name.Bound]
  simp

/-- A filter matches the elements that are what it asks for, wherever a chain may start. -/
theorem matches_filter {doc : Document} {bindings : Bindings} {anchor : Anchor} {id : NodeId}
    {element : Element} (he : doc.payload id = .element element) :
    filter.branch.Matches doc bindings anchor context id ↔
      anchor.Admits doc context id ∧ filter.Holds bindings element := by
  rw [Filter.branch, Branch.Matches]
  constructor
  · rintro ⟨first, hadmits, ⟨found, hfound, -, hfilters⟩, rfl⟩
    obtain rfl := Payload.element.inj (he.symm.trans hfound)
    exact ⟨hadmits, hfilters filter (List.mem_singleton_self _)⟩
  · rintro ⟨hadmits, hholds⟩
    exact ⟨id, hadmits, ⟨element, he, by simp, by simpa using hholds⟩, rfl⟩

theorem evaluate_filter (hd : s.source.document.Reachable) (hroot : s.root = .document)
    (hr : filter.Readable) (hb : filter.Bound s.bindings) (anchor : Anchor) :
    ∃ sites, evaluate s { site := context } (anchor.path filter.branch.steps) = .ok (.nodes sites) ∧
      ∀ id element, s.source.document.payload id = .element element →
        anchor.Admits s.source.document context id →
          (.node id ∈ sites ↔ filter.Holds s.bindings element) := by
  have hgrouped := (spells_filter filter).grouped _ (List.mem_singleton_self _)
  have hreadable : filter.branch.Readable := by
    intro step hstep
    obtain rfl := List.mem_singleton.mp hstep
    exact ⟨by simp, by simpa using hr⟩
  have hbound : filter.branch.Bound s.bindings := by
    intro step hstep
    obtain rfl := List.mem_singleton.mp hstep
    exact ⟨by simp, by simpa using hb⟩
  obtain ⟨sites, hsites, hmem⟩ :=
    evaluate_branch hd.forest hroot hgrouped hreadable hbound anchor context
  refine ⟨sites, hsites, fun id element he hadmits => ?_⟩
  rw [hmem]
  constructor
  · rintro ⟨other, heq, hmatches⟩
    obtain rfl : id = other := congrArg Site.id heq
    exact ((matches_filter he).mp hmatches).2
  · intro hholds
    exact ⟨id, rfl, (matches_filter he).mpr ⟨hadmits, hholds⟩⟩

theorem select_filter {sites : List Site} (h : filter.Legible) (hb : filter.Bound s.bindings)
    (anchor : Anchor)
    (he : evaluate s { site := context } (anchor.path filter.branch.steps) = .ok (.nodes sites)) :
    select s context (Compiled.query ⟨[String.ofList (emitBranch anchor filter.branch)]⟩) =
      .ok sites :=
  select_eq_ok.mpr ⟨_, parse_filter h anchor, (unbound_filter anchor).mpr hb, he⟩

/-- A selector that is one filter selects elements if the name of the attribute can be read in
queries and its prefix is bound. Among the elements that the anchor admits these are the ones that
the filter promises, except where it strays. Without the attribute, an element is selected if and
only if the text that is looked for is empty. -/
theorem select_attributeTest (hd : s.source.document.Reachable) (hroot : s.root = .document)
    (ht : tokenize selector = .ok [⟨filter.token, offset⟩])
    (hstar : filter.attributeName.localName ≠ "*") (anchor : Anchor) :
    ∃ compiled, compile anchor selector = .ok compiled ∧
      ((∃ sites, select s context compiled.query = .ok sites) ↔
        filter.Legible ∧ filter.Bound s.bindings) ∧
      ∀ sites, select s context compiled.query = .ok sites → ∀ id element,
        s.source.document.payload id = .element element →
        anchor.Admits s.source.document context id →
          ((.node id ∈ sites ↔ filter.Promised s.bindings element) ↔
            ¬ filter.Strays s.bindings element) ∧
          (filter.Searches → filter.attributeName.values s.bindings element = [] →
            (.node id ∈ sites ↔ filter.wanted = "")) := by
  have hc := compile_filter ht anchor
  -- a selector whose query is answered is legible, and its prefixes are bound
  have hselect : ∀ sites, select s context
      (Compiled.query ⟨[String.ofList (emitBranch anchor filter.branch)]⟩) = .ok sites →
        filter.Legible ∧ filter.Bound s.bindings ∧
          evaluate s { site := context } (anchor.path filter.branch.steps) = .ok (.nodes sites) := by
    intro sites hsites
    obtain ⟨e, hparse, hbound, hevaluate⟩ := select_eq_ok.mp hsites
    have hlegible : filter.Legible :=
      Filter.legible_token.mp (legible_of_parse hc ht hparse _ (List.mem_singleton_self _))
    obtain rfl := Except.ok.inj (hparse.symm.trans (parse_filter hlegible anchor))
    exact ⟨hlegible, (unbound_filter anchor).mp hbound, hevaluate⟩
  refine ⟨_, hc, ⟨?_, ?_⟩, ?_⟩
  · rintro ⟨sites, hsites⟩
    obtain ⟨hlegible, hbound, -⟩ := hselect sites hsites
    exact ⟨hlegible, hbound⟩
  · rintro ⟨hlegible, hbound⟩
    obtain ⟨sites, hsites, -⟩ := evaluate_filter hd hroot
      (Filter.readable_iff.mpr ⟨hlegible, hstar⟩) hbound anchor
    exact ⟨sites, select_filter hlegible hbound anchor hsites⟩
  · intro sites hsites id element he hadmits
    obtain ⟨hlegible, hbound, hevaluate⟩ := hselect sites hsites
    obtain ⟨found, hfound, hmem⟩ := evaluate_filter hd hroot
      (Filter.readable_iff.mpr ⟨hlegible, hstar⟩) hbound anchor
    obtain rfl := Value.nodes.inj (Except.ok.inj (hevaluate.symm.trans hfound))
    rw [hmem id element he hadmits]
    exact ⟨holds_iff_promised, fun hs hmissing => holds_iff_of_missing hs hmissing⟩

end Selection

def classedElement : Element :=
  { name := "c", attributes := [{ name := "class", value := "x y" }] }

/-- The element with the class `y` among its classes is selected, as the test promises; an element
without classes is not. -/
theorem select_attributeTest_classed : classedSetting.source.document.Reachable ∧
    tokenize "[class~='y']" = .ok [⟨.attribute ⟨none, "class"⟩ .includes "y", 0⟩] ∧
    ∃ compiled sites, compile .document "[class~='y']" = .ok compiled ∧
      select classedSetting .document compiled.query = .ok sites ∧
      .node 3 ∈ sites ∧ .node 1 ∉ sites := by
  have hd : classedSetting.source.document.Reachable := reachable_classed
  have hvalues : tokenize "[class~='y']" =
        .ok [⟨Filter.token (.attribute ⟨none, "class"⟩ .includes "y"), 0⟩] ∧ IsPlain "class" ∧
      classed.payload 3 = .element classedElement ∧ classed.payload 1 = .element { name := "a" } ∧
      classed.isAttached 3 ∧ classed.isAttached 1 ∧
      Name.values classedSetting.bindings ⟨none, "class"⟩ classedElement = ["x y"] ∧
      ['y'] ∈ spacedWords "x y".toList ∧ ¬ WordStrays "x y".toList ['y'] := by decide +kernel
  obtain ⟨ht, hplain, hclassed, hbare, hthree, hone, hclasses, hword, hstrays⟩ := hvalues
  obtain ⟨compiled, hc, hselectable, hselected⟩ :=
    @select_attributeTest classedSetting .document _ _ _ hd rfl ht (by decide) .document
  obtain ⟨sites, hsites⟩ := hselectable.mpr
    ⟨⟨by simp, .inr hplain⟩, by simp [Filter.Bound, Name.Bound]⟩
  refine ⟨hd, ht, compiled, sites, hc, hsites, ?_, fun hmem => ?_⟩
  · have hpromised := (hselected sites hsites 3 classedElement hclassed hthree).1.mpr ?_
    · exact hpromised.mpr ⟨"x y", by rw [Name.value?, hclasses]; rfl, hword⟩
    · rw [Filter.Strays, Name.value, hclasses]
      exact hstrays
  · have hempty := ((hselected sites hsites 1 _ hbare hone).2 trivial rfl).mp hmem
    exact absurd hempty (by decide)

/-- The test for the empty word selects an element that does not have the attribute. -/
theorem empty_word_selects : ∃ compiled sites, compile .document "[class~='']" = .ok compiled ∧
    select classedSetting .document compiled.query = .ok sites ∧
    .node 1 ∈ sites ∧ classed.attributes 1 = [] := by
  have hvalues : tokenize "[class~='']" =
        .ok [⟨Filter.token (.attribute ⟨none, "class"⟩ .includes ""), 0⟩] ∧ IsPlain "class" ∧
      classed.payload 1 = .element { name := "a" } ∧ classed.isAttached 1 ∧
      classed.attributes 1 = [] := by decide +kernel
  obtain ⟨ht, hplain, hbare, hone, hattributes⟩ := hvalues
  have hlegible : Filter.Readable (.attribute ⟨none, "class"⟩ .includes "") :=
    ⟨⟨by simp, .inr hplain⟩, by decide⟩
  have hbound : Filter.Bound classedSetting.bindings (.attribute ⟨none, "class"⟩ .includes "") := by
    simp [Filter.Bound, Name.Bound]
  obtain ⟨sites, hsites, hmem⟩ :=
    @evaluate_filter classedSetting .document _ reachable_classed rfl hlegible hbound .document
  refine ⟨_, sites, compile_filter ht .document,
    select_filter hlegible.legible hbound .document hsites, ?_, hattributes⟩
  have hholds : Filter.Holds classedSetting.bindings { name := "a" }
      (.attribute ⟨none, "class"⟩ .includes "") := by
    refine (holds_iff_of_missing ?_ rfl).mpr rfl
    trivial
  exact (hmem 1 _ hbare hone).mpr hholds

end MarkupQuery.Selector
