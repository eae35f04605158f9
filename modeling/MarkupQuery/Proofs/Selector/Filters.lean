import MarkupQuery.Proofs.Query.Decisions
import MarkupQuery.Proofs.Selector.Emission
import MarkupQuery.Proofs.Text.Words

namespace MarkupQuery.Selector

open MarkupQuery.Text MarkupQuery.Query MarkupQuery.Tree

def IsBound (bindings : Bindings) (qualifier : String) : Prop :=
  qualifier = "xml" ∨ (bindings.lookup qualifier).isSome

def namespaceOf (bindings : Bindings) (qualifier : String) : String :=
  (bindings.lookup qualifier).getD xmlNamespace

theorem resolveQualifier_of_isBound {bindings : Bindings} {qualifier : String}
    (h : IsBound bindings qualifier) :
    resolveQualifier bindings qualifier = .ok (namespaceOf bindings qualifier) := by
  unfold resolveQualifier namespaceOf
  cases hlookup : bindings.lookup qualifier with
  | some uri => rfl
  | none =>
    have hxml : qualifier = "xml" := h.resolve_right (by simp [hlookup])
    simp [hxml]

/-- The namespace of the elements or attributes that a name is for; without a prefix, none. -/
def Name.namespaceUri (bindings : Bindings) (name : Name) : Option String :=
  name.qualifier.map (namespaceOf bindings)

def Name.Bound (bindings : Bindings) (name : Name) : Prop :=
  ∀ qualifier ∈ name.qualifier, IsBound bindings qualifier

def Name.values (bindings : Bindings) (name : Name) (element : Element) : List String :=
  (element.attributes.filter fun a =>
    a.namespaceUri == name.namespaceUri bindings && a.name == name.localName).map Attribute.value

def Name.value (bindings : Bindings) (name : Name) (element : Element) : String :=
  (name.values bindings element).head?.getD ""

def Filter.Holds (bindings : Bindings) (element : Element) : Filter → Prop
  | .id value => value ∈ Name.values bindings ⟨none, "id"⟩ element
  | .className value => HasWord (Name.value bindings ⟨none, "class"⟩ element).toList value.toList
  | .attribute name .equals value => value ∈ name.values bindings element
  | .attribute name .includes value => HasWord (name.value bindings element).toList value.toList
  | .attribute name .contains value => value.toList <:+: (name.value bindings element).toList

def Filter.Bound (bindings : Bindings) : Filter → Prop
  | .id _ | .className _ => True
  | .attribute name _ _ => name.Bound bindings

section Attributes

variable {s : Setting} {id : NodeId} {element : Element} {name : Name} {position size : Nat}

theorem resolve_of_bound (hname : name.localName ≠ "*") (hb : name.Bound s.bindings) :
    name.test.resolve s.bindings =
      .ok (.name (name.namespaceUri s.bindings) name.localName) := by
  rw [Name.test, if_neg hname, Name.namespaceUri]
  cases hq : name.qualifier with
  | none => rfl
  | some qualifier =>
    rw [NodeTest.resolve, resolveQualifier_of_isBound (hb qualifier hq)]
    rfl

/-- What is asked of the attribute at a place of a list can be asked of the list. -/
theorem filter_range {α β : Type} (as : List α) {p : Nat → Bool} {q : α → Bool} {f : Nat → β}
    {g : α → β} (hp : ∀ i a, as[i]? = some a → p i = q a)
    (hf : ∀ i a, as[i]? = some a → f i = g a) :
    ((List.range as.length).filter p).map f = (as.filter q).map g := by
  have hrange : List.range as.length = as.zipIdx.map Prod.snd := by
    rw [List.zipIdx_map_snd, List.range_eq_range']
  have hfirst : as = as.zipIdx.map Prod.fst := (List.zipIdx_map_fst 0 as).symm
  have hsame : as.zipIdx.filter (p ∘ Prod.snd) = as.zipIdx.filter (q ∘ Prod.fst) :=
    List.filter_congr fun x hx => hp _ _ (List.mem_zipIdx_iff_getElem?.mp hx)
  rw [hrange, List.filter_map, hsame, List.map_map]
  conv_rhs => rw [hfirst, List.filter_map, List.map_map]
  refine List.map_congr_left fun x hx => ?_
  exact hf _ _ (List.mem_zipIdx_iff_getElem?.mp (List.mem_filter.mp hx).1)

theorem toText_nodes {doc : Document} {sites : List Site} {bindings : Bindings}
    (h : sites.map (Site.value doc) = name.values bindings element) :
    Value.toText doc (.nodes sites) = name.value bindings element := by
  rw [Name.value, ← h, List.head?_map]
  rfl

/-- From an element, the path of an attribute leads to the attributes that have its name. -/
theorem evaluate_attribute (he : s.source.document.payload id = .element element)
    (hname : name.localName ≠ "*") (hb : name.Bound s.bindings) :
    ∃ sites, evaluate s ⟨.node id, position, size⟩ (attributePath name.test) = .ok (.nodes sites) ∧
      sites.map (Site.value s.source.document) = name.values s.bindings element := by
  have hattributes : s.source.document.attributes id = element.attributes := by
    simp [Document.attributes, Document.element?, he, Payload.element?]
  have hstep : takeStep s (.mk .attribute name.test []) [.node id] =
      .ok (((Site.node id).attributes s.source.document).filter
        (ResolvedTest.admits s.source.document .attribute ·
          (.name (name.namespaceUri s.bindings) name.localName))) := by
    refine takeStep_eq_ok.mpr ⟨_, _, resolve_of_bound hname hb, .cons (keepAll_nil _ _) .nil, ?_⟩
    simp [mergeFound, Axis.isReverse, Axis.sites]
  refine ⟨_, by rw [attributePath, evaluate, takeSteps_cons, hstep]; rfl, ?_⟩
  have hsites : (Site.node id).attributes s.source.document =
      (List.range element.attributes.length).map fun i => ⟨id, some i⟩ := by
    rw [← hattributes]
    rfl
  rw [hsites, List.filter_map, List.map_map, Name.values]
  refine filter_range element.attributes (fun i a ha => ?_) fun i a ha => ?_
  · simp [ResolvedTest.admits, Site.kind, Axis.principal, Site.namespaceUri?, Site.name?,
      Site.attribute?, hattributes, ha]
  · simp [Site.value, Site.attribute?, hattributes, ha]

end Attributes

section Filters

variable {s : Setting} {focus : Focus} {id : NodeId} {element : Element} {name : Name}

theorem evaluate_texts (texts : List (List Char)) :
    List.Forall₂ (fun e value => evaluate s focus e = .ok value)
      (texts.map fun text => .literal (String.ofList text))
      (texts.map fun text => .text (String.ofList text)) := by
  refine List.forall₂_map_left_iff.mpr (List.forall₂_map_right_iff.mpr ?_)
  exact List.forall₂_same.mpr fun text _ => by rw [evaluate]

theorem join_intersperse (doc : Document) (parts : List (List Char)) :
    String.join (((parts.map fun part => Value.text (String.ofList part)).intersperse
      (.text "'")).map (Value.toText doc)) = String.ofList (joinWith ['\''] parts) := by
  induction parts with
  | nil => rfl
  | cons first parts ih =>
    cases parts with
    | nil => simp [joinWith, Value.toText, Value.text, Scalar.toText]
    | cons second parts =>
      rw [joinWith_cons _ _ (by simp), String.ofList_append, String.ofList_append, ← ih]
      simp only [List.map_cons, List.intersperse_cons_cons, String.join_cons]
      rfl

/-- The expression for a literal has its text as value. -/
theorem evaluate_literal (text : List Char) :
    evaluate s focus (literalExpr text) = .ok (.text (String.ofList text)) := by
  unfold literalExpr
  split
  · rw [evaluate]
  split
  · rw [evaluate]
  · rename_i hquote _
    obtain ⟨before, after, rfl⟩ := List.append_of_mem (show '\'' ∈ text by simpa using hquote)
    -- a quote in the text makes at least two pieces, so there are enough arguments
    obtain ⟨first, second, more, hpieces⟩ : ∃ first second more,
        splitWhere (· == '\'') (before ++ '\'' :: after) = first :: second :: more := by
      rw [splitWhere_append]
      obtain ⟨first, front, hfront⟩ :=
        List.exists_cons_of_ne_nil (splitWhere_ne_nil (· == '\'') before)
      obtain ⟨last, back, hback⟩ :=
        List.exists_cons_of_ne_nil (splitWhere_ne_nil (· == '\'') after)
      rw [hfront, hback]
      cases front <;> simp
    have hjoin := joinWith_splitWhere '\'' (before ++ '\'' :: after)
    have hvalue := join_intersperse s.source.document (first :: second :: more)
    have hquotes : evaluate s focus (.literal "'") = .ok (.text "'") := by rw [evaluate]
    have harguments := forall₂_intersperse (evaluate_texts (first :: second :: more)) hquotes
    rw [hpieces] at hjoin ⊢
    rw [evaluate_call harguments, ← hjoin, ← hvalue]
    exact callFunction_concat _ _ _

/-- A literal as a query has its text as value, whatever the node is that the query starts at. -/
theorem exists_parse_literal (value : String) :
    ∃ e, parse (String.ofList (literal value.toList)) = .ok e ∧
      ∀ s focus, evaluate s focus e = .ok (.text value) := by
  refine ⟨literalExpr value.toList, ?_, fun s focus => ?_⟩
  · exact ((reads_literal value.toList).lower (Nat.zero_le _) (Nat.le_refl _)).parse
  · rw [evaluate_literal, String.ofList_toList]

/-- The expression that a word is one of the words of an attribute says so. -/
theorem decides_word (he : s.source.document.payload id = .element element)
    (hname : name.localName ≠ "*") (hb : name.Bound s.bindings) (word : List Char) :
    Decides s (wordExpr name.test word) (.node id)
      (HasWord (name.value s.bindings element).toList word) := by
  intro position size
  obtain ⟨sites, hsites, hvalues⟩ := evaluate_attribute he hname hb
  have hspace : evaluate s ⟨.node id, position, size⟩ (.literal " ") = .ok (.text " ") := by
    rw [evaluate]
  have hnormal := (evaluate_call (.cons hsites .nil)).trans (callFunction_normalizeSpace _)
  have hconcat := (evaluate_call (.cons hspace (.cons hnormal (.cons hspace .nil)))).trans
    (callFunction_concat _ _ _)
  refine ⟨_, (evaluate_call (.cons hconcat (.cons (evaluate_literal _) .nil))).trans
    (callFunction_contains _ _), ?_⟩
  rw [contains_iff, ← spaced_words_iff, ← toText_nodes hvalues]
  simp [Value.toText, Value.text, Scalar.toText]

theorem decides_equals (he : s.source.document.payload id = .element element)
    (hname : name.localName ≠ "*") (hb : name.Bound s.bindings) (value : String) :
    Decides s (.binary .equals (attributePath name.test) (literalExpr value.toList)) (.node id)
      (value ∈ name.values s.bindings element) := by
  intro position size
  obtain ⟨sites, hsites, hvalues⟩ := evaluate_attribute he hname hb
  refine ⟨Value.compare s.source.document .equals (.nodes sites) (.text value), ?_, ?_⟩
  · rw [evaluate, hsites, evaluate_literal, String.ofList_toList]
    rfl
  · rw [equals_text, hvalues]

theorem decides_contains (he : s.source.document.payload id = .element element)
    (hname : name.localName ≠ "*") (hb : name.Bound s.bindings) (value : String) :
    Decides s (.call "contains" [attributePath name.test, literalExpr value.toList]) (.node id)
      (value.toList <:+: (name.value s.bindings element).toList) := by
  intro position size
  obtain ⟨sites, hsites, hvalues⟩ := evaluate_attribute he hname hb
  refine ⟨_, (evaluate_call (.cons hsites (.cons (evaluate_literal _) .nil))).trans
    (callFunction_contains _ _), ?_⟩
  rw [contains_iff, toText_nodes hvalues, String.ofList_toList]
  rfl

/-- The predicate of a filter is true for the elements that are what the filter asks for. -/
theorem decides_filter (he : s.source.document.payload id = .element element) {filter : Filter}
    (hr : filter.Readable) (hb : filter.Bound s.bindings) :
    Decides s filter.expr (.node id) (filter.Holds s.bindings element) := by
  have hnone : ∀ localName, Name.Bound s.bindings ⟨none, localName⟩ := by simp [Name.Bound]
  cases filter with
  | id value =>
    have htest : Name.test ⟨none, "id"⟩ = .name none "id" := rfl
    have hdecides := decides_equals he (by decide : "id" ≠ "*") (hnone "id") value
    rw [htest] at hdecides
    exact hdecides
  | className value =>
    have htest : Name.test ⟨none, "class"⟩ = .name none "class" := rfl
    have hdecides := decides_word he (by decide : "class" ≠ "*") (hnone "class") value.toList
    rw [htest] at hdecides
    exact hdecides
  | «attribute» name comparison value =>
    cases comparison with
    | equals => exact decides_equals he hr.2 hb value
    | includes => exact decides_word he hr.2 hb value.toList
    | contains => exact decides_contains he hr.2 hb value

end Filters

end MarkupQuery.Selector

/-!
The prefixes that a compiled selector uses are those of its names.
-/

namespace MarkupQuery.Selector

open MarkupQuery.Query

variable {bindings : Bindings}

theorem unbound?_eq_none {e : Expr} :
    unbound? bindings e = none ↔ ∀ qualifier ∈ e.qualifiers, IsBound bindings qualifier := by
  rw [unbound?, List.find?_eq_none]
  refine forall₂_congr fun qualifier _ => ?_
  cases hlookup : bindings.lookup qualifier <;> simp [IsBound, hlookup]

theorem qualifiers_test {name : Name} (hb : name.Bound bindings) :
    ∀ qualifier ∈ name.test.qualifiers, IsBound bindings qualifier := by
  intro qualifier hq
  refine hb qualifier ?_
  unfold Name.test at hq
  cases hname : name.qualifier with
  | none =>
    rw [hname] at hq
    split at hq <;> simp [NodeTest.qualifiers] at hq
  | some own =>
    rw [hname] at hq
    split at hq <;> simpa [NodeTest.qualifiers, eq_comm] using hq

theorem mem_of_mem_intersperse {α : Type} {a between : α} {as : List α}
    (h : a ∈ as.intersperse between) : a = between ∨ a ∈ as := by
  induction as with
  | nil => simp at h
  | cons first as ih =>
    cases as with
    | nil => exact .inr (by simpa using h)
    | cons second as =>
      rw [List.intersperse_cons_cons, List.mem_cons, List.mem_cons] at h
      rcases h with rfl | rfl | h
      · exact .inr List.mem_cons_self
      · exact .inl rfl
      · exact (ih h).imp_right (List.mem_cons_of_mem _)

theorem qualifiers_literal (text : List Char) : (literalExpr text).qualifiers = [] := by
  unfold literalExpr
  split
  · rw [Expr.qualifiers]
  split
  · rw [Expr.qualifiers]
  · rw [Expr.qualifiers, List.eq_nil_iff_forall_not_mem]
    intro qualifier hq
    obtain ⟨e, he, hq⟩ := mem_listQualifiers.mp hq
    obtain ⟨value, rfl⟩ : ∃ value, e = .literal value := by
      rcases mem_of_mem_intersperse he with rfl | he
      · exact ⟨_, rfl⟩
      · obtain ⟨part, -, rfl⟩ := List.mem_map.mp he
        exact ⟨_, rfl⟩
    simp [Expr.qualifiers] at hq

theorem qualifiers_attributePath (test : NodeTest) :
    (attributePath test).qualifiers = test.qualifiers := by
  simp [attributePath, Expr.qualifiers, stepsQualifiers, Step.qualifiers, listQualifiers]

theorem qualifiers_wordExpr (test : NodeTest) (word : List Char) :
    (wordExpr test word).qualifiers = test.qualifiers := by
  simp [wordExpr, Expr.qualifiers, listQualifiers, qualifiers_literal, qualifiers_attributePath]

theorem qualifiers_filter {filter : Filter} (hb : filter.Bound bindings) :
    ∀ qualifier ∈ filter.expr.qualifiers, IsBound bindings qualifier := by
  cases filter with
  | id value =>
    simp [Filter.expr, Expr.qualifiers, qualifiers_attributePath, qualifiers_literal,
      NodeTest.qualifiers]
  | className value =>
    rw [Filter.expr, qualifiers_wordExpr]
    simp [NodeTest.qualifiers]
  | «attribute» name comparison value =>
    have htest := qualifiers_test hb
    cases comparison with
    | equals =>
      simpa [Filter.expr, Expr.qualifiers, qualifiers_attributePath, qualifiers_literal] using htest
    | includes =>
      rw [Filter.expr, qualifiers_wordExpr]
      exact htest
    | contains =>
      simpa [Filter.expr, Expr.qualifiers, listQualifiers, qualifiers_attributePath,
        qualifiers_literal] using htest

structure Compound.Bound (bindings : Bindings) (compound : Compound) : Prop where
  element : ∀ name ∈ compound.element, name.Bound bindings
  filters : ∀ filter ∈ compound.filters, filter.Bound bindings

theorem qualifiers_compound {compound : Compound} (hb : compound.Bound bindings) :
    ∀ qualifier ∈ compound.step.qualifiers, IsBound bindings qualifier := by
  intro qualifier hq
  rw [Compound.step, Step.qualifiers, List.mem_append] at hq
  rcases hq with hq | hq
  · unfold Compound.test at hq
    cases hname : compound.element with
    | none => simp [hname, NodeTest.qualifiers] at hq
    | some name =>
      rw [hname] at hq
      exact qualifiers_test (hb.element name hname) qualifier hq
  · obtain ⟨e, he, hq⟩ := mem_listQualifiers.mp hq
    obtain ⟨filter, hfilter, rfl⟩ := List.mem_map.mp he
    exact qualifiers_filter (hb.filters filter hfilter) qualifier hq

def Branch.Bound (bindings : Bindings) (branch : Branch) : Prop :=
  ∀ step ∈ branch, step.2.Bound bindings

theorem qualifiers_path {branch : Branch} (hb : branch.Bound bindings) (anchor : Anchor) :
    ∀ qualifier ∈ (anchor.path branch.steps).qualifiers, IsBound bindings qualifier := by
  intro qualifier hq
  have hsteps : qualifier ∈ stepsQualifiers branch.steps := by
    cases anchor with
    | document => simpa [Anchor.path, Expr.qualifiers] using hq
    | context =>
      simpa [Anchor.path, Expr.qualifiers, stepsQualifiers, Step.here, Step.qualifiers,
        NodeTest.qualifiers, listQualifiers] using hq
  obtain ⟨step, hstep, hq⟩ := mem_stepsQualifiers.mp hsteps
  obtain ⟨⟨combinator, compound⟩, hmem, hstep⟩ := List.mem_flatMap.mp hstep
  cases combinator with
  | child =>
    obtain rfl := List.mem_singleton.mp hstep
    exact qualifiers_compound (hb _ hmem) qualifier hq
  | descendant =>
    rcases List.mem_cons.mp hstep with rfl | hstep
    · simp [Step.anywhereBelow, Step.qualifiers, NodeTest.qualifiers, listQualifiers] at hq
    · obtain rfl := List.mem_singleton.mp hstep
      exact qualifiers_compound (hb _ hmem) qualifier hq

/-- With the prefixes of its names bound, a compiled selector uses no prefix that is not bound. -/
theorem unbound_unionOf (anchor : Anchor) {first : Branch} {more : List Branch}
    (hb : ∀ branch ∈ first :: more, branch.Bound bindings) :
    unbound? bindings (unionOf (anchor.path first.steps)
      (more.map fun branch => anchor.path branch.steps)) = none := by
  rw [unbound?_eq_none]
  intro qualifier hq
  rw [qualifiers_unionOf, List.mem_flatMap] at hq
  obtain ⟨e, he, hq⟩ := hq
  rw [← List.map_cons (f := fun branch : Branch => anchor.path branch.steps)] at he
  obtain ⟨branch, hbranch, rfl⟩ := List.mem_map.mp he
  exact qualifiers_path (hb branch hbranch) anchor qualifier hq

end MarkupQuery.Selector
