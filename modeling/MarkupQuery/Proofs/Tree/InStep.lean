import MarkupQuery.Proofs.Tree.ReadBack

namespace MarkupQuery.Tree

open MarkupQuery.Xml

/-- A start tag that keeps the rules for namespaces where the reader does not see to it: its name has
no empty prefix, no prefix is declared to be in no namespace, and the default namespace is declared
once at most, in a tag that ends. -/
structure IsRegular (tag : StartTag) : Prop where
  qualifier : tag.name.written ≠ some ""
  bound : ∀ w ∈ tag.attributes, w.name.qualifier = "xmlns" → w.value ≠ ""
  once : (tag.attributes.filter fun w => declaredQualifier? w == some none).length ≤ 1
  ending : tag.ending = .missing → ∀ w ∈ tag.attributes, declaredQualifier? w ≠ some none

instance (tag : StartTag) : Decidable (IsRegular tag) :=
  decidable_of_iff (tag.name.written ≠ some "" ∧
    (∀ w ∈ tag.attributes, w.name.qualifier = "xmlns" → w.value ≠ "") ∧
    (tag.attributes.filter fun w => declaredQualifier? w == some none).length ≤ 1 ∧
    (tag.ending = .missing → ∀ w ∈ tag.attributes, declaredQualifier? w ≠ some none))
    ⟨fun ⟨hq, hb, ho, he⟩ => ⟨hq, hb, ho, he⟩, fun h => ⟨h.1, h.2, h.3, h.4⟩⟩

abbrev Around := List (List Declaration)

def Around.uri (around : Around) (qualifier : Option String) : Option String :=
  around.findSome? fun ds => (ds.find? fun d => d.qualifier == qualifier).map Declaration.uri

theorem Around.uri_cons (ds : List Declaration) (around : Around) (qualifier : Option String) :
    Around.uri (ds :: around) qualifier =
      ((ds.find? fun d => d.qualifier == qualifier).map Declaration.uri).or (around.uri qualifier) := by
  rw [Around.uri, List.findSome?_cons, ← Around.uri]
  cases ds.find? fun d => d.qualifier == qualifier <;> rfl

section Scopes

variable {scope own outer ds : List Declaration} {around : Around} {d : Declaration}
  {written : List Written}

def Distinct (ds : List Declaration) : Prop := ds.Pairwise fun a b => a.qualifier ≠ b.qualifier

theorem Distinct.find_eq (h : Distinct ds) (hd : d ∈ ds) {qualifier : Option String}
    (hq : d.qualifier = qualifier) : ds.find? (fun d => d.qualifier == qualifier) = some d := by
  subst hq
  induction ds with
  | nil => cases hd
  | cons first ds ih =>
    obtain ⟨hfirst, hds⟩ := List.pairwise_cons.mp h
    rcases List.mem_cons.mp hd with rfl | hd
    · simp
    · rw [List.find?_cons_of_neg (by simpa using hfirst d hd), ih hds hd]

theorem Distinct.concat (h : Distinct ds) (hd : ∀ known ∈ ds, known.qualifier ≠ d.qualifier) :
    Distinct (ds ++ [d]) :=
  List.pairwise_append.mpr ⟨h, List.pairwise_singleton _ _, fun known hk _ hl =>
    List.mem_singleton.mp hl ▸ hd known hk⟩

theorem Distinct.extendScope (h : Distinct ds) (more : List Declaration) :
    Distinct (Document.extendScope ds more) :=
  Document.extendScope_keeps (fun _ _ h hnew => h.concat hnew) h more

theorem Distinct.innerScope (hown : Distinct own) (houter : Distinct outer) :
    Distinct (innerScope own outer) := by
  unfold MarkupQuery.Tree.innerScope
  split
  · exact houter
  · exact hown.extendScope outer

/-- A list is distinct if the default namespace is in it once at most. -/
theorem DeclaredOnce.distinct (h : DeclaredOnce ds)
    (hd : (ds.filter fun d => d.qualifier == none).length ≤ 1) : Distinct ds := by
  have hdefault : (ds.filter fun d => d.qualifier == none).Pairwise fun _ _ => False := by
    generalize ds.filter (fun d => d.qualifier == none) = defaults at hd
    match defaults with
    | [] => exact .nil
    | [_] => exact List.pairwise_singleton _ _
    | _ :: _ :: _ => simp at hd
  rw [List.pairwise_filter] at hdefault
  refine (List.Pairwise.and h hdefault).imp fun {a b} hab hsame => ?_
  cases hq : a.qualifier with
  | none => exact hab.2 (by simp [hq]) (by simp [← hsame, hq])
  | some q => exact hab.1 (by simp [hq]) hsame

/-- A scope that says the same as the declarations stored around a place, and in which prefixes stand
for namespaces. -/
structure InStep (scope : List Declaration) (around : Around) : Prop where
  distinct : Distinct scope
  named : ∀ d ∈ scope, d.qualifier.isSome → d.uri ≠ ""
  uri : ∀ qualifier, (scope.find? fun d => d.qualifier == qualifier).map Declaration.uri =
    around.uri qualifier

/-- What an element stores, the declarations of its scope that are not in the one around it, keeps in
step with its scope. -/
theorem InStep.inner (h : InStep outer around) (hown : Distinct own)
    (hnamed : ∀ d ∈ own, d.qualifier.isSome → d.uri ≠ "") :
    InStep (innerScope own outer)
      (((innerScope own outer).filter fun d => !outer.contains d) :: around) := by
  have hdistinct := hown.innerScope h.distinct
  refine ⟨hdistinct, fun d hd => ?_, fun qualifier => ?_⟩
  · unfold innerScope at hd
    split at hd
    · exact h.named d hd
    · exact (IsScope.mem_extendScope hd).elim (hnamed d) (h.named d)
  · rw [Around.uri_cons, ← h.uri]
    have hfind := find_innerScope own outer qualifier
    cases hd : (innerScope own outer).find? fun d => d.qualifier == qualifier with
    | none =>
      have houter : outer.find? (fun d => d.qualifier == qualifier) = none :=
        (Option.or_eq_none_iff.mp (hfind.symm.trans hd)).2
      have hstored : ((innerScope own outer).filter fun d => !outer.contains d).find?
          (fun d => d.qualifier == qualifier) = none :=
        List.find?_eq_none.mpr fun d hmem =>
          List.find?_eq_none.mp hd d (List.mem_filter.mp hmem).1
      rw [hstored, houter]
      rfl
    | some d =>
      have hq : d.qualifier = qualifier := by simpa using List.find?_some hd
      have hmem := List.mem_of_find?_eq_some hd
      by_cases hout : d ∈ outer
      · -- the declaration is an outer one, and no other has its prefix
        have hstored : ((innerScope own outer).filter fun d => !outer.contains d).find?
            (fun d => d.qualifier == qualifier) = none := by
          refine List.find?_eq_none.mpr fun other hother hsame => ?_
          obtain ⟨hother, hnew⟩ := List.mem_filter.mp hother
          have heq := (hdistinct.find_eq hother (by simpa using hsame)).symm.trans hd
          obtain rfl := Option.some.inj heq
          simp [hout] at hnew
        rw [hstored, h.distinct.find_eq hout hq]
        rfl
      · have hstored : d ∈ (innerScope own outer).filter fun d => !outer.contains d :=
          List.mem_filter.mpr ⟨hmem, by simpa using hout⟩
        rw [Distinct.find_eq (List.Pairwise.filter _ hdistinct) hstored hq]
        rfl

theorem inStep_nil : InStep [] [[]] := ⟨List.Pairwise.nil, by simp, fun _ => rfl⟩

/-- The default namespace is declared as often as the attributes say. -/
theorem defaults_ownDeclarations (h : ownDeclarations? own written = some ds) :
    (ds.filter fun d => d.qualifier == none).length =
      (own.filter fun d => d.qualifier == none).length +
        (written.filter fun w => declaredQualifier? w == some none).length := by
  induction written generalizing own with
  | nil =>
    rw [ownDeclarations?, Option.some.injEq] at h
    simp [h]
  | cons w rest ih =>
    unfold ownDeclarations? at h
    split at h
    · rename_i hnone
      rw [ih h, List.filter_cons_of_neg (by simp [hnone])]
    · rename_i qualifier hq
      split_ifs at h with hmay htwice hxml
      · obtain rfl : qualifier = some "xml" := by simpa using hxml
        rw [ih h, List.filter_cons_of_neg (by simp [hq])]
      · rw [ih h, List.filter_append, List.length_append, List.filter_cons (x := w), hq]
        cases qualifier with
        | none =>
          have hone : ((⟨none, w.value⟩ : Declaration) :: []).filter (fun d => d.qualifier == none) =
              [⟨none, w.value⟩] := rfl
          rw [hone, if_pos (by rfl)]
          simp only [List.length_cons, List.length_nil]
          omega
        | some q =>
          have hnone : ((⟨some q, w.value⟩ : Declaration) :: []).filter
              (fun d => d.qualifier == none) = [] := rfl
          rw [hnone, if_neg (by simp), List.length_nil]
          omega

theorem named_ownDeclarations (hown : ∀ d ∈ own, d.qualifier.isSome → d.uri ≠ "")
    (hw : ∀ w ∈ written, w.name.qualifier = "xmlns" → w.value ≠ "")
    (h : ownDeclarations? own written = some ds) : ∀ d ∈ ds, d.qualifier.isSome → d.uri ≠ "" := by
  induction written generalizing own with
  | nil =>
    rw [ownDeclarations?, Option.some.injEq] at h
    exact h ▸ hown
  | cons w rest ih =>
    obtain ⟨hfirst, hrest⟩ := List.forall_mem_cons.mp hw
    unfold ownDeclarations? at h
    split at h
    · exact ih hown hrest h
    · rename_i qualifier hq
      split_ifs at h with hmay htwice hxml
      · exact ih hown hrest h
      · refine ih (List.forall_mem_append.mpr ⟨hown, List.forall_mem_singleton.mpr ?_⟩) hrest h
        intro hsome
        obtain ⟨q, rfl⟩ := Option.isSome_iff_exists.mp hsome
        refine hfirst ?_
        unfold declaredQualifier? at hq
        split_ifs at hq with hxmlns
        · exact beq_iff_eq.mp hxmlns
        · cases hq

end Scopes

namespace Element

/-- The names of an element agree with what is bound around it: its prefix and, where it has none,
the default namespace stand for its namespace, and so do the prefixes of its attributes. -/
structure Agrees (e : Element) (bound : Option String → Option String) : Prop where
  qualified : ∀ q, e.qualifier = some q → q ≠ "xml" →
    ∃ u, e.namespaceUri = some u ∧ bound (some q) = some u
  unqualified : e.qualifier = none → (bound none).filter (fun uri => !uri.isEmpty) = e.namespaceUri
  attributes : ∀ a ∈ e.attributes, a.namespaceUri.isSome →
    ∃ q, a.qualifier = some q ∧ (q = "xml" ∨ bound (some q) = a.namespaceUri)

/-- An element that was read from a start tag. The written prefix stands for its namespace, and its
names agree with what is bound unless the written prefix has a blank and the default namespace is not
its own. -/
structure ReadFrom (tag : StartTag) (e : Element) (bound : Option String → Option String) :
    Prop where
  name : e.name = tag.name.localName
  written : ∀ q ∈ tag.name.written, ∃ u, e.namespaceUri = some u ∧ bound (some q) = some u
  agrees : e.Agrees bound ↔ ¬ ((∃ q ∈ tag.name.written, q.toList.any Text.isBlank) ∧
    (bound none).filter (fun uri => !uri.isEmpty) ≠ e.namespaceUri)

end Element

section Resolution

variable {outer own inner : List Declaration} {around : Around} {tag : StartTag} {e : Element}
  {written : List Written}

/-- What the reader makes of a name. -/
theorem resolvedElement?_eq_some {name : QName}
    (h : resolvedElement? outer own name written = some (e, inner)) :
    inner = innerScope own outer ∧ e.declarations = inner.filter (fun d => !outer.contains d) ∧
      e.name = name.localName ∧ ∃ found, lookup? inner name.qualifier = some found ∧
        e.namespaceUri = found.filter (fun uri => !uri.isEmpty) ∧
        e.qualifier = e.namespaceUri.bind fun _ => keptQualifier name := by
  simp only [resolvedElement?, Option.bind_eq_bind, Option.bind_eq_some_iff, Option.pure_def,
    Option.some.injEq, Prod.mk.injEq] at h
  obtain ⟨attributes, -, found, hfound, rfl, rfl⟩ := h
  exact ⟨rfl, rfl, rfl, found, hfound, rfl, rfl⟩

theorem InStep.attributes (h : InStep inner around) (hin : e.ScopedIn outer inner) :
    ∀ a ∈ e.attributes, a.namespaceUri.isSome →
      ∃ q, a.qualifier = some q ∧ (q = "xml" ∨ around.uri (some q) = a.namespaceUri) := by
  intro a ha hsome
  rcases (hin.attributes a ha).bound with ⟨-, hnone⟩ | ⟨hxml, -⟩ | ⟨q, u, hq, hu, hmem⟩
  · simp [hnone] at hsome
  · exact ⟨_, hxml, .inl rfl⟩
  · refine ⟨q, hq, .inr ?_⟩
    rw [← h.uri, h.distinct.find_eq hmem rfl, hu]
    rfl

/-- A name without a prefix is in the default namespace. -/
theorem InStep.unprefixed (h : InStep inner around) (hwritten : tag.name.written = none)
    (hread : resolvedElement? outer own tag.name written = some (e, inner)) :
    e.qualifier = none ∧
      (around.uri none).filter (fun uri => !uri.isEmpty) = e.namespaceUri := by
  obtain ⟨-, -, -, found, hfound, huri, hqualifier⟩ := resolvedElement?_eq_some hread
  constructor
  · rw [hqualifier, keptQualifier, hwritten]
    cases e.namespaceUri <;> rfl
  · have hfind : (fun d : Declaration => d.qualifier.isNone) = fun d => d.qualifier == none := by
      funext d
      cases d.qualifier <;> rfl
    rw [QName.qualifier, hwritten, Option.getD_none, lookup?, if_pos (by rfl), hfind, h.uri]
      at hfound
    rw [huri, Option.some.inj hfound]

/-- A prefix stands for the namespace of the name that it is written in front of. The element keeps it
if it has no blank. -/
theorem InStep.prefixed (h : InStep inner around) {q : String} (hwritten : tag.name.written = some q)
    (hne : q ≠ "") (hread : resolvedElement? outer own tag.name written = some (e, inner)) :
    (∃ u, e.namespaceUri = some u ∧ around.uri (some q) = some u) ∧
      e.qualifier = if q.toList.any Text.isBlank then none else some q := by
  obtain ⟨-, -, -, found, hfound, huri, hqualifier⟩ := resolvedElement?_eq_some hread
  rw [QName.qualifier, hwritten, Option.getD_some, lookup?_eq hne] at hfound
  obtain ⟨d, hd, rfl⟩ := Option.map_eq_some_iff.mp hfound
  have hq : d.qualifier = some q := by simpa using List.find?_some hd
  have hnamed := h.named d (List.mem_of_find?_eq_some hd) (by simp [hq])
  have hnamespace : e.namespaceUri = some d.uri := by
    rw [huri]
    simp [Option.filter, hnamed]
  refine ⟨⟨d.uri, hnamespace, by rw [← h.uri, hd]; rfl⟩, ?_⟩
  rw [hqualifier, hnamespace, Option.bind_some, keptQualifier, hwritten]
  by_cases hblank : q.toList.any Text.isBlank = true
  · simp [Option.filter, hblank]
  · simp [Option.filter, hblank]

/-- The names of an element that was resolved in a scope that is in step with the declarations. -/
theorem InStep.readFrom (h : InStep inner around) (ht : IsRegular tag) (hin : e.ScopedIn outer inner)
    (hread : resolvedElement? outer own tag.name written = some (e, inner)) :
    e.ReadFrom tag around.uri := by
  have hname := (resolvedElement?_eq_some hread).2.2.1
  have hattributes := h.attributes hin
  cases hwritten : tag.name.written with
  | none =>
    obtain ⟨hnone, hdefault⟩ := h.unprefixed hwritten hread
    refine ⟨hname, by simp [hwritten], ?_⟩
    exact iff_of_true ⟨by simp [hnone], fun _ => hdefault, hattributes⟩ (by simp [hwritten])
  | some q =>
    have hne : q ≠ "" := by
      rintro rfl
      exact ht.qualifier hwritten
    obtain ⟨hbound, hkept⟩ := h.prefixed hwritten hne hread
    refine ⟨hname, by simpa [hwritten] using hbound, ?_⟩
    rw [hwritten]
    by_cases hblank : q.toList.any Text.isBlank = true
    · rw [if_pos hblank] at hkept
      constructor
      · rintro hagrees ⟨-, hother⟩
        exact hother (hagrees.unqualified hkept)
      · intro hsame
        have hdefault := not_not.mp fun hother => hsame ⟨⟨q, rfl, hblank⟩, hother⟩
        exact ⟨by simp [hkept], fun _ => hdefault, hattributes⟩
    · rw [if_neg hblank] at hkept
      refine iff_of_true ⟨fun q' hq' _ => ?_, by simp [hkept], hattributes⟩ ?_
      · obtain rfl := Option.some.inj (hkept.symm.trans hq')
        exact hbound
      · rintro ⟨⟨q', hq', hcut⟩, -⟩
        obtain rfl := Option.some.inj hq'
        exact hblank hcut

end Resolution

end MarkupQuery.Tree
