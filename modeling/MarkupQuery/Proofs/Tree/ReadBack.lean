import MarkupQuery.Proofs.Tree.Prefixes

namespace MarkupQuery.Tree

/-- The scope in which the reader resolves names inside these tags, the innermost one first. -/
def readScope (tags : List (List Declaration)) : List Declaration := tags.foldr innerScope []

structure Element.ReadsBack (e : Element) (tags : List (List Declaration)) : Prop where
  once : ∀ ds ∈ tags, DeclaredOnce ds
  element : (lookup? (readScope tags) (e.qualifier.getD "")).map
    (Option.filter fun uri => !uri.isEmpty) = some e.namespaceUri
  attributes : ∀ a ∈ e.attributes,
    attributeNamespace? (readScope tags) (a.qualifier.getD "") = some a.namespaceUri

/-- An element whose names can stand in markup: where there is a prefix there is a namespace, the
prefix xml stands for its own one, and no prefix is declared twice. -/
structure Element.Writable (e : Element) : Prop where
  qualifier : ∀ q, e.qualifier = some q → q ≠ "" ∧ q ≠ "xml" ∧ e.namespaceUri.isSome
  namespaceUri : e.namespaceUri ≠ some ""
  attributes : ∀ a ∈ e.attributes, (a.qualifier = none ∧ a.namespaceUri = none) ∨
    (a.qualifier = some "xml" ∧ a.namespaceUri = some xmlNamespace) ∨
    ∃ q u, q ≠ "" ∧ q ≠ "xml" ∧ a.qualifier = some q ∧ a.namespaceUri = some u
  declarations : DeclaredOnce e.declarations

section Scopes

variable {own outer ds : List Declaration} {tags : List (List Declaration)} {q u : String}

theorem find_extendScope (own outer : List Declaration) (qualifier : Option String) :
    (Document.extendScope own outer).find? (fun d => d.qualifier == qualifier) =
      (own.find? fun d => d.qualifier == qualifier).or
        (outer.find? fun d => d.qualifier == qualifier) := by
  induction outer generalizing own with
  | nil => simp [Document.extendScope]
  | cons d outer ih =>
    unfold Document.extendScope
    split
    · rename_i hknown
      rw [ih]
      by_cases hd : d.qualifier = qualifier
      · obtain ⟨known, hmem, hsame⟩ := List.any_eq_true.mp hknown
        have hfound : (own.find? fun d => d.qualifier == qualifier).isSome :=
          List.find?_isSome.mpr ⟨known, hmem, hd ▸ hsame⟩
        obtain ⟨found, hfound⟩ := Option.isSome_iff_exists.mp hfound
        simp [hfound]
      · rw [List.find?_cons_of_neg (by simpa using hd)]
    · rw [ih, List.find?_append, Option.or_assoc]
      by_cases hd : d.qualifier = qualifier <;> simp [hd]

theorem find_innerScope (own outer : List Declaration) (qualifier : Option String) :
    (innerScope own outer).find? (fun d => d.qualifier == qualifier) =
      (own.find? fun d => d.qualifier == qualifier).or
        (outer.find? fun d => d.qualifier == qualifier) := by
  unfold innerScope
  split
  · rename_i hown
    simp [List.isEmpty_iff.mp hown]
  · exact find_extendScope own outer qualifier

/-- A prefix is looked up in the nearest tag that declares it. -/
theorem find_readScope (tags : List (List Declaration)) (qualifier : Option String) :
    (readScope tags).find? (fun d => d.qualifier == qualifier) =
      tags.findSome? fun ds => ds.find? fun d => d.qualifier == qualifier := by
  induction tags with
  | nil => rfl
  | cons ds tags ih =>
    rw [readScope, List.foldr_cons, find_innerScope, ← readScope, ih, List.findSome?_cons]
    cases ds.find? fun d => d.qualifier == qualifier <;> rfl

theorem lookup?_eq (hq : q ≠ "") (scope : List Declaration) : lookup? scope q =
    (scope.find? fun d => d.qualifier == some q).map fun d => some d.uri := by
  rw [lookup?, if_neg (by simpa using hq)]

/-- Where no tag declares a prefix twice, it is read as what it is bound to. -/
theorem lookup?_readScope (h : ∀ ds ∈ tags, DeclaredOnce ds) (hq : q ≠ "") :
    lookup? (readScope tags) q = some (some u) ↔ boundAs q tags = some [u] := by
  have hbound : boundAs q tags = ((tags.findSome? fun ds =>
      (ds.find? fun d => d.qualifier == some q).map Declaration.uri)).map fun u => [u] := by
    rw [boundAs, ← find_toList]
    exact congrArg _ (List.map_congr_left fun ds hds => (h ds hds).declaredAs_eq q)
  have hfind : (tags.findSome? fun ds =>
      (ds.find? fun d => d.qualifier == some q).map Declaration.uri) =
      ((readScope tags).find? fun d => d.qualifier == some q).map Declaration.uri := by
    rw [find_readScope, List.map_findSome?]
    rfl
  rw [hbound, hfind, lookup?_eq hq]
  cases (readScope tags).find? fun d => d.qualifier == some q <;> simp

theorem declaredOnce_prefixed : DeclaredOnce (prefixed ds) ↔ DeclaredOnce ds := by
  refine ⟨fun h => ?_, fun h => h.filter _⟩
  rw [DeclaredOnce, prefixed, List.pairwise_filter] at h
  refine h.imp fun {a b} hab ha hsame => ?_
  exact hab ha (hsame ▸ ha) ha hsame

def readDefault (tags : List (List Declaration)) : String :=
  (((readScope tags).find? fun d => d.qualifier == none).map Declaration.uri).getD ""

/-- A start tag sees to it that the default namespace is the one that was asked for. -/
theorem readDefault_declared {around : String} (h : readDefault tags = around) (e : Element)
    (more : List Declaration) :
    readDefault (e.declared more around :: tags) = e.defaultNamespace more around := by
  have hprefixed : ∀ ds : List Declaration,
      (ds.filter fun d => d.qualifier.isSome).find? (fun d => d.qualifier == none) = none := by
    intro ds
    refine List.find?_eq_none.mpr fun d hd => ?_
    have := (List.mem_filter.mp hd).2
    cases hq : d.qualifier <;> simp_all
  rw [readDefault, readScope, List.foldr_cons, find_innerScope, ← readScope]
  unfold Element.declared
  dsimp only
  split
  · rename_i hsame
    rw [List.nil_append, hprefixed, Option.none_or, ← readDefault, h, hsame]
  · simp

end Scopes

/-- An element without a prefix is read in its own namespace, if that is the default one. -/
theorem lookup?_default {tags : List (List Declaration)} {uri : Option String}
    (hu : uri ≠ some "") (h : readDefault tags = uri.getD "") :
    (lookup? (readScope tags) "").map (Option.filter fun uri => !uri.isEmpty) = some uri := by
  have hfind : (fun d : Declaration => d.qualifier.isNone) = fun d => d.qualifier == none := by
    funext d
    cases d.qualifier <;> rfl
  rw [lookup?, if_pos (by rfl), hfind, Option.map_some, Option.some.injEq]
  unfold readDefault at h
  revert h
  generalize ((readScope tags).find? fun d => d.qualifier == none).map Declaration.uri = found
  intro h
  cases found <;> cases uri <;> simp_all [Option.filter]

namespace Element.Writable

variable {e : Element} {tags : List (List Declaration)}

theorem qualified (h : e.Writable) : e.Qualified where
  element hq := by
    obtain ⟨q, hq⟩ := Option.isSome_iff_exists.mp hq
    exact (h.qualifier q hq).2.2
  attributes a ha hq := by
    rcases h.attributes a ha with ⟨hnone, -⟩ | ⟨-, hu⟩ | ⟨_, u, -, -, -, hu⟩
    · simp [hnone] at hq
    · simp [hu]
    · simp [hu]

/-- The names of an element are read back where its prefixes are bound, if an unprefixed element is
in the default namespace. -/
theorem readsBack_iff (h : e.Writable)
    (hd : e.qualifier = none → readDefault tags = e.namespaceUri.getD "") :
    e.ReadsBack tags ↔ (∀ ds ∈ tags, DeclaredOnce ds) ∧ e.NamesBound tags := by
  constructor
  · rintro ⟨honce, helement, hattributes⟩
    refine ⟨honce, fun q hq hx => ?_, fun a ha q hq hx => ?_⟩
    · obtain ⟨hempty, -, hsome⟩ := h.qualifier q hq
      obtain ⟨u, hu⟩ := Option.isSome_iff_exists.mp hsome
      refine ⟨u, hu, (lookup?_readScope honce hempty).mp ?_⟩
      rw [hq, hu, Option.getD_some] at helement
      obtain ⟨found, hfound, hfilter⟩ := Option.map_eq_some_iff.mp helement
      rw [hfound, (Option.filter_eq_some_iff.mp hfilter).1]
    · have hread := hattributes a ha
      -- without a prefix, with that of xml, or with one that has to be declared
      rcases h.attributes a ha with ⟨hnone, -⟩ | ⟨hxml, -⟩ | ⟨q', u, hempty, hne, hq', hu⟩
      · simp [hnone] at hq
      · rw [hxml] at hq
        exact absurd (Option.some.inj hq).symm hx
      · obtain rfl := Option.some.inj (hq'.symm.trans hq)
        refine ⟨u, hu, (lookup?_readScope honce hempty).mp ?_⟩
        rw [hq, hu, Option.getD_some] at hread
        unfold attributeNamespace? at hread
        rwa [if_neg (by simpa using hx), if_neg (by simpa using hempty)] at hread
  · rintro ⟨honce, helement, hattributes⟩
    refine ⟨honce, ?_, fun a ha => ?_⟩
    · cases hq : e.qualifier with
      | none => exact lookup?_default h.namespaceUri (hd hq)
      | some q =>
        obtain ⟨hempty, hx, -⟩ := h.qualifier q hq
        obtain ⟨u, hu, hbound⟩ := helement q hq hx
        rw [Option.getD_some, (lookup?_readScope honce hempty).mpr hbound, hu, Option.map_some]
        have hne : u ≠ "" := fun he => h.namespaceUri (he ▸ hu)
        simp [Option.filter, hne]
    · unfold attributeNamespace?
      rcases h.attributes a ha with ⟨hnone, hu⟩ | ⟨hxml, hu⟩ | ⟨q, u, hempty, hx, hq, hu⟩
      · rw [hnone, hu]
        rfl
      · rw [hxml, hu]
        rfl
      · obtain ⟨v, hv, hbound⟩ := hattributes a ha q hq hx
        rw [hq, Option.getD_some, if_neg (by simpa using hx), if_neg (by simpa using hempty), hv]
        exact (lookup?_readScope honce hempty).mpr hbound

end Element.Writable

namespace Document

variable {doc : Document} {top : NodeId}

/-- Every unprefixed element is written where the default namespace is its own. -/
theorem readDefault_outlineUpTo (doc : Document) (void : Bool) (depth : Nat)
    (more : List Declaration) (default : String) (id : NodeId)
    {around : List (List Declaration)} (h : readDefault around = default) :
    ∀ tag ∈ Outline.allTags around (doc.outlineUpTo void depth more default id),
      tag.1.qualifier = none → readDefault tag.2 = tag.1.namespaceUri.getD "" := by
  induction depth generalizing more default around id with
  | zero => simp [outlineUpTo, Outline.allTags]
  | succ depth ih =>
    unfold outlineUpTo
    cases hp : doc.payload id with
    | document =>
      simp only [Outline.allTags_flatMap, List.mem_flatMap]
      rintro tag ⟨child, -, htag⟩
      exact ih [] default child h tag htag
    | element e =>
      have hinside := readDefault_declared h e more
      simp only [Outline.allTags, Outline.tags, List.append_nil, List.mem_cons,
        Outline.allTags_flatMap, List.mem_flatMap]
      rintro tag (rfl | ⟨child, -, htag⟩) hq
      · rw [hinside, Element.defaultNamespace, hq]
      · exact ih [] _ child hinside tag htag hq
    | text | comment | instruction => simp [Outline.allTags, Outline.tags]

/-- An element that declares all that its content needs is written without further prefixes. -/
theorem prefixed_undeclared (hf : Forest doc doc.children)
    (h : ∀ x ∈ doc.subtree top, ∀ q u, doc.ReliesOn x ⟨some q, u⟩ →
      doc.declaredWithin top x (some q) = some u) : prefixed (doc.undeclared top) = [] := by
  refine List.filter_eq_nil_iff.mpr fun d hd hq => ?_
  obtain ⟨qualifier, u⟩ := d
  obtain ⟨q, rfl⟩ := Option.isSome_iff_exists.mp hq
  obtain ⟨⟨x, hx, hr⟩, hnot⟩ := mem_declaredAs_undeclared.mp (mem_declaredAs.mpr hd)
  obtain ⟨y, hy, hdeclared⟩ := exists_declaration_of_declaredWithin hf hx (h x hx q u hr)
  exact hnot y hy hdeclared

section Writable

variable (hf : Forest doc doc.children)
  (hw : ∀ x ∈ doc.subtree top, ∀ e, doc.element? x = some e → e.Writable)

include hf hw

/-- From a node up to the top no element declares a prefix twice. -/
theorem declaredOnce_upTo {x : NodeId} (hx : x ∈ doc.subtree top) :
    ∀ y ∈ doc.upTo top x, DeclaredOnce (doc.declarations y) := by
  intro y hy
  unfold Document.declarations
  cases he : doc.element? y with
  | none => exact .nil
  | some e =>
    have hy' := hf.mem_subtree.mpr (hf.within_of_mem_upTo (hf.mem_subtree.mp hx) hy)
    exact (hw y hy' e he).declarations

/-- The start tags up to the top bind every name to its namespace if the nearest declaration of the
prefix is always the one that was meant. -/
theorem forall_namesBound_iff (hd : ∀ x ∈ doc.subtree top, ∀ q u, doc.ReliesOn x ⟨some q, u⟩ →
      (doc.declaredWithin top x (some q)).isSome) :
    (∀ x ∈ doc.subtree top, ∀ e, doc.element? x = some e →
      let tags := (doc.upTo top x).map (doc.tagDeclarations top (doc.undeclared top))
      (∀ ds ∈ tags, DeclaredOnce ds) ∧ e.NamesBound tags) ↔
      ∀ x ∈ doc.subtree top, ∀ q u, doc.ReliesOn x ⟨some q, u⟩ →
        doc.declaredWithin top x (some q) = some u := by
  have honce := fun x (hx : x ∈ doc.subtree top) => declaredOnce_upTo hf hw hx
  constructor
  · rintro hall x hx q u ⟨e, he, hneeded⟩
    have hbound := (hw x hx e he).qualified.namesBound_iff.mp (hall x hx e he).2 q u hneeded
    obtain ⟨v, hv⟩ := Option.isSome_iff_exists.mp (hd x hx q u ⟨e, he, hneeded⟩)
    rw [← declaredWithin_of_boundAs (honce x hx) hv hbound]
    exact hv
  · intro hall x hx e he
    have hmore := prefixed_undeclared hf hall
    refine ⟨List.forall_mem_map.mpr fun y hy => ?_,
      (hw x hx e he).qualified.namesBound_iff.mpr fun q u hneeded => ?_⟩
    · have hown := (honce x hx y hy).filter fun d => d.qualifier.isSome
      rw [tagDeclarations]
      split
      · rwa [prefixed, List.filter_append, ← prefixed, ← prefixed, hmore, List.append_nil]
      · rwa [List.append_nil]
    · refine boundAs_of_declaredWithin (honce x hx) (hall x hx q u ⟨e, he, hneeded⟩) fun _ => ?_
      rw [← declaredAs_prefixed, hmore]
      rfl

/-- The markup of an element, in which every prefix that a name relies on is declared, is read back
if the nearest declaration of the prefix is always the one that was meant. -/
theorem readsBack_iff (htop : doc.isElement top) (void : Bool)
    (hd : ∀ x ∈ doc.subtree top, ∀ q u, doc.ReliesOn x ⟨some q, u⟩ →
      (doc.declaredWithin top x (some q)).isSome) :
    (∀ tag ∈ Outline.allTags [] (doc.outline void top), tag.1.ReadsBack tag.2) ↔
      ∀ x ∈ doc.subtree top, ∀ q u, doc.ReliesOn x ⟨some q, u⟩ →
        doc.declaredWithin top x (some q) = some u := by
  have hwritable : ∀ tag ∈ Outline.allTags [] (doc.outline void top), tag.1.Writable :=
    (forall_tags_iff hf htop void (Q := fun e _ => e.Writable) fun _ _ => .rfl).mpr hw
  have hdefault : ∀ tag ∈ Outline.allTags [] (doc.outline void top),
      tag.1.qualifier = none → readDefault tag.2 = tag.1.namespaceUri.getD "" :=
    readDefault_outlineUpTo doc _ _ _ "" top rfl
  let Q (e : Element) (tags : List (List Declaration)) : Prop :=
    (∀ ds ∈ tags, DeclaredOnce ds) ∧ e.NamesBound tags
  have hprefixed : ∀ e tags, Q e (tags.map prefixed) ↔ Q e tags := by
    simp [Q, Element.NamesBound, NameBound, boundAs_prefixed, declaredOnce_prefixed]
  calc (∀ tag ∈ Outline.allTags [] (doc.outline void top), tag.1.ReadsBack tag.2)
      ↔ ∀ tag ∈ Outline.allTags [] (doc.outline void top), Q tag.1 tag.2 :=
        forall₂_congr fun tag htag => (hwritable tag htag).readsBack_iff (hdefault tag htag)
    _ ↔ ∀ x ∈ doc.subtree top, ∀ e, doc.element? x = some e →
          Q e ((doc.upTo top x).map (doc.tagDeclarations top (doc.undeclared top))) :=
        forall_tags_iff hf htop void hprefixed
    _ ↔ ∀ x ∈ doc.subtree top, ∀ q u, doc.ReliesOn x ⟨some q, u⟩ →
          doc.declaredWithin top x (some q) = some u := forall_namesBound_iff hf hw hd

end Writable

end Document

end MarkupQuery.Tree
