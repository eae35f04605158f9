import MarkupQuery.Proofs.Tree.Assembled
import MarkupQuery.Proofs.Tree.InStep

namespace MarkupQuery.Tree

open MarkupQuery.Xml

def startTags (events : List Event) : List StartTag :=
  events.filterMap fun
    | .startTag tag => if tag.ending = .missing then none else some tag
    | _ => none

def Payload.declarations (payload : Payload) : List Declaration :=
  (payload.element?.map Element.declarations).getD []

namespace Subtree

mutual

/-- The elements of a tree in the order of their start tags, each with what it and those around it
declare. -/
def openings (around : Around) : Subtree → List (Element × Around)
  | .mk payload children =>
    (payload.element?.map fun e => (e, e.declarations :: around)).toList ++
      allOpenings (payload.declarations :: around) children

def allOpenings (around : Around) : List Subtree → List (Element × Around)
  | [] => []
  | tree :: rest => tree.openings around ++ allOpenings around rest

end

theorem allOpenings_append (around : Around) (trees more : List Subtree) :
    allOpenings around (trees ++ more) = allOpenings around trees ++ allOpenings around more := by
  induction trees with
  | nil => simp [allOpenings]
  | cons tree rest ih => simp [allOpenings, ih]

theorem allOpenings_singleton (around : Around) (tree : Subtree) :
    allOpenings around [tree] = tree.openings around := by
  simp [allOpenings]

end Subtree

def aroundOf (opened : List OpenElement) : Around :=
  opened.map (fun o => o.element.declarations) ++ [[]]

def OpenInStep : List OpenElement → Prop
  | [] => True
  | o :: outer => InStep o.scope (aroundOf (o :: outer)) ∧ OpenInStep outer

theorem OpenInStep.inStep {opened : List OpenElement} (h : OpenInStep opened) :
    InStep (scopeOf opened) (aroundOf opened) := by
  cases opened with
  | nil => exact inStep_nil
  | cons o outer => exact h.1

def openOpenings : List OpenElement → List (Element × Around)
  | [] => []
  | o :: outer => openOpenings outer ++ (o.element, aroundOf (o :: outer)) ::
      Subtree.allOpenings (aroundOf (o :: outer)) o.below.reverse

namespace Assembly

def openings (a : Assembly) : List (Element × Around) :=
  Subtree.allOpenings [[]] a.top.reverse ++ openOpenings a.opened

variable {a new : Assembly} {tags : List StartTag}

theorem openings_put (a : Assembly) (tree : Subtree) :
    (a.put tree).openings = a.openings ++ tree.openings (aroundOf a.opened) := by
  unfold Assembly.put Assembly.openings
  cases ho : a.opened with
  | nil =>
    simp [openOpenings, Subtree.allOpenings_append, Subtree.allOpenings_singleton, aroundOf]
  | cons o outer =>
    simp [openOpenings, Subtree.allOpenings_append, Subtree.allOpenings_singleton, aroundOf]

theorem opened_put (h : OpenInStep a.opened) (tree : Subtree) :
    OpenInStep (a.put tree).opened := by
  unfold Assembly.put
  cases ho : a.opened with
  | nil => rwa [ho] at h
  | cons o outer => rwa [ho] at h

/-- The start tags read so far have made these elements, and nothing that waits for the next tag
declares a default namespace. -/
structure Follows (a : Assembly) (tags : List StartTag) : Prop where
  opened : OpenInStep a.opened
  waiting : ∀ d ∈ a.declarations, d.qualifier ≠ none ∧ d.uri ≠ ""
  elements : List.Forall₂ (fun tag opening => opening.1.ReadFrom tag opening.2.uri) tags a.openings

theorem Follows.settled (h : a.Follows tags) : a.settled.Follows tags :=
  ⟨h.opened, by simp [Assembly.settled], h.elements⟩

/-- A tree adds its elements behind all others. -/
theorem Follows.put {tree : Subtree} {more : List StartTag} (h : a.Follows tags)
    (ht : List.Forall₂ (fun tag opening => opening.1.ReadFrom tag opening.2.uri) more
      (tree.openings (aroundOf a.opened))) : (a.put tree).Follows (tags ++ more) := by
  refine ⟨opened_put h.opened tree, declarations_put a tree ▸ h.waiting, ?_⟩
  rw [openings_put]
  exact List.rel_append h.elements ht

theorem Follows.put_leaf {payload : Payload} (h : a.Follows tags) (hp : payload.element? = none) :
    (a.put (.mk payload [])).Follows tags := by
  have hnone : (Subtree.mk payload []).openings (aroundOf a.opened) = [] := by
    simp [Subtree.openings, Subtree.allOpenings, hp]
  have hleaf : (a.put (.mk payload [])).Follows (tags ++ []) := h.put (hnone ▸ .nil)
  rwa [List.append_nil] at hleaf

theorem Follows.endText (h : a.Follows tags) : a.endText.Follows tags := by
  unfold Assembly.endText
  split
  · exact h
  · exact Follows.put_leaf (a := { a with pieces := [] }) ⟨h.opened, h.waiting, h.elements⟩ rfl

/-- The declarations of a start tag, with those that wait for it. -/
theorem Follows.own {tag : StartTag} {own : List Declaration} (h : a.Follows tags) (hs : a.Scoped)
    (ht : IsRegular tag) (hown : ownDeclarations? a.declarations tag.attributes = some own) :
    Distinct own ∧ (∀ d ∈ own, d.qualifier.isSome → d.uri ≠ "") ∧
      (tag.ending = .missing → ∀ d ∈ own, d.qualifier ≠ none ∧ d.uri ≠ "") := by
  have hnone : a.declarations.filter (fun d => d.qualifier == none) = [] :=
    List.filter_eq_nil_iff.mpr fun d hd => by simpa using (h.waiting d hd).1
  have hcount := defaults_ownDeclarations hown
  rw [hnone, List.length_nil, Nat.zero_add] at hcount
  have hnamed := named_ownDeclarations (fun d hd _ => (h.waiting d hd).2) ht.bound hown
  refine ⟨(hs.declarations.once.ownDeclarations hown).distinct (hcount ▸ ht.once), hnamed,
    fun hending d hd => ?_⟩
  have hwritten : tag.attributes.filter (fun w => declaredQualifier? w == some none) = [] :=
    List.filter_eq_nil_iff.mpr fun w hw => by simpa using ht.ending hending w hw
  rw [hwritten, List.length_nil, List.length_eq_zero_iff, List.filter_eq_nil_iff] at hcount
  have hprefixed : d.qualifier ≠ none := by simpa using hcount d hd
  exact ⟨hprefixed, hnamed d hd (Option.isSome_iff_ne_none.mpr hprefixed)⟩

theorem Follows.startTag {tag : StartTag} (h : a.Follows tags) (hs : a.Scoped)
    (hl : (Event.startTag tag).Legible) (ht : IsRegular tag) (ho : a.startTag? tag = some new) :
    new.Follows (tags ++ startTags [.startTag tag]) := by
  obtain ⟨hne, own, written, hown, rfl, hnew⟩ := startTag?_eq_some ho
  obtain ⟨hdistinct, hnamed, hwaiting⟩ := h.own hs ht hown
  -- the element of a tag that ends is in step with the declarations that it stores
  have hread : ∀ element scope, resolvedElement? a.scope own tag.name (a.attributes ++
      tag.attributes.filter fun w => (declaredQualifier? w).isNone) = some (element, scope) →
      InStep scope (element.declarations :: aroundOf a.opened) ∧
        element.ReadFrom tag (Around.uri (element.declarations :: aroundOf a.opened)) := by
    intro element scope hread
    obtain ⟨rfl, hstored, -⟩ := resolvedElement?_eq_some hread
    have hstep : InStep (innerScope own a.scope)
        (((innerScope own a.scope).filter fun d => !a.scope.contains d) :: aroundOf a.opened) :=
      h.opened.inStep.inner hdistinct hnamed
    rw [← hstored] at hstep
    exact ⟨hstep, hstep.readFrom ht (hs.resolved hl hne hown hread) hread⟩
  rcases hnew with ⟨hending, rfl⟩ | ⟨element, scope, hresolved, hnew⟩
  · have htags : startTags [.startTag tag] = [] := by simp [startTags, hending]
    rw [htags, List.append_nil]
    exact ⟨h.opened, hwaiting hending, h.elements⟩
  · obtain ⟨hstep, hfrom⟩ := hread element scope hresolved
    have htags : startTags [.startTag tag] = [tag] := by
      rcases hnew with ⟨hending, -⟩ | ⟨hending, -⟩ <;> simp [startTags, hending]
    rw [htags]
    rcases hnew with ⟨-, rfl⟩ | ⟨-, rfl⟩
    · refine h.settled.put ?_
      simpa [Subtree.openings, Subtree.allOpenings, Payload.element?, Assembly.settled] using hfrom
    · refine ⟨⟨hstep, h.opened⟩, by simp [Assembly.settled], ?_⟩
      have hopenings : Assembly.openings { a.settled with
          opened := { name := tag.name, element, scope } :: a.opened } =
          a.openings ++ [(element, element.declarations :: aroundOf a.opened)] := by
        simp [Assembly.openings, openOpenings, Assembly.settled, Subtree.allOpenings, aroundOf]
      rw [hopenings]
      exact List.rel_append h.elements (.cons hfrom .nil)

/-- An element that is closed keeps its place among the elements. -/
theorem Follows.endTag {name : QName} (h : a.Follows tags) (ho : a.endTag? name = some new) :
    new.Follows tags := by
  obtain ⟨o, outer, hopened, rfl⟩ := endTag?_eq_some ho
  have houter : OpenInStep outer := (hopened ▸ h.opened : OpenInStep (o :: outer)).2
  have hopenings : (Assembly.put { a.settled with opened := outer }
      (.mk (.element o.element) o.below.reverse)).openings = a.openings := by
    rw [openings_put]
    simp [Assembly.openings, hopened, openOpenings, Assembly.settled, Subtree.openings, aroundOf,
      Payload.element?, Payload.declarations]
  refine ⟨opened_put houter _, ?_, hopenings ▸ h.elements⟩
  rw [declarations_put]
  simp [Assembly.settled]

theorem Follows.step {event : Event} (h : a.Follows tags) (hs : a.Scoped) (hl : event.Legible)
    (ht : ∀ tag, event = .startTag tag → IsRegular tag) (ho : a.step? event = some new) :
    new.Follows (tags ++ startTags [event]) := by
  cases event with
  | startTag tag => exact h.endText.startTag hs.endText hl (ht tag rfl) ho
  | endTag name =>
    rw [show startTags [.endTag name] = [] from rfl, List.append_nil]
    exact h.endText.endTag ho
  | text content =>
    rw [step?, Option.some.injEq] at ho
    rw [show startTags [.text content] = [] from rfl, List.append_nil, ← ho]
    exact ⟨h.opened, h.waiting, h.elements⟩
  | comment content =>
    rw [step?, Option.some.injEq] at ho
    rw [show startTags [.comment content] = [] from rfl, List.append_nil, ← ho]
    exact h.endText.put_leaf rfl
  | instruction target data =>
    rw [step?, Option.some.injEq] at ho
    rw [show startTags [.instruction target data] = [] from rfl, List.append_nil, ← ho]
    exact h.endText.put_leaf rfl

theorem Follows.run {events : List Event} (h : a.Follows tags) (hs : a.Scoped)
    (hl : ∀ event ∈ events, event.Legible) (ht : ∀ tag, .startTag tag ∈ events → IsRegular tag)
    (ho : events.foldlM step? a = some new) : new.Follows (tags ++ startTags events) := by
  induction events generalizing a tags with
  | nil =>
    rw [List.foldlM_nil, Option.pure_def, Option.some.injEq] at ho
    simpa [startTags, ← ho] using h
  | cons event events ih =>
    obtain ⟨hevent, hrest⟩ := List.forall_mem_cons.mp hl
    rw [List.foldlM_cons, Option.bind_eq_bind, Option.bind_eq_some_iff] at ho
    obtain ⟨next, hstep, ho⟩ := ho
    have hnext := h.step hs hevent (fun tag he => ht tag (he ▸ List.mem_cons_self ..)) hstep
    have htags : startTags (event :: events) = startTags [event] ++ startTags events :=
      List.filterMap_append (l := [event])
    rw [htags, ← List.append_assoc]
    exact ih hnext (hs.step hevent hstep) hrest
      (fun tag hmem => ht tag (List.mem_cons_of_mem _ hmem)) ho

end Assembly

/-- The elements that are read from regular tags are those of the tags, in the same order. -/
theorem forall₂_openings {events : List Event} {trees : List Subtree}
    (hl : ∀ event ∈ events, event.Legible) (ht : ∀ tag, .startTag tag ∈ events → IsRegular tag)
    (h : assembled? events = some trees) :
    List.Forall₂ (fun tag opening => opening.1.ReadFrom tag opening.2.uri) (startTags events)
      (Subtree.allOpenings [[]] trees) := by
  simp only [assembled?, Option.bind_eq_bind, Option.bind_eq_some_iff] at h
  obtain ⟨a, hrun, hfinish⟩ := h
  have hstart : Assembly.Scoped {} := ⟨by simp, trivial, .nil, by simp, by simp⟩
  have hempty : Assembly.Follows {} [] := ⟨trivial, by simp, .nil⟩
  have helements := (hempty.run hstart hl ht hrun).elements
  rw [List.nil_append] at helements
  obtain ⟨⟨hclosed, -⟩, rfl⟩ := Assembly.finish?_eq_some.mp hfinish
  have hlast : Subtree.allOpenings [[]] a.lastText = [] := by
    unfold Assembly.lastText
    cases a.pieces.getLast? <;> rfl
  rw [Subtree.allOpenings_append, hlast]
  simpa [Assembly.openings, hclosed, openOpenings] using helements

namespace Document

variable {doc : Document} {id : NodeId}

def opening? (doc : Document) (id : NodeId) : Option (Element × Around) :=
  (doc.element? id).map fun e => (e, (doc.ancestors id).map doc.declarations)

mutual

/-- The elements at a node and below it are those of the tree that it holds. -/
theorem openings_subtree (h : Forest doc doc.children) : ∀ {tree : Subtree} {id : NodeId}
    {around : Around}, doc.Holds id tree →
    (doc.ancestors id).map doc.declarations = doc.declarations id :: around →
      (doc.subtree id).filterMap doc.opening? = tree.openings around
  | .mk payload children, id, around, hholds, haround => by
    rw [Holds] at hholds
    obtain ⟨-, rfl, hbelow⟩ := hholds
    have hkids := openings_children h hbelow
      (fun child hc => (h.mem_kids child id).mp hc) haround
    have hdeclared : doc.declarations id = (doc.payload id).declarations := rfl
    rw [h.subtree_eq, Subtree.openings, List.filterMap_cons, hkids, opening?, haround, ← hdeclared]
    change _ = ((doc.element? id).map _).toList ++ _
    cases he : doc.element? id with
    | none => rfl
    | some e => simp [declarations, he]

theorem openings_children (h : Forest doc doc.children) : ∀ {trees : List Subtree}
    {ids : List NodeId} {id : NodeId} {around : Around}, doc.HoldsBelow id ids trees →
    (∀ child ∈ ids, doc.parent child = some id) →
    (doc.ancestors id).map doc.declarations = doc.declarations id :: around →
      (ids.flatMap doc.subtree).filterMap doc.opening? =
        Subtree.allOpenings (doc.declarations id :: around) trees
  | [], ids, id, around, hbelow, _, _ => by
    cases ids with
    | nil => rfl
    | cons => simp [HoldsBelow] at hbelow
  | tree :: rest, ids, id, around, hbelow, hparent, haround => by
    cases ids with
    | nil => simp [HoldsBelow] at hbelow
    | cons child ids =>
      rw [HoldsBelow] at hbelow
      obtain ⟨-, hholds, hrest⟩ := hbelow
      obtain ⟨hchild, hparents⟩ := List.forall_mem_cons.mp hparent
      have hinside : (doc.ancestors child).map doc.declarations =
          doc.declarations child :: doc.declarations id :: around := by
        rw [h.ancestors_eq hchild, List.map_cons, haround]
      rw [List.flatMap_cons, List.filterMap_append, Subtree.allOpenings,
        openings_subtree h hholds hinside, openings_children h hrest hparents haround]

end

/-- What a prefix, or the default namespace, stands for by the first entry among the declarations in
force at a node. -/
def boundAt (doc : Document) (id : NodeId) (qualifier : Option String) : Option String :=
  ((doc.inScope id).find? fun d => d.qualifier == qualifier).map Declaration.uri

/-- The first entry is from the nearest element that has one. -/
theorem boundAt_eq (doc : Document) (id : NodeId) :
    doc.boundAt id = Around.uri ((doc.ancestors id).map doc.declarations) := by
  have hfold : ∀ (ids : List NodeId) (scope : List Declaration) (qualifier : Option String),
      ((ids.foldl (fun scope above => extendScope scope (doc.declarations above)) scope).find?
        fun d => d.qualifier == qualifier).map Declaration.uri =
      ((scope.find? fun d => d.qualifier == qualifier).map Declaration.uri).or
        (Around.uri (ids.map doc.declarations) qualifier) := by
    intro ids
    induction ids with
    | nil => simp [Around.uri]
    | cons above ids ih =>
      intro scope qualifier
      rw [List.foldl_cons, ih, find_extendScope, List.map_cons, Around.uri_cons, ← Option.or_assoc]
      cases scope.find? fun d => d.qualifier == qualifier <;> rfl
  funext qualifier
  simpa [boundAt, inScope] using hfold (doc.ancestors id) [] qualifier

/-- The elements of a document that is built from trees, in document order. -/
theorem openings_ofSubtrees {trees : List Subtree} (ht : ∀ tree ∈ trees, tree.Proper) :
    ((ofSubtrees trees).descendants root).filterMap (ofSubtrees trees).opening? =
      Subtree.allOpenings [[]] trees := by
  obtain ⟨kids, hk⟩ := Forest.exists_ofSubtrees ht
  have h := hk.self
  have hroot : (ofSubtrees trees).declarations root = [] := by
    simp [declarations, element?, h.root_payload, Payload.element?]
  rw [h.descendants_eq, ← hroot]
  refine openings_children h (Forest.holdsBelow_ofSubtrees ht)
    (fun child hc => (h.mem_kids child root).mp hc) ?_
  rw [h.ancestors_top h.parent_root, List.map_singleton]

/-- What is related to the values of a partial function is related to where it has them. -/
theorem forall₂_filter_of_filterMap {α β γ : Type} {r : α → γ → Prop} {f : β → Option γ}
    {as : List α} {bs : List β} (h : List.Forall₂ r as (bs.filterMap f)) :
    List.Forall₂ (fun a b => ∃ c, f b = some c ∧ r a c) as (bs.filter fun b => (f b).isSome) := by
  induction bs generalizing as with
  | nil =>
    cases h
    exact .nil
  | cons b bs ih =>
    cases hb : f b with
    | none =>
      rw [List.filterMap_cons_none hb] at h
      rw [List.filter_cons_of_neg (by simp [hb])]
      exact ih h
    | some c =>
      rw [List.filterMap_cons_some hb] at h
      rw [List.filter_cons_of_pos (by simp [hb])]
      cases h with
      | cons hfirst hrest => exact .cons ⟨c, hb, hfirst⟩ (ih hrest)

/-- Element by element in document order, the names of a document that is read from regular tags
agree with its declarations, except where the written prefix has a blank and the default namespace is
not that of the element. -/
theorem parsed_names {markup : String} {events : List Event} (hp : parse markup = .ok doc)
    (he : Xml.read? markup.toList = some events)
    (ht : ∀ tag, .startTag tag ∈ events → IsRegular tag) :
    List.Forall₂ (fun tag id => ∃ e, doc.element? id = some e ∧ e.ReadFrom tag (doc.boundAt id))
      (startTags events) ((doc.descendants root).filter doc.isElement) := by
  have hlegible := legible_of_read? he
  rw [parse, he, Option.bind_some] at hp
  cases htrees : assembled? events with
  | none => simp [htrees] at hp
  | some trees =>
    rw [htrees] at hp
    obtain rfl := Except.ok.inj hp
    have hproper : ∀ tree ∈ trees, tree.Proper := fun tree hmem =>
      (scoped_of_assembled hlegible htrees tree hmem).proper
    have helements := forall₂_openings hlegible ht htrees
    rw [← openings_ofSubtrees hproper] at helements
    have hsome : (fun id => ((ofSubtrees trees).opening? id).isSome) =
        (ofSubtrees trees).isElement := by
      funext id
      rw [opening?, Option.isSome_map]
      rfl
    rw [← hsome]
    refine (forall₂_filter_of_filterMap helements).imp fun tag id hopening => ?_
    obtain ⟨opening, hid, hread⟩ := hopening
    obtain ⟨e, helement, rfl⟩ := Option.map_eq_some_iff.mp hid
    exact ⟨e, helement, boundAt_eq _ id ▸ hread⟩

def shadowedMarkup : String :=
  "<r xmlns='v' xmlns:p='u'><p:a k='1' p:k='2'/><b xmlns='' xmlns:p='w'><p:c/></b><d/></r>"

/-- The names agree with the declarations everywhere. -/
theorem parsed_names_shadowed : ∃ doc events, parse shadowedMarkup = .ok doc ∧
    Xml.read? shadowedMarkup.toList = some events ∧
    (∀ tag, .startTag tag ∈ events → IsRegular tag) ∧
    List.Forall₂ (fun tag id => ∃ e, doc.element? id = some e ∧ e.ReadFrom tag (doc.boundAt id))
      (startTags events) ((doc.descendants root).filter doc.isElement) ∧
    (doc.descendants root).filter doc.isElement = [1, 2, 3, 4, 5] ∧
    [1, 2, 3, 4, 5].map doc.namespaceUri? = [some "v", some "u", none, some "w", some "v"] := by
  have hvalues : (Xml.read? shadowedMarkup.toList).map (List.all · fun
        | .startTag tag => decide (IsRegular tag)
        | _ => true) = some true ∧ (parse shadowedMarkup).isOk = true ∧
      ((ofMarkup shadowedMarkup).descendants root).filter (ofMarkup shadowedMarkup).isElement =
        [1, 2, 3, 4, 5] ∧
      [1, 2, 3, 4, 5].map (ofMarkup shadowedMarkup).namespaceUri? =
        [some "v", some "u", none, some "w", some "v"] := by decide +kernel
  obtain ⟨hread, hparsed, helements, huris⟩ := hvalues
  obtain ⟨events, he, hall⟩ := Option.map_eq_some_iff.mp hread
  have hregular : ∀ tag, .startTag tag ∈ events → IsRegular tag := fun tag htag =>
    of_decide_eq_true (List.all_eq_true.mp hall _ htag)
  have hp : parse shadowedMarkup = .ok (ofMarkup shadowedMarkup) := parse_ofMarkup hparsed
  exact ⟨_, events, hp, he, hregular, parsed_names hp he hregular, helements, huris⟩

def markedMarkup : String := "<p\u1680q:a xmlns:p\u1680q='u'/>"

/-- The element keeps its namespace but not its prefix, and no default namespace is declared. -/
theorem marked_prefix_lost : ∃ doc, parse markedMarkup = .ok doc ∧
    doc.qualifier? 1 = none ∧ doc.namespaceUri? 1 = some "u" ∧
    doc.inScope 1 = [⟨some "p\u1680q", "u"⟩] := by
  have hvalues : (parse markedMarkup).isOk = true ∧
      (ofMarkup markedMarkup).qualifier? 1 = none ∧
      (ofMarkup markedMarkup).namespaceUri? 1 = some "u" ∧
      (ofMarkup markedMarkup).inScope 1 = [⟨some "p\u1680q", "u"⟩] := by decide +kernel
  exact ⟨_, parse_ofMarkup hvalues.1, hvalues.2⟩

end Document

end MarkupQuery.Tree
