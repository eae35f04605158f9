import MarkupQuery.Proofs.Query.NodeSets
import MarkupQuery.Proofs.Selector.Filters
import MarkupQuery.Proofs.Selector.Grouping

namespace MarkupQuery.Selector

open MarkupQuery.Query MarkupQuery.Tree MarkupQuery.Tree.Document

/-- A star stands for any local name and, without a prefix, for any namespace. Another name without
a prefix is that of elements in no namespace. -/
def Name.Fits (bindings : Bindings) (name : Name) (element : Element) : Prop :=
  if name.localName = "*" then
    name.qualifier = none ∨ element.namespaceUri = name.namespaceUri bindings
  else element.name = name.localName ∧ element.namespaceUri = name.namespaceUri bindings

/-- A node that satisfies a compound is an element with a fitting name that is what all filters ask
for. -/
def Compound.Holds (doc : Document) (bindings : Bindings) (compound : Compound) (id : NodeId) :
    Prop :=
  ∃ element, doc.payload id = .element element ∧
    (∀ name ∈ compound.element, name.Fits bindings element) ∧
    ∀ filter ∈ compound.filters, filter.Holds bindings element

def Combinator.Relates (doc : Document) : Combinator → NodeId → NodeId → Prop
  | child, id, above => doc.ChildOf id above
  | descendant, id, above => doc.Below id above

section Steps

variable {s : Setting} {kids : NodeId → List NodeId} {compound : Compound} {sites : List Site}

/-- Only elements pass a name test, by what their names are. -/
theorem admits_element {doc : Document} {id : NodeId} {element : Element}
    (he : doc.payload id = .element element) :
    (∀ uri localName, (ResolvedTest.name uri localName).admits doc .child (.node id) =
      (element.namespaceUri == uri && element.name == localName)) ∧
    (∀ uri, (ResolvedTest.anyIn uri).admits doc .child (.node id) =
      (element.namespaceUri == some uri)) ∧
    ResolvedTest.any.admits doc .child (.node id) = true := by
  simp [ResolvedTest.admits, Axis.principal, Site.kind, Site.node, Site.namespaceUri?, Site.name?,
    Document.namespaceUri?, Document.element?, Payload.element?, he]

theorem element_of_admits {doc : Document} {id : NodeId} {resolved : ResolvedTest}
    (hname : ∀ wanted, resolved ≠ .type wanted)
    (h : resolved.admits doc .child (.node id) = true) :
    ∃ element, doc.payload id = .element element := by
  have hkind : (Site.node id).kind doc = .element := by
    cases resolved with
    | type wanted => exact absurd rfl (hname wanted)
    | any => simpa [ResolvedTest.admits, Axis.principal] using h
    | anyIn uri =>
      simp only [ResolvedTest.admits, Axis.principal, Bool.and_eq_true, beq_iff_eq] at h
      exact h.1
    | name uri localName =>
      simp only [ResolvedTest.admits, Axis.principal, Bool.and_eq_true, beq_iff_eq] at h
      exact h.1.1
  unfold Site.kind Site.node at hkind
  cases hp : doc.payload id <;> simp [hp] at hkind ⊢

/-- The test that a name is emitted as admits the elements that the name fits. -/
theorem admits_name {name : Name} (hb : name.Bound s.bindings) :
    ∃ resolved, name.test.resolve s.bindings = .ok resolved ∧
      (∀ wanted, resolved ≠ .type wanted) ∧
      ∀ doc id element, doc.payload id = .element element →
        (resolved.admits doc .child (.node id) = true ↔ name.Fits s.bindings element) := by
  by_cases hstar : name.localName = "*"
  · rw [Name.test, if_pos hstar]
    cases hqualifier : name.qualifier with
    | none =>
      refine ⟨.any, rfl, by simp, fun doc id element he => ?_⟩
      simp [(admits_element he).2.2, Name.Fits, hstar, hqualifier]
    | some qualifier =>
      refine ⟨.anyIn (namespaceOf s.bindings qualifier), ?_, by simp, fun doc id element he => ?_⟩
      · dsimp only
        rw [NodeTest.resolve, resolveQualifier_of_isBound (hb qualifier hqualifier)]
        rfl
      · simp [(admits_element he).2.1, Name.Fits, hstar, hqualifier, Name.namespaceUri]
  · refine ⟨_, resolve_of_bound hstar hb, by simp, fun doc id element he => ?_⟩
    simp [(admits_element he).1, Name.Fits, hstar, and_comm]

theorem admits_compound (hb : compound.Bound s.bindings) :
    ∃ resolved, compound.test.resolve s.bindings = .ok resolved ∧ ∀ doc id,
      resolved.admits doc .child (.node id) = true ↔ ∃ element,
        doc.payload id = .element element ∧
          ∀ name ∈ compound.element, name.Fits s.bindings element := by
  obtain ⟨resolved, hresolved, htype, hfits⟩ : ∃ resolved,
      compound.test.resolve s.bindings = .ok resolved ∧ (∀ wanted, resolved ≠ .type wanted) ∧
      ∀ doc id element, doc.payload id = .element element →
        (resolved.admits doc .child (.node id) = true ↔
          ∀ name ∈ compound.element, name.Fits s.bindings element) := by
    unfold Compound.test
    cases hname : compound.element with
    | none =>
      exact ⟨.any, rfl, by simp, fun doc id element he => by simp [(admits_element he).2.2]⟩
    | some name => simpa using admits_name (hb.element name hname)
  refine ⟨resolved, hresolved, fun doc id => ⟨fun h => ?_, fun h => ?_⟩⟩
  · obtain ⟨element, he⟩ := element_of_admits htype h
    exact ⟨element, he, (hfits doc id element he).mp h⟩
  · obtain ⟨element, he, hname⟩ := h
    exact (hfits doc id element he).mpr hname

theorem mem_children {doc : Document} (h : Forest doc kids) (start site : Site) :
    site ∈ start.children doc ↔
      start.index = none ∧ ∃ id, site = .node id ∧ doc.ChildOf id start.id := by
  unfold Site.children
  cases start.index with
  | some i => simp
  | none => simp [h.children_eq, h.mem_kids, ChildOf, eq_comm, and_comm]

/-- The step of a compound leads to the children that satisfy it. -/
theorem takeStep_compound (sites : List Site) (h : Forest s.source.document kids)
    (hr : compound.Readable) (hb : compound.Bound s.bindings) :
    ∃ found, takeStep s compound.step sites = .ok found ∧ ∀ site, site ∈ found ↔
      ∃ start ∈ sites, start.index = none ∧ ∃ id, site = .node id ∧
        s.source.document.ChildOf id start.id ∧ compound.Holds s.source.document s.bindings id := by
  obtain ⟨resolved, hresolved, hadmits⟩ := admits_compound hb
  refine takeStep_of_foundFrom hresolved fun start _ => ?_
  have hpassed : ∀ site, site ∈ (start.children s.source.document).filter
      (resolved.admits s.source.document .child) ↔ start.index = none ∧ ∃ id, site = .node id ∧
        s.source.document.ChildOf id start.id ∧ ∃ element,
          s.source.document.payload id = .element element ∧
            ∀ name ∈ compound.element, name.Fits s.bindings element := by
    intro site
    rw [List.mem_filter, mem_children h, and_assoc]
    refine and_congr_right fun _ => ⟨?_, ?_⟩
    · rintro ⟨⟨id, rfl, hchild⟩, hadmit⟩
      exact ⟨id, rfl, hchild, (hadmits _ id).mp hadmit⟩
    · rintro ⟨id, rfl, hchild, hfits⟩
      exact ⟨⟨id, rfl, hchild⟩, (hadmits _ id).mpr hfits⟩
  -- every filter is a predicate that does not ask for its position
  have hdecides : ∀ filter ∈ compound.filters, ∀ site ∈ (start.children s.source.document).filter
      (resolved.admits s.source.document .child), Decides s filter.expr site
        (∃ element, s.source.document.payload site.id = .element element ∧
          filter.Holds s.bindings element) := by
    intro filter hfilter site hsite
    obtain ⟨-, id, rfl, -, element, he, -⟩ := (hpassed site).mp hsite
    refine (decides_filter he (hr.filters filter hfilter) (hb.filters filter hfilter)).congr ?_
    constructor
    · intro hholds
      exact ⟨element, he, hholds⟩
    · rintro ⟨_, he', hholds⟩
      obtain rfl := Payload.element.inj (he.symm.trans he')
      exact hholds
  obtain ⟨kept, hkept, hmem⟩ := keepAll_of_decides hdecides
  refine ⟨kept, hkept, fun site => ?_⟩
  rw [hmem, hpassed, and_assoc]
  refine and_congr_right fun _ => ⟨?_, ?_⟩
  · rintro ⟨⟨id, rfl, hchild, element, he, hfits⟩, hfilters⟩
    refine ⟨id, rfl, hchild, element, he, hfits, fun filter hfilter => ?_⟩
    obtain ⟨_, he', hholds⟩ := hfilters filter hfilter
    obtain rfl := Payload.element.inj (he.symm.trans he')
    exact hholds
  · rintro ⟨id, rfl, hchild, element, he, hfits, hfilters⟩
    exact ⟨⟨id, rfl, hchild, element, he, hfits⟩, fun filter hfilter =>
      ⟨element, he, hfilters filter hfilter⟩⟩

theorem mem_subtree {doc : Document} (h : Forest doc kids) (start site : Site) :
    site ∈ start.subtree doc ↔
      site = start ∨ start.index = none ∧ ∃ id, site = .node id ∧ doc.Below id start.id := by
  rw [Site.subtree, Site.descendants_eq h]
  cases start.index with
  | some i => simp
  | none => simp [h.mem_descendants, eq_comm, and_comm]

/-- The steps of a combinator and a compound lead to the nodes that are related and satisfy the
compound. -/
theorem takeSteps_combinator (sites : List Site) (h : Forest s.source.document kids)
    (hr : compound.Readable) (hb : compound.Bound s.bindings) (combinator : Combinator) :
    ∃ found, takeSteps s (combinator.steps compound.step) sites = .ok found ∧
      ∀ site, site ∈ found ↔ ∃ start ∈ sites, start.index = none ∧ ∃ id, site = .node id ∧
        combinator.Relates s.source.document id start.id ∧
          compound.Holds s.source.document s.bindings id := by
  cases combinator with
  | child =>
    obtain ⟨found, hfound, hmem⟩ := takeStep_compound sites h hr hb
    refine ⟨found, ?_, hmem⟩
    rw [Combinator.steps, takeSteps_cons, hfound]
    exact takeSteps_nil s found
  | descendant =>
    obtain ⟨middle, hmiddle, hbelow⟩ := takeStep_anywhereBelow s sites
    obtain ⟨found, hfound, hmem⟩ := takeStep_compound middle h hr hb
    refine ⟨found, ?_, fun site => ?_⟩
    · rw [Combinator.steps, takeSteps_cons, hmiddle]
      change takeSteps s [compound.step] middle = .ok found
      rw [takeSteps_cons, hfound]
      exact takeSteps_nil s found
    · rw [hmem]
      constructor
      · rintro ⟨between, hbetween, hindex, id, rfl, hchild, hholds⟩
        obtain ⟨start, hstart, hsubtree⟩ := (hbelow between).mp hbetween
        rcases (mem_subtree h start between).mp hsubtree with rfl | ⟨hnode, above, rfl, habove⟩
        · exact ⟨between, hstart, hindex, id, rfl, .single hchild, hholds⟩
        · exact ⟨start, hstart, hnode, id, rfl, .head hchild habove, hholds⟩
      · rintro ⟨start, hstart, hindex, id, rfl, hrelated, hholds⟩
        -- one step above the node is the start or a node below it
        obtain ⟨above, hchild, hwithin⟩ := Relation.TransGen.head'_iff.mp hrelated
        have hsubtree : Site.node above ∈ start.subtree s.source.document := by
          rw [mem_subtree h]
          rcases Relation.reflTransGen_iff_eq_or_transGen.mp hwithin with heq | habove
          · obtain ⟨id, index⟩ := start
            obtain rfl : index = none := hindex
            exact .inl (by rw [← heq]; rfl)
          · exact .inr ⟨hindex, above, rfl, habove⟩
        exact ⟨.node above, (hbelow _).mpr ⟨start, hstart, hsubtree⟩, rfl, id, rfl, hchild, hholds⟩

end Steps

/-- A branch without its first compound reaches a node from another one if there is a chain of
nodes between them, each related to the one before and satisfying its compound. -/
def Branch.Reaches (doc : Document) (bindings : Bindings) : Branch → NodeId → NodeId → Prop
  | [], above, id => id = above
  | (combinator, compound) :: rest, above, id => ∃ next, combinator.Relates doc next above ∧
      compound.Holds doc bindings next ∧ Branch.Reaches doc bindings rest next id

/-- Where a chain may start: at any attached node, or anywhere below the context node. -/
def Anchor.Admits (doc : Document) (site : Site) : Anchor → NodeId → Prop
  | document, id => doc.isAttached id
  | context, id => site.index = none ∧ doc.Below id site.id

/-- A branch matches the last node of a chain that starts where the anchor says. -/
def Branch.Matches (doc : Document) (bindings : Bindings) (anchor : Anchor) (site : Site) :
    Branch → NodeId → Prop
  | [], _ => False
  | (_, compound) :: rest, id => ∃ first, anchor.Admits doc site first ∧
      compound.Holds doc bindings first ∧ Branch.Reaches doc bindings rest first id

section Branches

variable {s : Setting} {kids : NodeId → List NodeId} {branch : Branch} {sites : List Site}

/-- From the nodes that satisfy `P`, the steps of a branch lead to the nodes that it reaches. -/
theorem takeSteps_branch (h : Forest s.source.document kids) (hr : branch.Readable)
    (hb : branch.Bound s.bindings) {P : NodeId → Prop}
    (hs : ∀ site, site ∈ sites ↔ ∃ id, site = .node id ∧ P id) :
    ∃ found, takeSteps s (Branch.steps branch) sites = .ok found ∧
      ∀ site, site ∈ found ↔ ∃ id, site = .node id ∧ ∃ above, P above ∧
        Branch.Reaches s.source.document s.bindings branch above id := by
  induction branch generalizing sites P with
  | nil => exact ⟨sites, takeSteps_nil s sites, by simpa [Branch.Reaches] using hs⟩
  | cons step branch ih =>
    obtain ⟨combinator, compound⟩ := step
    obtain ⟨hreadable, hr⟩ := List.forall_mem_cons.mp hr
    obtain ⟨hbound, hb⟩ := List.forall_mem_cons.mp hb
    obtain ⟨middle, hmiddle, hmem⟩ := takeSteps_combinator sites h hreadable hbound combinator
    have hnext : ∀ site, site ∈ middle ↔ ∃ next, site = .node next ∧ ∃ above, P above ∧
        combinator.Relates s.source.document next above ∧
          compound.Holds s.source.document s.bindings next := by
      intro site
      rw [hmem]
      constructor
      · rintro ⟨start, hstart, -, next, rfl, hrelated, hholds⟩
        obtain ⟨above, rfl, habove⟩ := (hs start).mp hstart
        exact ⟨next, rfl, above, habove, hrelated, hholds⟩
      · rintro ⟨next, rfl, above, habove, hrelated, hholds⟩
        exact ⟨.node above, (hs _).mpr ⟨above, rfl, habove⟩, rfl, next, rfl, hrelated, hholds⟩
    obtain ⟨found, hfound, hreached⟩ := ih hr hb hnext
    refine ⟨found, ?_, fun site => ?_⟩
    · have hcons : Branch.steps ((combinator, compound) :: branch) =
          combinator.steps compound.step ++ Branch.steps branch := rfl
      rw [hcons, takeSteps_append, hmiddle]
      exact hfound
    · rw [hreached]
      refine exists_congr fun id => and_congr_right fun _ => ?_
      constructor
      · rintro ⟨next, ⟨above, habove, hrelated, hholds⟩, hreaches⟩
        exact ⟨above, habove, next, hrelated, hholds, hreaches⟩
      · rintro ⟨above, habove, next, hrelated, hholds, hreaches⟩
        exact ⟨next, ⟨above, habove, hrelated, hholds⟩, hreaches⟩

/-- The steps of a whole branch, whose first combinator is a descendant combinator. -/
theorem takeSteps_whole (h : Forest s.source.document kids) {compound : Compound}
    (hr : Branch.Readable ((.descendant, compound) :: branch))
    (hb : Branch.Bound s.bindings ((.descendant, compound) :: branch)) (start : Site) :
    ∃ found, takeSteps s (Branch.steps ((.descendant, compound) :: branch)) [start] = .ok found ∧
      ∀ site, site ∈ found ↔ ∃ id, site = .node id ∧ ∃ first,
        (start.index = none ∧ s.source.document.Below first start.id ∧
          compound.Holds s.source.document s.bindings first) ∧
        Branch.Reaches s.source.document s.bindings branch first id := by
  obtain ⟨hreadable, hr⟩ := List.forall_mem_cons.mp hr
  obtain ⟨hbound, hb⟩ := List.forall_mem_cons.mp hb
  obtain ⟨middle, hmiddle, hmem⟩ :=
    takeSteps_combinator [start] h hreadable hbound .descendant
  have hfirst : ∀ site, site ∈ middle ↔ ∃ first, site = .node first ∧ start.index = none ∧
      s.source.document.Below first start.id ∧
        compound.Holds s.source.document s.bindings first := by
    intro site
    rw [hmem]
    constructor
    · rintro ⟨only, honly, hindex, first, rfl, hbelow, hholds⟩
      obtain rfl := List.mem_singleton.mp honly
      exact ⟨first, rfl, hindex, hbelow, hholds⟩
    · rintro ⟨first, rfl, hindex, hbelow, hholds⟩
      exact ⟨start, List.mem_singleton_self start, hindex, first, rfl, hbelow, hholds⟩
  obtain ⟨found, hfound, hreached⟩ := takeSteps_branch h hr hb hfirst
  refine ⟨found, ?_, hreached⟩
  have hcons : Branch.steps ((.descendant, compound) :: branch) =
      Combinator.descendant.steps compound.step ++ Branch.steps branch := rfl
  rw [hcons, takeSteps_append, hmiddle]
  exact hfound

/-- An element is attached if it is below the document node. -/
theorem below_root_iff {doc : Document} (h : Forest doc kids) {id : NodeId} {element : Element}
    (he : doc.payload id = .element element) : doc.Below id root ↔ doc.isAttached id := by
  rw [h.isAttached_iff, Within, Relation.reflTransGen_iff_eq_or_transGen]
  refine ⟨.inr, fun hwithin => hwithin.resolve_left fun heq => ?_⟩
  rw [← heq, h.root_payload] at he
  cases he

/-- The path of a branch leads to the nodes that the branch matches. -/
theorem evaluate_branch (h : Forest s.source.document kids) (hroot : s.root = .document)
    (hg : branch.Grouped) (hr : branch.Readable) (hb : branch.Bound s.bindings) (anchor : Anchor)
    (context : Site) :
    ∃ found, evaluate s { site := context } (anchor.path (Branch.steps branch)) =
        .ok (.nodes found) ∧
      ∀ site, site ∈ found ↔ ∃ id, site = .node id ∧
        branch.Matches s.source.document s.bindings anchor context id := by
  obtain ⟨compound, rest, rfl⟩ := hg.first
  cases anchor with
  | document =>
    obtain ⟨found, hfound, hmem⟩ := takeSteps_whole h hr hb .document
    refine ⟨found, ?_, fun site => ?_⟩
    · rw [Anchor.path, evaluate, hroot, hfound]
      rfl
    · rw [hmem]
      refine exists_congr fun id => and_congr_right fun _ => exists_congr fun first => ?_
      constructor
      · rintro ⟨⟨-, hbelow, element, he, hholds⟩, hreaches⟩
        exact ⟨(below_root_iff h he).mp hbelow, ⟨element, he, hholds⟩, hreaches⟩
      · rintro ⟨hattached, ⟨element, he, hholds⟩, hreaches⟩
        exact ⟨⟨rfl, (below_root_iff h he).mpr hattached, element, he, hholds⟩, hreaches⟩
  | context =>
    obtain ⟨found, hfound, hmem⟩ := takeSteps_whole h hr hb context
    refine ⟨found, ?_, fun site => ?_⟩
    · rw [Anchor.path, evaluate, takeSteps_cons, takeStep_here]
      change (takeSteps s _ [context]).map Value.nodes = _
      rw [hfound]
      rfl
    · rw [hmem]
      refine exists_congr fun id => and_congr_right fun _ => exists_congr fun first => ?_
      rw [Anchor.Admits, and_assoc, and_assoc, and_assoc]

end Branches

end MarkupQuery.Selector

/-!
Compiled selectors are correct: the query that a selector is compiled to selects the elements that
the selector matches.
-/

namespace MarkupQuery.Selector

open MarkupQuery.Query MarkupQuery.Tree MarkupQuery.Tree.Document

/-- The names in a selector have to be names of the query language; an attribute has a name. -/
def Token.Readable : Token → Prop
  | .element name => name.Readable
  | .attribute name _ _ => name.Readable ∧ name.localName ≠ "*"
  | _ => True

def Token.Bound (bindings : Bindings) : Token → Prop
  | .element name | .attribute name _ _ => name.Bound bindings
  | _ => True

variable {s : Setting} {anchor : Anchor} {selector : String} {compiled : Compiled}
  {placed : List Placed} {found : List Branch} {bindings : Bindings} {context : Site}

theorem compile_ok (h : compile anchor selector = .ok compiled) (ht : tokenize selector = .ok placed) :
    ∃ found, branches selector placed = .ok found ∧
      compiled = ⟨found.map fun branch => String.ofList (emitBranch anchor branch)⟩ := by
  rw [compile, ht] at h
  simp only [bind, Except.bind] at h
  split at h
  · cases h
  · cases hfound : branches selector placed with
    | error e => simp [hfound] at h
    | ok found =>
      simp only [hfound, pure, Except.pure, Except.ok.injEq] at h
      exact ⟨found, rfl, h.symm⟩

theorem readable_of_spells {tokens : List Token} (h : Spells found tokens)
    (ht : ∀ token ∈ tokens, token.Readable) : ∀ branch ∈ found, branch.Readable := by
  intro branch hbranch step hstep
  refine ⟨fun name hname => ht _ (h.element hbranch hstep hname), fun filter hfilter => ?_⟩
  have hreadable := ht _ (h.filter hbranch hstep hfilter)
  cases filter <;> exact hreadable

theorem bound_of_spells {tokens : List Token} (h : Spells found tokens)
    (ht : ∀ token ∈ tokens, token.Bound bindings) : ∀ branch ∈ found, branch.Bound bindings := by
  intro branch hbranch step hstep
  refine ⟨fun name hname => ht _ (h.element hbranch hstep hname), fun filter hfilter => ?_⟩
  have hbound := ht _ (h.filter hbranch hstep hfilter)
  cases filter <;> exact hbound

/-- For a selector whose names can be read and whose prefixes are bound, the compiled query selects
in document order, each once, the elements that one of the branches written in the selector
matches. -/
theorem select_compiled (hd : s.source.document.Reachable) (hroot : s.root = .document)
    (hcontext : context ∈ Site.all s.source.document)
    (hc : compile anchor selector = .ok compiled) (ht : tokenize selector = .ok placed)
    (hn : ∀ next ∈ placed, next.token.Readable ∧ next.token.Bound s.bindings) :
    ∃ found sites, Spells found (placed.map Placed.token) ∧
      select s context compiled.query = .ok sites ∧ s.source.InOrder sites ∧ sites.Nodup ∧
      ∀ site, site ∈ sites ↔ ∃ id, site = .node id ∧ ∃ branch ∈ found,
        branch.Matches s.source.document s.bindings anchor context id := by
  have h := hd.forest
  obtain ⟨found, hfound, rfl⟩ := compile_ok hc ht
  have hspells := spells_branches hfound
  have hreadable := readable_of_spells hspells (by simpa using fun next hnext => (hn next hnext).1)
  have hbound := bound_of_spells hspells (by simpa using fun next hnext => (hn next hnext).2)
  have hgrouped := hspells.grouped
  obtain ⟨first, more, rfl⟩ := List.exists_cons_of_ne_nil hspells.ne_nil
  have hparse := parse_emitted anchor (fun branch hbranch => ⟨hreadable branch hbranch, by
    obtain ⟨compound, rest, heq⟩ := (hgrouped branch hbranch).first
    simp [heq]⟩)
  obtain ⟨sites, hsites, hmem⟩ := evaluate_unionOf (fun branch hbranch =>
    evaluate_branch h hroot (hgrouped branch hbranch) (hreadable branch hbranch)
      (hbound branch hbranch) anchor context)
  have hsublist : sites.Sublist (Site.all s.source.document) :=
    evaluate_sublist h hroot hcontext hsites
  have horder := (Site.inOrder_all h).sublist hsublist
  refine ⟨first :: more, sites, hspells, ?_, horder, ?_, fun site => ?_⟩
  · exact select_eq_ok.mpr ⟨_, hparse, unbound_unionOf anchor hbound, hsites⟩
  · refine horder.imp fun {a b} hbefore heq => ?_
    subst heq
    exact Ranked.precedes_irrefl _ _ hbefore
  · rw [hmem]
    constructor
    · rintro ⟨branch, hbranch, id, rfl, hmatches⟩
      exact ⟨id, rfl, branch, hbranch, hmatches⟩
    · rintro ⟨id, rfl, branch, hbranch, hmatches⟩
      exact ⟨branch, hbranch, id, rfl, hmatches⟩

def classed : Document :=
  (Change.append 1 3).apply ((Change.create (.element
    { name := "c", attributes := [{ name := "class", value := "x y" }] })).apply movedOut)

theorem reachable_classed : classed.Reachable := by
  refine .change_alone _ ?_ (by simp)
  exact .change_alone _ reachable_movedOut (by simp)

def classedSetting : Setting := { source := .of classed }

def classedTokens : List Placed :=
  [⟨.element ⟨none, "b"⟩, 0⟩, ⟨.comma, 1⟩, ⟨.element ⟨none, "a"⟩, 3⟩, ⟨.child, 4⟩,
    ⟨.className "y", 7⟩]

/-- The first branch selects the first element, the second branch the one below the second
element. -/
theorem select_compiled_classed : classedSetting.source.document.Reachable ∧
    tokenize "b, a > .y" = .ok classedTokens ∧
    ∃ compiled found, compile .context "b, a > .y" = .ok compiled ∧
      Spells found (classedTokens.map Placed.token) ∧
      select classedSetting .document compiled.query = .ok [.node 2, .node 3] ∧
      ∀ site, site ∈ [Site.node 2, .node 3] ↔ ∃ id, site = .node id ∧ ∃ branch ∈ found,
        branch.Matches classed classedSetting.bindings .context .document id := by
  have hd : classedSetting.source.document.Reachable := reachable_classed
  have hcontext : Site.document ∈ Site.all classed := by decide +kernel
  have ht : tokenize "b, a > .y" = .ok classedTokens := by decide +kernel
  have hc : compile .context "b, a > .y" = .ok ⟨[".//b",
      ".//a/*[contains(concat(' ', normalize-space(@class), ' '), ' y ')]"]⟩ := by decide +kernel
  have hplain : IsPlain "a" ∧ IsPlain "b" := by decide +kernel
  have hn : ∀ next ∈ classedTokens,
      next.token.Readable ∧ next.token.Bound classedSetting.bindings := by
    simp only [classedTokens, List.forall_mem_cons, Token.Readable, Token.Bound, Name.Bound]
    exact ⟨⟨⟨by simp, .inr hplain.2⟩, by simp⟩, by simp, ⟨⟨by simp, .inr hplain.1⟩, by simp⟩,
      by simp, by simp, by simp⟩
  obtain ⟨found, sites, hspells, hselect, -, -, hmem⟩ := select_compiled hd rfl hcontext hc ht hn
  have hsites : select classedSetting .document (Compiled.query ⟨[".//b",
      ".//a/*[contains(concat(' ', normalize-space(@class), ' '), ' y ')]"]⟩) =
        .ok [.node 2, .node 3] := by decide +kernel
  obtain rfl := Except.ok.inj (hselect.symm.trans hsites)
  exact ⟨hd, ht, _, found, hc, hspells, hselect, hmem⟩

end MarkupQuery.Selector
