import MarkupQuery.Proofs.Tree.Elementwise
import MarkupQuery.Proofs.Tree.Declared
import MarkupQuery.Proofs.Tree.Plain

namespace MarkupQuery.Tree

open MarkupQuery.Xml

variable {e : Element} {own more outer inner : List Declaration} {around : String}
  {tags : List (List Declaration)} {a : Assembly} {tree : Subtree} {trees : List Subtree}

/-- What is written around a tree of a document: what its scope there declares can be read from the
tags, and `around` is the default namespace inside of them. -/
structure Surrounds (tags : List (List Declaration)) (outer : List Declaration)
    (around : String) : Prop where
  once : ∀ ds ∈ tags, DeclaredOnce ds
  covers : ∀ q u, ⟨some q, u⟩ ∈ outer → lookup? (readScope tags) q = some (some u)
  default : readDefault tags = around
  allowed : IsDefault around
  plain : ∀ d ∈ outer, d.Plain

theorem surrounds_nil : Surrounds [] [] "" where
  once := by simp
  covers := by simp
  default := rfl
  allowed := isDefault_empty
  plain := by simp

section Tags

theorem find_declared (hm : Added more) (around q : String) :
    (e.declared more around).find? (fun d => d.qualifier == some q) =
      e.declarations.find? fun d => d.qualifier == some q := by
  have hmore : more.filter (fun d => d.qualifier.isSome) = [] :=
    List.filter_eq_nil_iff.mpr fun d hd => by simp [(hm d hd).1]
  have hfind : (e.declarations.filter fun d => d.qualifier.isSome).find?
      (fun d => d.qualifier == some q) = e.declarations.find? fun d => d.qualifier == some q := by
    rw [List.find?_filter]
    congr 1
    funext d
    cases hq : d.qualifier <;> simp [beq_eq_decide]
  unfold Element.declared
  rw [List.filter_append, hmore, List.append_nil, List.find?_append, hfind]
  split <;> simp

/-- Inside of a written element the scope of its content can be read. -/
theorem Surrounds.inside (h : Surrounds tags outer around) (he : e.ScopedIn outer inner)
    (hi : ∀ d ∈ inner, d.Plain) (hm : Added more) :
    Surrounds (e.declared more around :: tags) inner (e.defaultNamespace more around) where
  once := List.forall_mem_cons.mpr ⟨he.declaredOnce_declared hm around, h.once⟩
  covers q u hu := by
    have hq : q ≠ "" := ((he.scope.legible _ hu).qualifier q rfl).1.ne_empty
    rw [lookup?_eq hq, readScope, List.foldr_cons, find_innerScope, ← readScope, find_declared hm]
    rcases he.find_declarations hu with hsome | ⟨hnone, hmem⟩
    · obtain ⟨d, hd, rfl⟩ := Option.map_eq_some_iff.mp hsome
      rw [hd]
      rfl
    · rw [hnone, Option.none_or, ← lookup?_eq hq]
      exact h.covers q u hmem
  default := readDefault_declared h.default e more
  allowed := he.isDefault_inside hi h.allowed hm
  plain := hi

/-- The names of an element are read back inside of its start tag. -/
theorem Surrounds.readsBack (h : Surrounds tags inner (e.defaultNamespace more around))
    (he : e.ScopedIn outer inner) (hempty : e.qualifier ≠ some "") : e.ReadsBack tags := by
  have hbound : ∀ q u, ⟨some q, u⟩ ∈ inner → boundAs q tags = some [u] := fun q u hu =>
    (lookup?_readScope h.once ((he.scope.legible _ hu).qualifier q rfl).1.ne_empty).mp
      (h.covers q u hu)
  have hdefault : e.qualifier = none → readDefault tags = e.namespaceUri.getD "" := fun hq => by
    rw [h.default, Element.defaultNamespace, hq]
  refine ((he.writable hempty).readsBack_iff hdefault).mpr ⟨h.once, fun q hq _ => ?_,
    fun a ha q hq hx => ?_⟩
  · obtain ⟨u, hu, rfl | ⟨-, hmem⟩⟩ := he.qualifier q hq
    · exact absurd hq hempty
    · exact ⟨u, hu, hbound q u hmem⟩
  · rcases (he.attributes a ha).bound with ⟨hnone, -⟩ | ⟨hxml, -⟩ | ⟨q', u, hq', hu, hmem⟩
    · simp [hnone] at hq
    · exact absurd (Option.some.inj (hq.symm.trans hxml)) hx
    · obtain rfl := Option.some.inj (hq.symm.trans hq')
      exact ⟨u, hu, hbound q u hmem⟩

theorem declaredQualifier?_declaration (d : Declaration) :
    declaredQualifier? d.written = some d.qualifier := by
  obtain ⟨qualifier, uri⟩ := d
  cases qualifier <;> rfl

/-- An attribute of a document is not taken for a declaration. -/
theorem Attribute.ScopedIn.declares_nothing {a : Attribute} (h : a.ScopedIn inner)
    (hi : ∀ d ∈ inner, d.Plain) : declaredQualifier? a.written = none := by
  have hq : a.written.name.qualifier ≠ "xmlns" := by
    rcases h.bound with ⟨hnone, -⟩ | ⟨hxml, -⟩ | ⟨q, u, hq, -, hmem⟩
    · simp [Attribute.written, QName.qualifier, hnone]
    · simp [Attribute.written, QName.qualifier, hxml]
    · simpa [Attribute.written, QName.qualifier, hq] using (hi _ hmem).qualifier
  rw [declaredQualifier?, if_neg (by simpa using hq), if_neg]
  simpa [Attribute.written] using h.name_ne

/-- The declarations of a start tag are read in their order. -/
theorem ownDeclarations?_written {ds : List Declaration} {attributes : List Attribute}
    (hd : ∀ d ∈ ds, d.Legible) (ho : DeclaredOnce (own ++ ds))
    (ha : ∀ a ∈ attributes, declaredQualifier? a.written = none) :
    ownDeclarations? own (ds.map Declaration.written ++ attributes.map Attribute.written) =
      some (own ++ ds) := by
  induction ds generalizing own with
  | nil =>
    rw [List.map_nil, List.nil_append, List.append_nil]
    clear ho
    induction attributes with
    | nil => rfl
    | cons a attributes ih =>
      obtain ⟨hnone, hrest⟩ := List.forall_mem_cons.mp ha
      rw [List.map_cons, ownDeclarations?, hnone]
      exact ih hrest
  | cons d ds ih =>
    obtain ⟨hlegible, hrest⟩ := List.forall_mem_cons.mp hd
    have hallowed : mayDeclare d.qualifier d.written.value = true := hlegible.allowed
    -- what was declared so far in the tag is not declared again
    have htwice : (d.qualifier.isSome && own.any fun known => known.qualifier == d.qualifier) =
        false := by
      rw [Bool.and_eq_false_imp]
      intro hsome
      rw [List.any_eq_false]
      intro known hk he
      rw [beq_iff_eq] at he
      exact (List.pairwise_append.mp ho).2.2 known hk d (by simp) (he ▸ hsome) he
    have hxml : (d.qualifier == some "xml") = false := by
      rw [beq_eq_false_iff_ne]
      exact fun hq => (hlegible.qualifier "xml" hq).2 rfl
    have hnext : DeclaredOnce ((own ++ [d]) ++ ds) := by simpa using ho
    rw [List.map_cons, List.cons_append, ownDeclarations?, declaredQualifier?_declaration]
    simp only [hallowed, htwice, hxml, Bool.not_true, Bool.false_eq_true, if_false]
    rw [show (⟨d.qualifier, d.written.value⟩ : Declaration) = d from rfl, ih hrest hnext]
    simp

/-- The attributes of a start tag are read in their order, if no two of them have the same name. -/
theorem resolvedAttributes?_written {scope : List Declaration} {attributes done : List Attribute}
    (h : ∀ a ∈ attributes,
      attributeNamespace? scope (a.qualifier.getD "") = some a.namespaceUri)
    (hd : DistinctNames attributes)
    (hn : ∀ b ∈ done, ∀ a ∈ attributes, ¬ (b.namespaceUri = a.namespaceUri ∧ b.name = a.name)) :
    ∃ read, resolvedAttributes? scope done (attributes.map Attribute.written) =
      some (done ++ read) ∧ read.map Attribute.bare = attributes.map Attribute.bare := by
  induction attributes generalizing done with
  | nil => exact ⟨[], by simp [resolvedAttributes?], rfl⟩
  | cons a rest ih =>
    obtain ⟨ha, hrest⟩ := List.forall_mem_cons.mp h
    obtain ⟨hfirst, hd⟩ := List.pairwise_cons.mp hd
    have hsame : (done.any fun b =>
        b.namespaceUri == a.namespaceUri && b.name == a.written.name.localName) = false := by
      rw [List.any_eq_false]
      intro b hb
      simpa [Attribute.written] using fun hu hname => hn b hb a (by simp) ⟨hu, hname⟩
    -- the prefix may be another one that stands for the same namespace
    obtain ⟨next, hnext⟩ : ∃ next : Attribute, next = { a with
        qualifier := a.namespaceUri.bind (attributeQualifier scope) } := ⟨_, rfl⟩
    have hdone : ∀ b ∈ done ++ [next], ∀ x ∈ rest,
        ¬ (b.namespaceUri = x.namespaceUri ∧ b.name = x.name) := by
      refine List.forall_mem_append.mpr
        ⟨fun b hb x hx => hn b hb x (List.mem_cons_of_mem a hx), ?_⟩
      simpa [hnext] using fun x hx hu hname => hfirst x hx ⟨hu, hname⟩
    obtain ⟨read, hread, hbare⟩ := ih hrest hd hdone
    refine ⟨next :: read, ?_, by simp [hbare, hnext, Attribute.bare]⟩
    rw [List.map_cons, resolvedAttributes?]
    simp only [show a.written.name.qualifier = a.qualifier.getD "" from rfl, ha, hsame,
      Bool.false_eq_true, if_false]
    simpa [hnext, Attribute.written] using hread

/-- The element of a start tag is the one that was written. -/
theorem resolvedElement?_written (h : e.ReadsBack (own :: tags)) (hd : DistinctNames e.attributes) :
    ∃ read, resolvedElement? (readScope tags) own e.tagName (e.attributes.map Attribute.written) =
      some (read, readScope (own :: tags)) ∧ read.bare = e.bare := by
  have hscope : innerScope own (readScope tags) = readScope (own :: tags) := rfl
  obtain ⟨found, hfound, hfilter⟩ := Option.map_eq_some_iff.mp h.element
  obtain ⟨attributes, hattributes, hbare⟩ :=
    resolvedAttributes?_written h.attributes hd (show ∀ b ∈ ([] : List Attribute), _ by simp)
  have hname : e.tagName.qualifier = e.qualifier.getD "" := rfl
  simp only [resolvedElement?, hscope, hattributes, hname, hfound, hfilter, List.nil_append,
    Option.bind_eq_bind, Option.bind_some]
  exact ⟨_, rfl, by simp [Element.bare, Element.tagName, hbare]⟩

end Tags

theorem Subtree.ScopedIn.eq_text {tree : Subtree} (h : tree.ScopedIn outer)
    (ht : tree.payload.isText = true) : ∃ content, tree = .mk (.text content) [] := by
  cases h with
  | element => cases ht
  | @leaf _ payload hl =>
    cases payload with
    | text content => exact ⟨content, rfl⟩
    | _ => cases ht

namespace Assembly

@[simp] theorem pieces_put (a : Assembly) (tree : Subtree) : (a.put tree).pieces = a.pieces := by
  unfold put
  split <;> rfl

@[simp] theorem attributes_put (a : Assembly) (tree : Subtree) :
    (a.put tree).attributes = a.attributes := by
  unfold put
  split <;> rfl

@[simp] theorem scope_put (a : Assembly) (tree : Subtree) : (a.put tree).scope = a.scope := by
  unfold put scope
  split <;> simp_all

theorem endText_of_pieces (h : a.pieces = []) : a.endText = a := by simp [endText, h]

theorem pieces_endText (a : Assembly) : a.endText.pieces = [] := by
  unfold endText
  split
  · simpa using ‹a.pieces.isEmpty = true›
  · simp

def putAll (a : Assembly) (trees : List Subtree) : Assembly := trees.foldl put a

theorem putAll_of_opened {o : OpenElement} {outside : List OpenElement}
    (h : a.opened = o :: outside) :
    a.putAll trees = { a with opened := { o with below := trees.reverse ++ o.below } :: outside } := by
  induction trees generalizing a o with
  | nil => cases a; simp_all [putAll]
  | cons tree trees ih =>
    have hput : a.put tree = { a with opened := { o with below := tree :: o.below } :: outside } := by
      simp [put, h]
    rw [putAll, List.foldl_cons, ← putAll, hput, ih rfl]
    simp

theorem putAll_of_nil (h : a.opened = []) :
    a.putAll trees = { a with top := trees.reverse ++ a.top } := by
  induction trees generalizing a with
  | nil => cases a; simp_all [putAll]
  | cons tree trees ih =>
    have hput : a.put tree = { a with top := tree :: a.top } := by simp [put, h]
    rw [putAll, List.foldl_cons, ← putAll, hput, ih (a := { a with top := tree :: a.top }) h]
    simp

/-- The reader stands inside of these tags, and nothing waits for the next one. -/
structure Inside (tags : List (List Declaration)) (a : Assembly) : Prop where
  scope : a.scope = readScope tags
  declarations : a.declarations = []
  attributes : a.attributes = []

theorem Inside.put (h : a.Inside tags) (tree : Subtree) : (a.put tree).Inside tags := by
  constructor <;> simp [h.scope, h.declarations, h.attributes]

theorem Inside.putAll (h : a.Inside tags) (hp : a.pieces = []) (trees : List Subtree) :
    (a.putAll trees).Inside tags ∧ (a.putAll trees).pieces = [] := by
  induction trees generalizing a with
  | nil => exact ⟨h, hp⟩
  | cons tree trees ih => exact ih (h.put tree) (by rw [pieces_put, hp])

theorem Inside.endText (h : a.Inside tags) : a.endText.Inside tags := by
  unfold Assembly.endText
  split
  · exact h
  · exact Inside.put (a := { a with pieces := [] }) ⟨h.scope, h.declarations, h.attributes⟩ _

theorem inside_of_endText (h : a.endText.Inside tags) : a.Inside tags := by
  unfold Assembly.endText at h
  split at h
  · exact h
  · obtain ⟨hscope, hdeclarations, hattributes⟩ := h
    rw [scope_put] at hscope
    rw [declarations_put] at hdeclarations
    rw [attributes_put] at hattributes
    exact ⟨hscope, hdeclarations, hattributes⟩

theorem Inside.settled (h : a.Inside tags) : a.settled = a := by
  obtain ⟨-, hdeclarations, hattributes⟩ := h
  cases a
  simp_all [Assembly.settled]

/-- The start tag of an element is read as that element, prefixes and declarations apart. -/
theorem Inside.startTag (ha : a.Inside tags) (hs : Surrounds tags outer around)
    (he : e.ScopedIn outer inner) (hi : ∀ d ∈ inner, d.Plain) (hm : Added more)
    (hempty : e.qualifier ≠ some "") :
    ∃ o : OpenElement, o.name = e.tagName ∧ o.element.bare = e.bare ∧
      o.scope = readScope (e.declared more around :: tags) ∧ o.below = [] ∧
      a.startTag? (e.tag more around true) = some (a.put (.mk (.element o.element) [])) ∧
      a.startTag? (e.tag more around false) = some { a with opened := o :: a.opened } := by
  have hnothing : ∀ x ∈ e.attributes, declaredQualifier? x.written = none := fun x hx =>
    (he.attributes x hx).declares_nothing hi
  have hown : ownDeclarations? a.declarations ((e.declared more around).map Declaration.written ++
      e.attributes.map Attribute.written) = some (e.declared more around) := by
    rw [ha.declarations]
    exact ownDeclarations?_written (fun d hd => (he.mem_declared hi hs.allowed hm hd).1)
      (he.declaredOnce_declared hm around) hnothing
  have hothers : ((e.declared more around).map Declaration.written ++
      e.attributes.map Attribute.written).filter (fun w => (declaredQualifier? w).isNone) =
      e.attributes.map Attribute.written := by
    rw [List.filter_append, List.filter_eq_nil_iff.mpr, List.nil_append, List.filter_eq_self.mpr]
    · exact List.forall_mem_map.mpr fun x hx => by simp [hnothing x hx]
    · exact List.forall_mem_map.mpr fun d _ => by simp [declaredQualifier?_declaration]
  have hname : (e.tagName.qualifier == "xmlns") = false := by
    have hne := he.qualifier_ne
    rw [Element.tagName, QName.qualifier, beq_eq_false_iff_ne]
    cases hq : e.qualifier <;> simp_all
  obtain ⟨read, hread, hbare⟩ := resolvedElement?_written
    ((hs.inside he hi hm).readsBack he hempty) he.distinct
  refine ⟨⟨e.tagName, read, readScope (e.declared more around :: tags), []⟩, rfl, hbare, rfl, rfl,
    ?_, ?_⟩
  all_goals
    simp only [startTag?, Element.tag, hname, hown, hothers, ha.attributes, ha.scope, hread,
      ha.settled, Bool.false_eq_true, if_false, if_true, List.nil_append, Option.bind_eq_bind,
      Option.bind_some, Option.pure_def]

/-- The end tag puts the innermost element with all that is below it. -/
theorem Inside.endTag (h : a.Inside tags) (o : OpenElement) :
    ({ a with opened := o :: a.opened } : Assembly).endTag? o.name =
      some (a.put (.mk (.element o.element) o.below.reverse)) := by
  obtain ⟨top, opened, declarations, attributes, pieces⟩ := a
  obtain rfl : declarations = [] := h.declarations
  obtain rfl : attributes = [] := h.attributes
  simp [endTag?, resolvedAttributes?, QName.agrees, Assembly.settled]

/-- A written tree that is no text is read as one tree, prefixes and declarations apart. -/
def Restores (tags : List (List Declaration)) (events : List Event) (tree : Subtree) : Prop :=
  ∀ {a : Assembly}, a.Inside tags →
    ∃ read, events.foldlM step? a = some (a.endText.put read) ∧ read.bare = tree.bare

theorem step?_text {content : String} (h : a.pieces = []) :
    ∃ next, a.step? (.text content) = some next ∧
      next.endText = a.put (.mk (.text content) []) := by
  refine ⟨{ a with pieces := content :: a.pieces }, rfl, ?_⟩
  have hjoin : String.join [content] = content := by simp
  cases a
  simp_all [endText, put]

/-- Trees that are written side by side are read one after the other. A text is made a tree by what
is read behind it, so nothing but a text may be left over. -/
theorem run_allEvents {void : Bool} (hs : ∀ tree ∈ trees, tree.ScopedIn outer)
    (h : ∀ tree ∈ trees, tree.payload.isText = false →
      Restores tags (tree.events void [] around) tree)
    (hc : (trees.map Subtree.payload).IsChain Payload.Apart) (ha : a.Inside tags)
    (hfirst : a.pieces = [] ∨ ∀ tree ∈ trees.head?, tree.payload.isText = false) :
    ∃ reads new, (Subtree.allEvents void around trees).foldlM step? a = some new ∧
      new.endText = a.endText.putAll reads ∧
      reads.map Subtree.bare = trees.map Subtree.bare ∧
      (a.pieces = [] → (∀ tree ∈ trees, tree.payload.isText = false) → new.pieces = []) := by
  induction trees generalizing a with
  | nil => exact ⟨[], a, rfl, rfl, rfl, fun hp _ => hp⟩
  | cons tree rest ih =>
    obtain ⟨htree, hrest⟩ := List.forall_mem_cons.mp hs
    obtain ⟨hrestores, hmore⟩ := List.forall_mem_cons.mp h
    rw [List.map_cons, List.isChain_cons] at hc
    rw [Subtree.allEvents, List.foldlM_append, Option.bind_eq_bind]
    cases htext : tree.payload.isText with
    -- a text waits for what follows it, which is no text
    | true =>
      obtain ⟨content, rfl⟩ := htree.eq_text htext
      have hpieces : a.pieces = [] := hfirst.resolve_right (by simp [htext])
      obtain ⟨next, hnext, hnode⟩ :
          ∃ next, a.step? (.text content) = some next ∧
            next.endText = a.put (.mk (.text content) []) := step?_text hpieces
      have hinside : next.Inside tags := inside_of_endText (hnode ▸ ha.put _)
      have hother : ∀ tree ∈ rest.head?, tree.payload.isText = false := fun t ht => by
        have happart := hc.1 t.payload (by simpa using ⟨t, ht, rfl⟩)
        simpa [Payload.Apart, Subtree.payload, Payload.isText] using happart
      obtain ⟨reads, new, hrun, hend, hbares, -⟩ := ih hrest hmore hc.2 hinside (.inr hother)
      have hstep : ((Subtree.mk (.text content) []).events void [] around).foldlM step? a =
          some next := by
        rw [Subtree.events, List.foldlM_cons, hnext]
        rfl
      rw [hstep, Option.bind_some]
      refine ⟨.mk (.text content) [] :: reads, new, hrun, ?_, by simp [hbares], fun _ hall => ?_⟩
      · rw [hend, hnode, endText_of_pieces hpieces]
        rfl
      · rw [hall _ List.mem_cons_self] at htext
        cases htext
    -- what waits is made a node first, then the tree is read
    | false =>
      obtain ⟨read, hread, hbare⟩ := hrestores htext ha
      have hpieces : (a.endText.put read).pieces = [] := by simp [pieces_endText]
      obtain ⟨reads, new, hrun, hend, hbares, hlast⟩ :=
        ih hrest hmore hc.2 (ha.endText.put read) (.inl hpieces)
      rw [hread, Option.bind_some]
      refine ⟨read :: reads, new, hrun, ?_, by simp [hbare, hbares], fun _ hall => ?_⟩
      · rw [hend, endText_of_pieces hpieces]
        rfl
      · exact hlast hpieces fun t ht => hall t (List.mem_cons_of_mem _ ht)

end Assembly

/-- A plain tree that is no text comes back from what it is written as. -/
theorem Subtree.ScopedIn.restores (h : tree.ScopedIn outer) (hp : tree.Plain)
    (ht : tree.payload.isText = false) (void : Bool) (hs : Surrounds tags outer around)
    (hm : Added more) : Assembly.Restores tags (tree.events void more around) tree := by
  induction h generalizing more around tags with
  | @element outer inner e children he hscoped ih =>
    obtain ⟨⟨hc, hsteady⟩, happart, hchildren⟩ := hp
    have hi := he.plain hc hsteady hs.plain
    intro a ha
    obtain ⟨o, hname, hbare, hscope, hnone, hclosed, hopen⟩ :=
      ha.endText.startTag hs he hi hm hc.qualifier
    have hbare' : ∀ below : List Subtree, below.map Subtree.bare = children.map Subtree.bare →
        (Subtree.mk (.element o.element) below).bare = (Subtree.mk (.element e) children).bare := by
      intro below hbelow
      simp [Payload.bare, Payload.mapElement, hbare, hbelow]
    rw [Subtree.events]
    -- an empty element may be written with one tag
    generalize hclosed' : (children.isEmpty && void && isVoidElement e.name) = closed
    cases closed with
    | true =>
      refine ⟨.mk (.element o.element) [], ?_, hbare' [] (by simp_all)⟩
      rw [if_pos rfl, List.foldlM_cons, Assembly.step?, hclosed]
      rfl
    | false =>
      obtain ⟨opened, hopened⟩ : ∃ opened : Assembly, opened =
        { a.endText with opened := o :: a.endText.opened } := ⟨_, rfl⟩
      have hpieces : opened.pieces = [] := hopened ▸ Assembly.pieces_endText a
      have hinside : opened.Inside (e.declared more around :: tags) := by
        subst hopened
        exact ⟨hscope, ha.endText.declarations, ha.endText.attributes⟩
      obtain ⟨reads, new, hrun, hend, hbares, -⟩ := Assembly.run_allEvents hscoped
        (fun tree ht hn => ih tree ht (hchildren tree ht) hn (hs.inside he hi hm) added_nil)
        happart hinside (.inl hpieces)
      have hfilled : opened.putAll reads =
          { a.endText with opened := { o with below := reads.reverse } :: a.endText.opened } := by
        rw [Assembly.putAll_of_opened (by rw [hopened]), hopened, hnone, List.append_nil]
      have hlast : new.step? (.endTag e.tagName) =
          some (a.endText.put (.mk (.element o.element) reads)) := by
        have htag := ha.endText.endTag { o with below := reads.reverse }
        rw [Assembly.step?, hend, Assembly.endText_of_pieces hpieces, hfilled, ← hname]
        simpa using htag
      refine ⟨.mk (.element o.element) reads, ?_, hbare' reads hbares⟩
      rw [if_neg Bool.false_ne_true, List.foldlM_cons, Assembly.step?, hopen, ← hopened,
        Option.bind_eq_bind, Option.bind_some, List.foldlM_append, hrun, Option.bind_eq_bind,
        Option.bind_some, List.foldlM_cons, hlast]
      rfl
  | @leaf outer payload hl =>
    cases payload with
    | document | element => exact hl.elim
    | text => cases ht
    | comment | instruction => exact fun _ => ⟨_, rfl, rfl⟩

end MarkupQuery.Tree
