import MarkupQuery.Proofs.Tree.Reassembled

namespace MarkupQuery.Tree

open MarkupQuery.Xml

variable {doc : Document} {top : NodeId} {void : Bool} {more : List Declaration} {tree : Subtree}
  {trees before after : List Subtree}

@[simp] theorem Payload.isElement_bare (p : Payload) : p.bare.isElement = p.isElement := by
  cases p <;> rfl

theorem Subtree.isElement_of_bare {read : Subtree} (h : read.bare = tree.bare) :
    read.payload.isElement = tree.payload.isElement := by
  obtain ⟨payload, children⟩ := tree
  obtain ⟨payload', children'⟩ := read
  rw [bare_mk, bare_mk] at h
  have hp : payload'.bare = payload.bare := (Subtree.mk.inj h).1
  rw [Subtree.payload, Subtree.payload, ← payload.isElement_bare, ← hp, payload'.isElement_bare]

theorem Payload.not_isText {p : Payload} (h : p.isElement = true) : p.isText = false := by
  cases p with
  | text => cases h
  | _ => rfl

def Subtree.Beside (tree : Subtree) : Prop :=
  tree.payload.isText = false ∧ tree.payload.isElement = false

theorem Subtree.ScopedIn.misc_events {outer : List Declaration} (h : tree.ScopedIn outer)
    (hb : tree.Beside) (void : Bool) (around : String) :
    ∀ event ∈ tree.events void [] around, event.isMisc = true := by
  cases h with
  | element => simp [Subtree.Beside, Subtree.payload, Payload.isElement, Payload.element?] at hb
  | @leaf _ payload hl =>
    cases payload with
    | document | element => exact hl.elim
    | text => simp [Subtree.Beside, Subtree.payload, Payload.isText] at hb
    | comment | instruction => simp [Subtree.events, Event.isMisc]

/-- All namespaces of a plain tree can be declared as the default one. -/
theorem Subtree.ScopedIn.every_isDefault {outer : List Declaration} (h : tree.ScopedIn outer)
    (hp : tree.Plain) (ho : ∀ d ∈ outer, d.Plain) :
    tree.Every fun e => IsDefault (e.namespaceUri.getD "") := by
  induction h with
  | element he _ ih =>
    obtain ⟨⟨hc, hs⟩, -, hchildren⟩ := hp
    have hi := he.plain hc hs ho
    refine .mk (fun x hx => ?_) fun child hchild => ih child hchild (hchildren child hchild) hi
    obtain rfl := Payload.element.inj hx
    exact he.isDefault_namespace hi
  | leaf hl =>
    refine .mk (fun x hx => ?_) (by simp)
    subst hx
    exact hl.elim

namespace Document

/-- To a self-contained element the writer adds no more than a default namespace. -/
theorem added_undeclared (hf : Forest doc doc.children) (hs : doc.SelfContained top)
    (hd : doc.Every fun e => IsDefault (e.namespaceUri.getD "")) : Added (doc.undeclared top) := by
  have hprefixed : prefixed (doc.undeclared top) = [] :=
    prefixed_undeclared hf fun x hx q u hr => by
      obtain ⟨e, he, hneeded⟩ := hr
      exact (hs x hx e he).2 q u hneeded
  intro d hmem
  have hq : d.qualifier = none := by
    by_contra hsome
    have hin : d ∈ prefixed (doc.undeclared top) :=
      List.mem_filter.mpr ⟨hmem, Option.isSome_iff_ne_none.mpr hsome⟩
    simp [hprefixed] at hin
  refine ⟨hq, ?_⟩
  rcases List.mem_append.mp hmem with hmem | hmem
  · unfold missingDefault at hmem
    cases hw : doc.wantedDefault top with
    | none => simp [hw] at hmem
    | some uri =>
      obtain ⟨x, -, hx⟩ := List.exists_of_findSome?_eq_some hw
      cases he : doc.element? x with
      | none => simp [he] at hx
      | some e =>
        simp only [he, Option.ite_none_right_eq_some, Option.some.injEq] at hx
        simp only [hw] at hmem
        split at hmem
        · simp at hmem
        · obtain rfl := List.mem_singleton.mp hmem
          exact hx.2 ▸ hd x e (element?_eq_some.mp he)
  · simp only [mem_addMissing, List.not_mem_nil, false_or, List.mem_flatMap] at hmem
    obtain ⟨⟨x, -, hneeded⟩, -⟩ := hmem
    cases he : doc.element? x with
    | none => simp [he] at hneeded
    | some e =>
      rw [he] at hneeded
      obtain ⟨q, hsome⟩ := exists_qualifier_of_mem_needed hneeded
      simp [hq] at hsome

/-- The markup of a document with one element at the top, as events. -/
theorem toList_markup (hf : Forest doc doc.children)
    (htop : (doc.children root).filter doc.isElement = [top]) (void : Bool) :
    ∃ before after, doc.children root = before ++ top :: after ∧ doc.isElement top ∧
      (∀ id ∈ before ++ after, doc.isElement id = false) ∧
      ∃ short, (doc.markup void root).toList =
        (Subtree.allEvents short "" (before.map doc.subtreeAt) ++
          ((doc.subtreeAt top).events short (doc.undeclared top) "" ++
            Subtree.allEvents short "" (after.map doc.subtreeAt))).flatMap Event.chars := by
  obtain ⟨before, after, hsplit, hbefore, helement, hafter⟩ := List.filter_eq_cons_iff.mp htop
  rw [List.filter_eq_nil_iff] at hafter
  have hb : ∀ id ∈ before, doc.isElement id = false := by simpa using hbefore
  have ha : ∀ id ∈ after, doc.isElement id = false := by simpa using hafter
  refine ⟨before, after, hsplit, helement, List.forall_mem_append.mpr ⟨hb, ha⟩,
    void && doc.isHtml, ?_⟩
  have hbeside : ∀ ids : List NodeId, (∀ id ∈ ids, doc.isElement id = false) →
      (String.join (ids.map (doc.standaloneMarkup (void && doc.isHtml)))).toList =
        (Subtree.allEvents (void && doc.isHtml) "" (ids.map doc.subtreeAt)).flatMap
          Event.chars := by
    intro ids hids
    rw [Subtree.allEvents_eq_flatMap, List.flatMap_map, List.flatMap_assoc, String.toList_join,
      List.flatMap_map]
    refine List.flatMap_congr fun id hid => ?_
    rw [hf.toList_standaloneMarkup, hids id hid, if_neg Bool.false_ne_true]
  rw [markup, hf.root_payload]
  dsimp only
  rw [hsplit, List.map_append, List.map_cons, String.join_append, String.join_cons,
    String.toList_append, String.toList_append, hbeside before hb, hbeside after ha,
    hf.toList_standaloneMarkup, if_pos helement, List.flatMap_append, List.flatMap_append]

end Document

/-- A root element is written as one start tag with what is inside. -/
theorem Subtree.ScopedIn.isElement_events {outer : List Declaration} (h : tree.ScopedIn outer)
    (ht : tree.payload.isElement = true) (short : Bool) (around : String) :
    ∃ tag inside, tree.events short more around = .startTag tag :: inside ∧
      IsElement tag inside := by
  cases h with
  | @element _ inner e children he hchildren =>
    refine ⟨_, _, rfl, ?_, ?_⟩
    all_goals
      generalize (children.isEmpty && short && isVoidElement e.name) = closed
      cases closed
    · simp [Element.tag]
    · simp
    · intro _
      exact Subtree.closes_allEvents (fun child hchild => (hchildren child hchild).closes_events)
        (rfl : Closes 0 [.endTag e.tagName])
    · simp [Element.tag]
  | @leaf _ payload hl =>
    cases payload with
    | element => exact hl.elim
    | _ => cases ht

section Reading

variable (hs : ∀ t ∈ before ++ tree :: after, t.ScopedIn [] ∧ t.Plain)
  (hb : ∀ t ∈ before ++ after, t.Beside) (ht : tree.payload.isElement = true) (hm : Added more)
  (short : Bool)

omit ht hm in
include hs hb in
/-- What stands beside the root element is read as it is written. -/
theorem beside_events {trees : List Subtree} (hsub : trees ⊆ before ++ after) :
    ∀ event ∈ Subtree.allEvents short "" trees, event.Plain ∧ event.isMisc = true := by
  rw [Subtree.allEvents_eq_flatMap]
  intro event hevent
  obtain ⟨t, hmem, hevent⟩ := List.mem_flatMap.mp hevent
  have hin : t ∈ before ++ tree :: after := by
    have hside := hsub hmem
    simp only [List.mem_append, List.mem_cons] at hside ⊢
    exact hside.imp_right .inr
  obtain ⟨hscoped, hplain⟩ := hs t hin
  exact ⟨hscoped.plain_events hplain (by simp) short isDefault_empty added_nil event hevent,
    hscoped.misc_events (hb t (hsub hmem)) short "" event hevent⟩

include hs hb ht hm

/-- The events of a root element with others beside it are what is read from their text. -/
theorem read?_events :
    Xml.read? ((Subtree.allEvents short "" before ++ (tree.events short more "" ++
      Subtree.allEvents short "" after)).flatMap Event.chars) =
      some (Subtree.allEvents short "" before ++ (tree.events short more "" ++
        Subtree.allEvents short "" after)) := by
  obtain ⟨hscoped, hplain⟩ := hs tree (by simp)
  have hevents := hscoped.plain_events hplain (by simp) short isDefault_empty hm
  have hseparated : Separated (tree.events short more "" ++ []) :=
    hscoped.separated_events hplain List.isChain_nil (by simp)
  obtain ⟨tag, inside, htag, helement⟩ : ∃ tag inside,
      tree.events short more "" = .startTag tag :: inside ∧ IsElement tag inside :=
    hscoped.isElement_events ht short ""
  rw [htag] at hevents
  rw [htag, List.append_nil] at hseparated
  rw [htag, ← List.append_assoc]
  obtain ⟨hplainTag, hinside⟩ := List.forall_mem_cons.mp hevents
  have hbefore := beside_events hs hb short (List.subset_append_left before after)
  have hafter := beside_events hs hb short (List.subset_append_right before after)
  exact Xml.read?_chars (fun event h => (hbefore event h).1) (fun event h => (hbefore event h).2)
    hplainTag hinside (List.IsChain.of_cons hseparated) helement
    (fun event h => (hafter event h).1) (fun event h => (hafter event h).2)

omit ht hm in
omit hb in
/-- What stands beside the root element is put together again. -/
theorem run_beside (hb : ∀ t ∈ before ++ after, t.Beside) {trees : List Subtree}
    (hsub : trees ⊆ before ++ after) {a : Assembly} (ha : a.Inside []) (hp : a.pieces = []) :
    ∃ reads, (Subtree.allEvents short "" trees).foldlM Assembly.step? a =
      some (a.putAll reads) ∧ reads.map Subtree.bare = trees.map Subtree.bare := by
  have hin : ∀ t ∈ trees, (t.ScopedIn [] ∧ t.Plain) ∧ t.payload.isText = false := fun t ht => by
    have hside := hsub ht
    refine ⟨hs t ?_, (hb t hside).1⟩
    simp only [List.mem_append, List.mem_cons] at hside ⊢
    exact hside.imp_right .inr
  have happart : (trees.map Subtree.payload).IsChain Payload.Apart := by
    refine (List.pairwise_of_forall_mem_list fun p hp q _ hboth => ?_).isChain
    obtain ⟨t, ht, rfl⟩ := List.mem_map.mp hp
    simp [(hin t ht).2] at hboth
  have hrestores : ∀ t ∈ trees, t.payload.isText = false →
      Assembly.Restores [] (t.events short [] "") t := fun t ht hn =>
    (hin t ht).1.1.restores (hin t ht).1.2 hn short surrounds_nil added_nil
  obtain ⟨reads, new, hrun, hend, hbares, hpieces⟩ :=
    Assembly.run_allEvents (fun t ht => (hin t ht).1.1) hrestores happart ha (.inl hp)
  rw [Assembly.endText_of_pieces hp, Assembly.endText_of_pieces
    (hpieces hp fun t ht => (hin t ht).2)] at hend
  exact ⟨reads, hend ▸ hrun, hbares⟩

/-- They are put together to what was written, prefixes and declarations apart. -/
theorem assembled?_events :
    ∃ reads, assembled? (Subtree.allEvents short "" before ++ (tree.events short more "" ++
      Subtree.allEvents short "" after)) = some reads ∧
      reads.map Subtree.bare = (before ++ tree :: after).map Subtree.bare := by
  obtain ⟨hscoped, hplain⟩ := hs tree (by simp)
  have hinside : ({} : Assembly).Inside [] := ⟨rfl, rfl, rfl⟩
  obtain ⟨first, hfirst, hfirsts⟩ :=
    run_beside hs short hb (List.subset_append_left before after) hinside rfl
  obtain ⟨hinside, hpieces⟩ := hinside.putAll rfl first
  obtain ⟨read, hread, hbare⟩ :=
    hscoped.restores hplain (Payload.not_isText ht) short surrounds_nil hm hinside
  rw [Assembly.endText_of_pieces hpieces] at hread
  obtain ⟨last, hlast, hlasts⟩ := run_beside hs short hb (List.subset_append_right before after)
    (hinside.put read) (by rw [Assembly.pieces_put, hpieces])
  have hall : (((({} : Assembly).putAll first).put read).putAll last) =
      ({} : Assembly).putAll (first ++ read :: last) := by
    simp [Assembly.putAll]
  refine ⟨first ++ read :: last, ?_, by simp [hfirsts, hbare, hlasts]⟩
  rw [assembled?, List.foldlM_append, hfirst, Option.bind_eq_bind, Option.bind_eq_bind,
    Option.bind_some, List.foldlM_append, hread, Option.bind_eq_bind, Option.bind_some, hlast,
    Option.bind_some, hall, Assembly.putAll_of_nil rfl]
  have helement : (first ++ read :: last).any (fun tree => tree.payload.isElement) = true :=
    List.any_eq_true.mpr ⟨read, by simp, (Subtree.isElement_of_bare hbare).trans ht⟩
  simp only [Assembly.finish?, Assembly.lastText, List.append_nil, List.reverse_reverse]
  simp only [List.isEmpty_nil, List.getLast?_nil, Option.map_none, Option.toList_none,
    List.append_nil, helement, Bool.and_self, if_true]

end Reading

namespace Document

/-- Of a conventional document that a reader does not normalize, the markup is read as that document
again, prefixes and declarations apart: all nodes with their links, local names, namespaces,
attributes and texts. -/
theorem parse_markup {markup : String} (h : parse markup = .ok doc) (hc : doc.Conventional)
    (hs : doc.Steady) (void : Bool) :
    ∃ back, parse (doc.markup void root) = .ok back ∧ back.bare = doc.bare := by
  obtain ⟨top, htop⟩ := hc.top
  have hself : doc.SelfContained top := by
    refine selfContained_of_parse h ?_ fun id e he => ?_
    · exact (List.mem_filter.mp (htop ▸ List.mem_singleton_self top)).1
    · have hnode := hc.nodes id
      rw [he] at hnode
      exact hnode.qualifier
  obtain ⟨kids, hf⟩ := Forest.exists_parse h
  obtain ⟨trees, hscoped, rfl⟩ := parse_eq_ok h
  -- the document is made of trees, and it is written by them
  have htrees := map_subtreeAt_of_holdsBelow
    (Forest.holdsBelow_ofSubtrees fun tree ht => (hscoped tree ht).proper)
  have hplain : ∀ tree ∈ trees, tree.Plain := by
    rw [← htrees]
    exact List.forall_mem_map.mpr fun id _ => hc.plain_subtreeAt hs hf.self id
  have hdefault : (ofSubtrees trees).Every fun e => IsDefault (e.namespaceUri.getD "") :=
    .ofSubtrees fun tree ht => (hscoped tree ht).every_isDefault (hplain tree ht) (by simp)
  have hadded := added_undeclared hf.self hself hdefault
  obtain ⟨before, after, hchildren, helement, hothers, short, hmarkup⟩ :=
    toList_markup hf.self htop void
  rw [hchildren, List.map_append, List.map_cons] at htrees
  have hboth : ∀ t ∈ before.map (ofSubtrees trees).subtreeAt ++
      (ofSubtrees trees).subtreeAt top :: after.map (ofSubtrees trees).subtreeAt,
      t.ScopedIn [] ∧ t.Plain := fun t ht => ⟨hscoped t (htrees ▸ ht), hplain t (htrees ▸ ht)⟩
  -- beside the root element stand comments and instructions only
  have hbeside : ∀ t ∈ before.map (ofSubtrees trees).subtreeAt ++
      after.map (ofSubtrees trees).subtreeAt, t.Beside := by
    rw [← List.map_append]
    refine List.forall_mem_map.mpr fun id hid => ?_
    have hchild : id ∈ (ofSubtrees trees).children root := by
      simp only [hchildren, List.mem_append, List.mem_cons] at hid ⊢
      exact hid.imp_right .inr
    rw [Subtree.Beside, payload_subtreeAt]
    exact ⟨hc.outside id hchild, hothers id hid⟩
  have helement' : ((ofSubtrees trees).subtreeAt top).payload.isElement = true := by
    rwa [payload_subtreeAt]
  obtain ⟨reads, hreads, hbare⟩ := assembled?_events hboth hbeside helement' hadded short
  refine ⟨ofSubtrees reads, ?_, by rw [bare_ofSubtrees, bare_ofSubtrees, hbare, htrees]⟩
  rw [parse, hmarkup, read?_events hboth hbeside helement' hadded short, Option.bind_some, hreads]

def mixedMarkup : String :=
  "<!--c--><r xmlns='u' xmlns:p='v'><p:a k='1' p:k='&lt;'>t &amp; u<b xmlns=''/></p:a><?go on?></r>"

/-- It is read again as the same document. -/
theorem parse_markup_mixed : ∃ doc, parse mixedMarkup = .ok doc ∧ doc.Conventional ∧ doc.Steady ∧
    doc.markup true root =
      "<!--c--><r xmlns=\"u\" xmlns:p=\"v\"><p:a k=\"1\" p:k=\"&lt;\">t &amp; u<b xmlns=\"\"></b></p:a><?go on?></r>" ∧
    ∃ back, parse (doc.markup true root) = .ok back ∧ back.bare = doc.bare := by
  have hvalues : ∃ doc, parse mixedMarkup = .ok doc ∧ doc.Conventional ∧ doc.Steady ∧
      doc.markup true root =
        "<!--c--><r xmlns=\"u\" xmlns:p=\"v\"><p:a k=\"1\" p:k=\"&lt;\">t &amp; u<b xmlns=\"\"></b></p:a><?go on?></r>" := by
    refine ⟨ofMarkup mixedMarkup, parse_ofMarkup ?_, ?_⟩
    all_goals decide +kernel
  obtain ⟨doc, hparse, hconventional, hsteady, hmarkup⟩ := hvalues
  exact ⟨doc, hparse, hconventional, hsteady, hmarkup,
    parse_markup hparse hconventional hsteady true⟩

def wrappedMarkup : String := "<r a='1&#10;2'/>"

/-- The writer leaves the line end as it is, so that the attribute is read with a space. -/
theorem line_end_lost : ∃ doc, parse wrappedMarkup = .ok doc ∧ doc.Conventional ∧
    doc.attributes 1 = [{ name := "a", value := "1\n2" }] ∧
    doc.markup true root = "<r a=\"1\n2\"></r>" ∧
    ∀ back, parse (doc.markup true root) = .ok back →
      back.attributes 1 = [{ name := "a", value := "1 2" }] ∧ back.bare ≠ doc.bare := by
  have hvalues : ∃ doc, parse wrappedMarkup = .ok doc ∧ doc.Conventional ∧
      doc.attributes 1 = [{ name := "a", value := "1\n2" }] ∧
      doc.markup true root = "<r a=\"1\n2\"></r>" := by
    refine ⟨ofMarkup wrappedMarkup, parse_ofMarkup ?_, ?_⟩
    all_goals decide +kernel
  have hread : (parse "<r a=\"1\n2\"></r>").map (·.attributes 1) =
      .ok [{ name := "a", value := "1 2" }] := by decide +kernel
  obtain ⟨doc, hparse, hconventional, hattributes, hmarkup⟩ := hvalues
  refine ⟨doc, hparse, hconventional, hattributes, hmarkup, fun back hback => ?_⟩
  rw [hmarkup] at hback
  rw [hback, Except.map, Except.ok.injEq] at hread
  refine ⟨hread, fun hbare => ?_⟩
  have hsame := congrArg (fun d => d.attributes 1) hbare
  rw [attributes_bare, attributes_bare, hread, hattributes] at hsame
  exact absurd hsame (by decide)

end Document

end MarkupQuery.Tree
