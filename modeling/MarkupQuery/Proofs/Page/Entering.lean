import MarkupQuery.Proofs.Page.Finding
import MarkupQuery.Proofs.Tree.Atomicity
import MarkupQuery.Proofs.Tree.Entering

namespace MarkupQuery.Tree.Document

variable {doc middle new : Document} {id x : NodeId} {q u : String}

theorem editsAt_enteringEdits {kids : NodeId → List NodeId} (h : Forest doc kids)
    (q u : String) (x : NodeId) :
    NamespaceEdit.editsAt x (Page.enteringEdits doc id q u) =
      (if x = id then [.declare id (some q) u] else []) ++
        if x ∈ doc.subtree id ∧ doc.isElement x then [.renameElement x (some q) (some u)] else [] := by
  have hnodup : ((doc.subtree id).filter doc.isElement).Nodup := (h.nodup_subtree id).filter _
  have hrename := NamespaceEdit.editsAt_flatMap hnodup
    (f := fun y => [.renameElement y (some q) (some u)]) (by simp [NamespaceEdit.element]) x
  rw [← List.map_eq_flatMap] at hrename
  simp only [List.mem_filter] at hrename
  rw [Page.enteringEdits, NamespaceEdit.editsAt_cons, hrename]
  by_cases hx : x = id <;> simp [hx, NamespaceEdit.element]

/-- The edits leave every element from the top downwards in the namespace, and nothing else changed. -/
theorem node_enteringEdits {kids : NodeId → List NodeId} (h : Forest doc kids)
    (hid : doc.isElement id) (q u : String) (x : NodeId) :
    ((Page.enteringEdits doc id q u).foldl NamespaceEdit.perform doc).node x = { doc.node x with
      payload := if x ∈ doc.subtree id then
        (doc.payload x).mapElement (Element.entered q u (x == id)) else doc.payload x } := by
  rw [NamespaceEdit.node_perform, editsAt_enteringEdits h]
  refine congrArg (fun payload => { doc.node x with payload }) ?_
  cases hp : doc.payload x with
  | element e =>
    have helement : doc.isElement x := by simp [isElement, hp, Payload.isElement, Payload.element?]
    have hself : id ∈ doc.subtree id := List.mem_cons_self
    by_cases hx : x = id
    · simp [hx, hself, hid, Payload.mapElement, Element.entered, NamespaceEdit.onElementAll,
        NamespaceEdit.onElement]
    · by_cases hin : x ∈ doc.subtree id <;>
        simp [hx, hin, helement, Payload.mapElement, Element.entered, NamespaceEdit.onElementAll,
          NamespaceEdit.onElement]
  | _ => simp [Payload.mapElement]

theorem element?_enteringEdits {kids : NodeId → List NodeId} (h : Forest doc kids)
    (hid : doc.isElement id) (q u : String) (x : NodeId) :
    ((Page.enteringEdits doc id q u).foldl NamespaceEdit.perform doc).element? x =
      if x ∈ doc.subtree id then (doc.element? x).map (Element.entered q u (x == id))
      else doc.element? x := by
  rw [element?, payload, node_enteringEdits h hid]
  split
  · exact Payload.element?_mapElement _ _
  · rfl

/-- The edits declare the prefix on the top, in place of what it stood for there. -/
theorem declarations_enteringEdits {kids : NodeId → List NodeId} (h : Forest doc kids)
    (hid : doc.isElement id) (q u : String) (x : NodeId) :
    ((Page.enteringEdits doc id q u).foldl NamespaceEdit.perform doc).declarations x =
      if x = id then NamespaceEdit.withoutDeclaration (some q) (doc.declarations id) ++ [⟨some q, u⟩]
      else doc.declarations x := by
  rw [declarations, element?_enteringEdits h hid]
  by_cases hx : x = id
  · obtain ⟨top, htop⟩ : ∃ top, doc.element? id = some top := Option.isSome_iff_exists.mp hid
    have hself : id ∈ doc.subtree id := List.mem_cons_self
    simp [hx, hself, declarations, htop, Element.entered]
  · have hne : (x == id) = false := by simpa using hx
    rw [if_neg hx, hne, declarations]
    split
    · cases doc.element? x <;> rfl
    · rfl

/-- An element of a document, beside which there may be further trees by now, is put into a
namespace. -/
theorem entered_of_edit {count : Nat} (hd : Forest doc doc.children)
    (hm : Forest middle middle.children) (he : Extended doc middle) (hid : middle.isElement id)
    (ho : middle.edit (Page.enteringEdits middle id q u) = .ok (new, count)) :
    doc.Entered new id q u := by
  obtain ⟨-, rfl, -⟩ := NamespaceEdit.edit_eq_ok.mp ho
  have hsize : ((Page.enteringEdits middle id q u).foldl NamespaceEdit.perform middle).size =
      middle.size := NamespaceEdit.size_perform _ _
  have hnode := node_enteringEdits hm hid q u
  have hlinks := NamespaceEdit.sameLinks_perform middle (Page.enteringEdits middle id q u)
  generalize (Page.enteringEdits middle id q u).foldl NamespaceEdit.perform middle = new at *
  refine ⟨hsize ▸ he.grown.size_le, fun x hx => ?_, fun x hx => ?_, fun x hx => ?_⟩
  · rw [← he.grown.parent_eq x hx, hlinks.parent_eq]
  · rw [hlinks.children_eq hsize, he.children_eq x hx]
  · rw [payload, hnode]
    simp only [he.grown.payload_eq x hx, he.mem_subtree_iff hd hm hx]

end MarkupQuery.Tree.Document

namespace MarkupQuery.Page

open MarkupQuery.Tree MarkupQuery.Tree.Document
open MarkupQuery.Query (Site bind_eq_ok)

variable {page later : Page} {context : Context} {h : Handle} {q u : String}

theorem run_changeNamespace (ho : StateT.run (changeNamespace context q u) page = (.ok h, later)) :
    ∃ middle count, StateT.run (target context) page = (.ok h, middle) ∧
      middle.document.isElement h.site.id = true ∧
      middle.document.edit (enteringEdits middle.document h.site.id q u) =
        .ok (later.document, count) := by
  obtain ⟨found, middle, htarget, ho⟩ := Action.run_bind_eq_ok.mp ho
  rw [Action.run_get_bind] at ho
  split at ho
  · cases ho
  rename_i hcondition
  split at ho
  · cases ho
  rename_i document count hedit
  obtain ⟨⟨⟩, rfl⟩ := Prod.mk.inj ho
  simp only [Bool.or_eq_true, not_or, Bool.not_eq_true', Bool.not_eq_false] at hcondition
  exact ⟨middle, count, htarget, hcondition.2, hedit⟩

theorem markup_whole {top : NodeId} (htop : page.document.rootElement? = some top) :
    page.markup .whole = .ok (page.document.markup page.options.voidElements top) := by
  simp [markup, reading, shown, rootHandle?, htop, handle, Site.node, bind, Except.bind, pure,
    Except.pure]

/-- No prefix that is put on elements is empty. -/
theorem ne_empty_of_edit {document new : Document} {id : NodeId} {count : Nat}
    (ho : document.edit (enteringEdits document id q u) = .ok (new, count)) : q ≠ "" := by
  obtain ⟨hchecked, -, -⟩ := NamespaceEdit.edit_eq_ok.mp ho
  obtain ⟨_, -, hon⟩ := NamespaceEdit.check_eq_ok (hchecked _ List.mem_cons_self)
  rintro rfl
  simp [NamespaceEdit.checkOn, NamespaceEdit.checkBinding] at hon

/-- What is read from markup and has a root element was read without fail. -/
theorem parse_document {serial : Nat} {markup : String} {options : Options} {top : NodeId}
    (hp : Page.parse serial markup options = .ok page)
    (htop : page.document.rootElement? = some top) :
    Document.parse markup = .ok page.document := by
  unfold Page.parse at hp
  split at hp
  · rename_i document hparse
    obtain rfl := Except.ok.inj hp
    exact hparse
  · split at hp
    · cases hp
    · obtain rfl := Except.ok.inj hp
      have hempty : Document.empty.rootElement? = none := by decide
      rw [show (ofDocument serial .empty options).document = .empty from rfl, hempty] at htop
      cases htop

/-- After an element of a page that was read from markup, or a copy from another page, was put into a
namespace with all elements below it, the markup of the page tells for every name what the tree tells
if, and only if, the prefix was free for the namespace from that element downwards. The attributes
are as they were. -/
theorem changeNamespace_reads_back_iff {serial : Nat} {markup : String} {options : Options}
    (hp : Page.parse serial markup options = .ok page)
    (hs : ∀ source ∈ context.sources, source.Reachable)
    (hempty : page.document.Every fun e => e.qualifier ≠ some "")
    (ho : StateT.run (changeNamespace context q u) page = (.ok h, later)) (hx : q ≠ "xml")
    (hu : u ≠ "") {top : NodeId} (htop : page.document.rootElement? = some top) :
    let written := later.document.outline later.options.voidElements top
    later.markup .whole = .ok (Outline.renderAll written) ∧
      (∀ x ∈ later.document.subtree h.site.id, ∀ e, later.document.element? x = some e →
        e.qualifier = some q ∧ e.namespaceUri = some u) ∧
      (∀ x, page.document.contains x → later.document.attributes x = page.document.attributes x) ∧
      ((∀ tag ∈ Outline.allTags [] written, tag.1.ReadsBack tag.2) ↔
        (h.site.id ∈ page.document.subtree top → page.document.FreeFor h.site.id q u)) := by
  intro written
  have hparse := parse_document hp htop
  have hsound : page.Sound := .parse hp
  have hd := hsound.document.forest
  have hsources : ∀ source ∈ context.sources, source.Sound :=
    fun source hsource => (hs source hsource).sound
  have hlater : later.Sound := (keeps_changeNamespace hsources q u).sound_later hsound ho
  obtain ⟨middle, count, htarget, hid, hedit⟩ := run_changeNamespace ho
  have hm : middle.Sound := (keeps_target hsources).sound_later hsound htarget
  -- to find the element may copy it, but changes nothing that is there
  have hextended : Extended page.document middle.document :=
    (enlarged_of_finds (htarget ▸ finds_target hsound hsources)).document
  have hentered := entered_of_edit hd hm.document.forest hextended hid hedit
  have hentered' := entered_of_edit hm.document.forest hm.document.forest (.refl _) hid hedit
  have hn := hlater.document.forest
  have hmem := List.mem_of_find?_eq_some htop
  have hist := List.find?_some htop
  have htop' : later.document.rootElement? = some top := (hentered.rootElement?_eq hd).trans htop
  have hlt := lt_size_of_isElement hid
  refine ⟨?_, fun x hx' e he => ?_, fun x hc => hentered.attributes_eq (of_decide_eq_true hc), ?_⟩
  · rw [markup_whole htop', ← render_outline (List.find?_some htop')]
  · rw [hentered'.mem_subtree_iff hm.document.forest hn hlt] at hx'
    rw [hentered'.element?_eq (hm.document.forest.subtree_lt hlt hx'), if_pos hx'] at he
    obtain ⟨old, -, rfl⟩ := Option.map_eq_some_iff.mp he
    exact ⟨rfl, rfl⟩
  · refine hentered.readsBack_iff hd hn (fun hc => ?_) ((hd.mem_kids top root).mp hmem)
      (selfContained_of_parse hparse hmem hempty) hx hist (ne_empty_of_edit hedit) hu _
    rw [isElement, ← hextended.grown.payload_eq _ hc]
    exact hid

def enterableMarkup : String := "<r xmlns:p='u'><a k='1'><p:b/></a><c p:k='2'/></r>"

def enterablePage : Page := .ofMarkup enterableMarkup

def entered : Page := (changeNamespace (.query "//a") "p" "v").after enterablePage

theorem run_changeNamespace_enterablePage :
    StateT.run (changeNamespace (.query "//a") "p" "v") enterablePage = (.ok ⟨0, .node 2⟩, entered) := by
  have hfirst : (StateT.run (changeNamespace (.query "//a") "p" "v") enterablePage).1 =
      .ok ⟨0, .node 2⟩ := by decide +kernel
  exact Action.run_eq_after hfirst

/-- The prefix is free below the element, so all names are read back. -/
theorem changeNamespace_reads_back_enterablePage :
    Page.parse 0 enterableMarkup {} = .ok enterablePage ∧
    StateT.run (changeNamespace (.query "//a") "p" "v") enterablePage = (.ok ⟨0, .node 2⟩, entered) ∧
    (entered.document.markup true 1 = "<r xmlns:p=\"u\"><p:a xmlns:p=\"v\" k=\"1\"><p:b></p:b></p:a>" ++
      "<c p:k=\"2\"></c></r>") ∧
    enterablePage.document.FreeFor 2 "p" "v" ∧
    ∀ tag ∈ Outline.allTags [] (entered.document.outline entered.options.voidElements 1),
      tag.1.ReadsBack tag.2 := by
  have hparse : Page.parse 0 enterableMarkup {} = .ok enterablePage :=
    parse_ofMarkup (by decide +kernel)
  have hempty : enterablePage.document.Every fun e => e.qualifier ≠ some "" :=
    Document.Every.of_nodes (by decide +kernel)
  have hfree : enterablePage.document.FreeFor 2 "p" "v" := by decide +kernel
  have htop : enterablePage.document.rootElement? = some 1 := by decide +kernel
  have hall := changeNamespace_reads_back_iff hparse (by simp [Context.sources]) hempty
    run_changeNamespace_enterablePage (by decide) (by decide) htop
  exact ⟨hparse, run_changeNamespace_enterablePage, by decide +kernel, hfree,
    hall.2.2.2.mpr fun _ => hfree⟩

def capturedMarkup : String := "<r xmlns:p='u'><a p:k='1'/></r>"

def capturedPage : Page := .ofMarkup capturedMarkup

def captured : Page := (changeNamespace (.query "//a") "p" "v").after capturedPage

/-- The new declaration of the prefix stands around the attribute as well. In the tree the attribute
is still in its namespace, but in the markup it is in that of the element. -/
theorem attribute_captured : Page.parse 0 capturedMarkup {} = .ok capturedPage ∧
    StateT.run (changeNamespace (.query "//a") "p" "v") capturedPage = (.ok ⟨0, .node 2⟩, captured) ∧
    captured.document.attributes 2 =
      [{ name := "k", value := "1", qualifier := some "p", namespaceUri := some "u" }] ∧
    captured.markup .whole = .ok "<r xmlns:p=\"u\"><p:a xmlns:p=\"v\" p:k=\"1\"></p:a></r>" ∧
    ¬ (∀ tag ∈ Outline.allTags [] (captured.document.outline true 1), tag.1.ReadsBack tag.2) ∧
    (Document.parse "<r xmlns:p=\"u\"><p:a xmlns:p=\"v\" p:k=\"1\"></p:a></r>").toOption.map
        (·.attributes 2) =
      some [{ name := "k", value := "1", qualifier := some "p", namespaceUri := some "v" }] := by
  have hfirst : (StateT.run (changeNamespace (.query "//a") "p" "v") capturedPage).1 =
      .ok ⟨0, .node 2⟩ := by decide +kernel
  refine ⟨parse_ofMarkup (by decide +kernel), Action.run_eq_after hfirst, by decide +kernel,
    by decide +kernel, fun hall => ?_, by decide +kernel⟩
  let e : Element := {
    name := "a", qualifier := some "p", namespaceUri := some "v"
    attributes := [{ name := "k", value := "1", qualifier := some "p", namespaceUri := some "u" }]
    declarations := [⟨some "p", "v"⟩] }
  have hmem : (e, [[⟨some "p", "v"⟩], [⟨some "p", "u"⟩]]) ∈
      Outline.allTags [] (captured.document.outline true 1) := by decide +kernel
  exact absurd ((hall _ hmem).attributes _ List.mem_cons_self) (by decide)

end MarkupQuery.Page
