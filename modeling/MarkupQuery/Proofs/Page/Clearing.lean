import MarkupQuery.Proofs.Page.Reachable
import MarkupQuery.Proofs.Page.Runs
import MarkupQuery.Proofs.Tree.Batches
import MarkupQuery.Proofs.Tree.Preorder

namespace MarkupQuery.Tree

open Document

def Attribute.unqualified (a : Attribute) : Attribute :=
  { a with qualifier := none, namespaceUri := none }

def Attribute.leaving (uri : String) (a : Attribute) : Attribute :=
  if a.namespaceUri = some uri then a.unqualified else a

/-- An element without anything in a namespace: neither its name nor the names of its attributes are
in it, and nothing declares it. -/
def Element.leaving (uri : String) (e : Element) : Element where
  name := e.name
  qualifier := if e.namespaceUri = some uri then none else e.qualifier
  namespaceUri := if e.namespaceUri = some uri then none else e.namespaceUri
  attributes := e.attributes.map (Attribute.leaving uri)
  declarations := e.declarations.filter fun d => d.uri != uri

/-- No prefix is declared twice, and there is at most one default namespace. -/
def Element.DeclaresOnce (e : Element) : Prop := (e.declarations.map Declaration.qualifier).Nodup

instance (e : Element) : Decidable e.DeclaresOnce := inferInstanceAs (Decidable (List.Nodup _))

namespace NamespaceEdit

/-- Dropping prefixes one after the other keeps the declarations of all others. -/
theorem onElementAll_undeclare (id : NodeId) (qualifiers : List (Option String)) (e : Element) :
    onElementAll (qualifiers.map (undeclare id)) e =
      { e with declarations := e.declarations.filter fun d => !qualifiers.contains d.qualifier } := by
  induction qualifiers generalizing e with
  | nil => simp [onElementAll]
  | cons qualifier qualifiers ih =>
    change onElementAll (qualifiers.map (undeclare id)) ((undeclare id qualifier).onElement e) = _
    rw [ih]
    simp only [onElement, withoutDeclaration, List.filter_filter, List.contains_cons, Bool.not_or,
      bne, Bool.and_comm]

/-- The places named by a list are changed, however often each is named. -/
theorem getElem?_foldl_modify {α : Type} {f : α → α} (hf : ∀ a, f (f a) = f a) (places : List Nat)
    (l : List α) (j : Nat) :
    (places.foldl (fun l i => l.modify i f) l)[j]? =
      if j ∈ places then l[j]?.map f else l[j]? := by
  induction places generalizing l with
  | nil => rfl
  | cons i places ih =>
    rw [List.foldl_cons, ih, List.getElem?_modify]
    by_cases hi : i = j
    · subst hi
      cases l[i]? <;> simp [hf]
    · simp [hi, Ne.symm hi]

theorem onElementAll_renameAttribute (id : NodeId) (places : List Nat) (e : Element) :
    onElementAll (places.map fun i => renameAttribute id i none none) e =
      { e with attributes :=
          places.foldl (fun l i => l.modify i Attribute.unqualified) e.attributes } := by
  induction places generalizing e with
  | nil => rfl
  | cons i places ih => exact ih _

end NamespaceEdit

/-- Of declarations with different prefixes, dropping the prefixes of some drops just these. -/
theorem filter_qualifiers {ds : List Declaration} (h : (ds.map Declaration.qualifier).Nodup)
    (p : Declaration → Bool) :
    (ds.filter fun d => !((ds.filter p).map Declaration.qualifier).contains d.qualifier) =
      ds.filter fun d => !p d := by
  refine List.filter_congr fun d hd => congrArg (!·) ?_
  rw [Bool.eq_iff_iff, List.contains_iff_mem, List.mem_map]
  constructor
  · rintro ⟨other, hother, he⟩
    obtain ⟨hmem, hp⟩ := List.mem_filter.mp hother
    rwa [← List.inj_on_of_nodup_map h hmem hd he]
  · exact fun hp => ⟨d, List.mem_filter.mpr ⟨hd, hp⟩, rfl⟩

end MarkupQuery.Tree

namespace MarkupQuery.Page

open MarkupQuery.Tree MarkupQuery.Tree.Document

variable {page : Page} {document : Document} {uri qualifier : String} {id : NodeId}

def placesIn (uri : String) (e : Element) : List Nat :=
  (e.attributes.zipIdx.filter fun (a, _) => a.namespaceUri == some uri).map Prod.snd

theorem mem_placesIn {e : Element} {j : Nat} :
    j ∈ placesIn uri e ↔ ∃ a, e.attributes[j]? = some a ∧ a.namespaceUri = some uri := by
  simp only [placesIn, List.mem_map, List.mem_filter, beq_iff_eq, Prod.exists, exists_eq_right,
    List.mem_zipIdx_iff_getElem?]

theorem modify_placesIn (uri : String) (e : Element) :
    (placesIn uri e).foldl (fun l i => l.modify i Attribute.unqualified) e.attributes =
      e.attributes.map (Attribute.leaving uri) := by
  refine List.ext_getElem? fun j => ?_
  rw [NamespaceEdit.getElem?_foldl_modify (f := Attribute.unqualified) fun _ => rfl,
    List.getElem?_map]
  cases ha : e.attributes[j]? with
  | none => simp
  | some a =>
    have hplace : j ∈ placesIn uri e ↔ a.namespaceUri = some uri := by simp [mem_placesIn, ha]
    by_cases huri : a.namespaceUri = some uri
    · simp [hplace.mpr huri, Attribute.leaving, huri]
    · simp [mt hplace.mp huri, Attribute.leaving, huri]

theorem clearingEdits_eq (uri : String) (id : NodeId) (e : Element) :
    clearingEdits uri id e =
      ((e.declarations.filter fun d => d.uri == uri).map Declaration.qualifier).map
        (NamespaceEdit.undeclare id) ++
      (if e.namespaceUri == some uri then [.renameElement id none none] else []) ++
      (placesIn uri e).map fun i => .renameAttribute id i none none := by
  simp [clearingEdits, placesIn, List.map_map, Function.comp_def]

/-- Together the edits for an element leave it without anything in the namespace. -/
theorem onElementAll_clearingEdits {e : Element} (h : e.DeclaresOnce) (uri : String)
    (id : NodeId) : NamespaceEdit.onElementAll (clearingEdits uri id e) e = e.leaving uri := by
  rw [clearingEdits_eq, NamespaceEdit.onElementAll_append, NamespaceEdit.onElementAll_append,
    NamespaceEdit.onElementAll_undeclare, NamespaceEdit.onElementAll_renameAttribute,
    filter_qualifiers h]
  have hattributes := modify_placesIn uri e
  by_cases huri : e.namespaceUri = some uri
  · simp only [huri, beq_self_eq_true, if_true, NamespaceEdit.onElementAll, List.foldl_cons,
      List.foldl_nil, NamespaceEdit.onElement, hattributes, Element.leaving, bne]
  · simp only [beq_eq_false_iff_ne.mpr huri, Bool.false_eq_true, if_false, huri,
      NamespaceEdit.onElementAll, List.foldl_nil, hattributes, Element.leaving, bne]

theorem element_of_mem_clearingEdits {e : Element} {edit : NamespaceEdit}
    (h : edit ∈ clearingEdits uri id e) : edit.element = id := by
  rw [clearingEdits_eq, List.mem_append, List.mem_append, List.mem_map, List.mem_map] at h
  rcases h with (⟨q, -, rfl⟩ | h) | ⟨i, -, rfl⟩
  · rfl
  · split at h
    · rw [List.mem_singleton.mp h]
      rfl
    · cases h
  · rfl

/-- None of the edits for an element can fail on it. -/
theorem checkOn_clearingEdits {e : Element} {edit : NamespaceEdit}
    (h : edit ∈ clearingEdits uri id e) : edit.checkOn e = .ok () := by
  rw [clearingEdits_eq, List.mem_append, List.mem_append, List.mem_map, List.mem_map] at h
  rcases h with (⟨q, -, rfl⟩ | h) | ⟨i, hi, rfl⟩
  · rfl
  · split at h
    · rw [List.mem_singleton.mp h]
      rfl
    · cases h
  · obtain ⟨a, ha, -⟩ := mem_placesIn.mp hi
    have hlt : ¬e.attributes.length ≤ i := Nat.not_le_of_lt (List.getElem?_eq_some_iff.mp ha).1
    simp [NamespaceEdit.checkOn, hlt, NamespaceEdit.checkBinding]

def clearingAt (document : Document) (uri : String) (id : NodeId) : List NamespaceEdit :=
  match document.element? id with
  | some e => clearingEdits uri id e
  | none => []

theorem element_of_mem_clearingAt {edit : NamespaceEdit} (h : edit ∈ clearingAt document uri id) :
    edit.element = id := by
  unfold clearingAt at h
  split at h
  · exact element_of_mem_clearingEdits h
  · cases h

theorem leavingEdits_eq (document : Document) (uri : String) :
    leavingEdits document uri = (document.descendants root).flatMap (clearingAt document uri) := rfl

theorem check_leavingEdits {kids : NodeId → List NodeId} (h : Forest document kids)
    {edit : NamespaceEdit} (he : edit ∈ leavingEdits document uri) :
    edit.check document = .ok () := by
  rw [leavingEdits_eq, List.mem_flatMap] at he
  obtain ⟨id, hid, he⟩ := he
  have hlt : id < document.size :=
    h.subtree_lt h.root_lt (List.mem_cons_of_mem _ hid)
  have hfor := element_of_mem_clearingAt he
  unfold clearingAt at he
  split at he
  · rename_i e hfound
    exact NamespaceEdit.check_of_checkOn (hfor ▸ hlt) (hfor ▸ hfound) (checkOn_clearingEdits he)
  · cases he

/-- Below the document node are the attached nodes but the document node itself. -/
theorem mem_descendants_root {kids : NodeId → List NodeId} (h : Forest document kids) :
    id ∈ document.descendants root ↔ document.isAttached id ∧ id ≠ root := by
  rw [h.mem_descendants, h.isAttached_iff, Document.Within, Relation.reflTransGen_iff_eq_or_transGen]
  constructor
  · intro hbelow
    refine ⟨.inr hbelow, ?_⟩
    rintro rfl
    exact h.acyclic _ hbelow
  · rintro ⟨heq | hbelow, hne⟩
    · exact absurd heq.symm hne
    · exact hbelow

/-- For an attached node the batch has the edits of that node, for any other none. -/
theorem editsAt_leavingEdits {kids : NodeId → List NodeId} (h : Forest document kids)
    (uri : String) (id : NodeId) : NamespaceEdit.editsAt id (leavingEdits document uri) =
      if document.isAttached id then clearingAt document uri id else [] := by
  have hnodup : (document.descendants root).Nodup := (h.nodup_subtree root).of_cons
  rw [leavingEdits_eq, NamespaceEdit.editsAt_flatMap hnodup fun _ _ => element_of_mem_clearingAt]
  by_cases hroot : id = root
  · -- the document node is no element
    have hnone : clearingAt document uri root = [] := by
      rw [clearingAt, element?, h.root_payload]
      rfl
    simp [hroot, hnone]
  · simp [mem_descendants_root h, hroot]

/-- The batch changes the attached elements and nothing else. -/
theorem node_leavingEdits {kids : NodeId → List NodeId} (h : Forest document kids)
    (hd : document.Every Element.DeclaresOnce) (uri : String) (id : NodeId) :
    ((leavingEdits document uri).foldl NamespaceEdit.perform document).node id =
      if document.isAttached id then { document.node id with
        payload := (document.payload id).mapElement (Element.leaving uri) }
      else document.node id := by
  have hsame : ∀ payload, payload = document.payload id →
      { document.node id with payload } = document.node id := by
    rintro _ rfl
    rfl
  rw [NamespaceEdit.node_perform, editsAt_leavingEdits h]
  cases hp : document.payload id with
  | element e =>
    split
    · rw [clearingAt, element?_eq_some.mpr hp]
      simp only [Payload.mapElement, onElementAll_clearingEdits (hd id e hp)]
    · exact hsame _ (by rw [hp]; rfl)
  | document | text | comment | instruction =>
    rw [hsame _ (by rw [hp]; rfl)]
    split
    · exact (hsame _ (by rw [hp]; rfl)).symm
    · rfl

/-- With each prefix registered once, dropping the first entry of a prefix drops all of them. -/
theorem eraseP_entries {entries : List (String × String)} (h : (entries.map Prod.fst).Nodup)
    (qualifier : String) : (entries.eraseP fun entry => entry.1 == qualifier) =
      entries.filter fun entry => entry.1 != qualifier := by
  induction entries with
  | nil => rfl
  | cons entry rest ih =>
    obtain ⟨hnew, hrest⟩ := List.nodup_cons.mp h
    by_cases he : entry.1 = qualifier
    · rw [List.eraseP_cons_of_pos (by simpa using he), List.filter_cons_of_neg (by simpa using he)]
      refine (List.filter_eq_self.mpr fun other hother => bne_iff_ne.mpr fun hsame => ?_).symm
      exact hnew (List.mem_map.mpr ⟨other, hother, hsame.trans he.symm⟩)
    · rw [List.eraseP_cons_of_neg (by simpa using he), List.filter_cons_of_pos (by simpa using he),
        ih hrest]

/-- Removing a namespace by a prefix that is registered cannot fail. It leaves the attached elements
without anything in the namespace and keeps every other node, all links and all other prefixes.
With an unknown prefix it fails and changes nothing. -/
theorem Reachable.run_removeNamespace (h : page.Reachable)
    (hd : page.document.Every Element.DeclaresOnce) (qualifier : String) :
    (page.prefixes.uri? qualifier = none →
      StateT.run (removeNamespace qualifier) page = (.error (.unknownQualifier qualifier), page)) ∧
    ∀ uri, page.prefixes.uri? qualifier = some uri →
      ∃ document prefixes, StateT.run (removeNamespace qualifier) page =
          (.ok (), { page with document, prefixes }) ∧
        document.size = page.document.size ∧
        (∀ id, document.node id = if page.document.isAttached id then { page.document.node id with
            payload := (page.document.payload id).mapElement (Element.leaving uri) }
          else page.document.node id) ∧
        prefixes.entries = (page.prefixes.entries.filter fun entry => entry.1 != qualifier) ∧
        prefixes.defaultNamespace =
          if page.prefixes.defaultNamespace = some uri then none
          else page.prefixes.defaultNamespace := by
  have hforest := h.sound.document.forest
  unfold removeNamespace
  rw [Action.run_get_bind]
  refine ⟨fun hnone => ?_, fun uri huri => ?_⟩
  · rw [PrefixTable.remove, hnone]
    rfl
  · have hedit := NamespaceEdit.edit_of_check fun edit
        (he : edit ∈ leavingEdits page.document uri) => check_leavingEdits hforest he
    rw [PrefixTable.remove, huri]
    simp only [hedit]
    refine ⟨_, _, rfl, NamespaceEdit.size_perform _ _, node_leavingEdits hforest hd uri,
      eraseP_entries h.sound.prefixes qualifier, ?_⟩
    cases hdefault : page.prefixes.defaultNamespace with
    | none => rfl
    | some found => by_cases hfound : found = uri <;> simp [hfound]

def clearableMarkup : String :=
  "<r xmlns='u' xmlns:p='u' xmlns:q='v'><q:a k='1' p:k='2'/><x:b xmlns:x='u' q:k='3'/><p:c/></r>"

def clearablePage : Page := .ofMarkup clearableMarkup

def clearableEdited : Page := (Edit.remove (.node ⟨0, .node 4⟩)).apply clearablePage

theorem parse_clearablePage : Page.parse 0 clearableMarkup {} = .ok clearablePage :=
  parse_ofMarkup (by decide +kernel)

theorem reachable_clearableEdited : clearableEdited.Reachable := by
  have hfits : clearablePage.document.size ≤ 0xFFFFFFFF ∧
      clearableEdited.document.size ≤ 0xFFFFFFFF := by decide +kernel
  exact .edit (.parse parse_clearablePage hfits.1) _ (by simp [Edit.sources]) hfits.2

/-- An attribute and the two attached elements leave the namespace; the detached one stays in it. -/
theorem run_removeNamespace_clearableEdited : clearableEdited.Reachable ∧
    clearableEdited.document.Every Element.DeclaresOnce ∧
    ∃ document prefixes, StateT.run (removeNamespace "p") clearableEdited =
        (.ok (), { clearableEdited with document, prefixes }) ∧
      (document.payload 1).element? = some ⟨"r", none, none, [], [⟨some "q", "v"⟩]⟩ ∧
      (document.payload 2).element? =
        some ⟨"a", some "q", some "v", [⟨"k", "1", none, none⟩, ⟨"k", "2", none, none⟩], []⟩ ∧
      (document.payload 3).element? =
        some ⟨"b", none, none, [⟨"k", "3", some "q", some "v"⟩], []⟩ ∧
      (document.payload 4).element? = some ⟨"c", some "p", some "u", [], []⟩ ∧
      prefixes = ⟨[("q", "v"), ("r", "u")], none⟩ := by
  have hd : clearableEdited.document.Every Element.DeclaresOnce :=
    Document.Every.of_nodes (by decide +kernel)
  have hvalues : clearableEdited.prefixes = ⟨[("p", "u"), ("q", "v"), ("r", "u")], some "u"⟩ ∧
      ([1, 2, 3, 4].map clearableEdited.document.isAttached) = [true, true, true, false] ∧
      ([1, 2, 3, 4].map clearableEdited.document.element?) = [
        some ⟨"r", none, some "u", [], [⟨none, "u"⟩, ⟨some "p", "u"⟩, ⟨some "q", "v"⟩]⟩,
        some ⟨"a", some "q", some "v", [⟨"k", "1", none, none⟩, ⟨"k", "2", some "p", some "u"⟩], []⟩,
        some ⟨"b", some "x", some "u", [⟨"k", "3", some "q", some "v"⟩], [⟨some "x", "u"⟩]⟩,
        some ⟨"c", some "p", some "u", [], []⟩] := by decide +kernel
  obtain ⟨hprefixes, hattached, helements⟩ := hvalues
  have huri : clearableEdited.prefixes.uri? "p" = some "u" := by
    rw [hprefixes]
    decide
  obtain ⟨document, prefixes, hrun, -, hnode, hentries, hdefault⟩ :=
    (reachable_clearableEdited.run_removeNamespace hd "p").2 "u" huri
  have helement : ∀ id, (document.payload id).element? =
      if clearableEdited.document.isAttached id then
        (clearableEdited.document.element? id).map (Element.leaving "u")
      else clearableEdited.document.element? id := by
    intro id
    rw [Document.payload, hnode id]
    cases hp : clearableEdited.document.payload id <;> split <;>
      simp_all [Document.element?, Document.payload, Payload.mapElement, Payload.element?]
  simp only [List.map_cons, List.map_nil, List.cons.injEq, and_true] at hattached helements
  rw [hprefixes] at hentries hdefault
  refine ⟨reachable_clearableEdited, hd, document, prefixes, hrun, ?_, ?_, ?_, ?_, ?_⟩
  · rw [helement, hattached.1, helements.1]
    rfl
  · rw [helement, hattached.2.1, helements.2.1]
    rfl
  · rw [helement, hattached.2.2.1, helements.2.2.1]
    rfl
  · rw [helement, hattached.2.2.2, helements.2.2.2]
    rfl
  · obtain ⟨entries, default⟩ := prefixes
    exact congrArg₂ PrefixTable.mk hentries hdefault

end MarkupQuery.Page
