import Mathlib.Data.List.Pairwise
import MarkupQuery.Proofs.Page.Clearing

namespace MarkupQuery.Tree

open MarkupQuery.Xml

/-- Two attributes have one local name, one of them in the namespace and the other one in none. -/
def Clashes (uri : String) (attributes : List Attribute) : Prop :=
  ∃ a ∈ attributes, ∃ b ∈ attributes,
    a.namespaceUri = some uri ∧ b.namespaceUri = none ∧ a.name = b.name

instance (uri : String) (attributes : List Attribute) : Decidable (Clashes uri attributes) :=
  inferInstanceAs (Decidable (∃ a ∈ attributes, ∃ b ∈ attributes, _))

/-- Names without a colon of their own are told apart by how they are written. -/
theorem qualify_inj {q q' : Option String} {name name' : String} (hq : ∀ s ∈ q, IsName s)
    (hq' : ∀ s ∈ q', IsName s) (hname : IsName name) (hname' : IsName name')
    (h : qualify q name = qualify q' name') : q = q' ∧ name = name' := by
  have hchars := congrArg String.toList h
  have hcolon : ∀ rest : List Char, ∀ c ∈ (':' :: rest).head?, isNameChar c = false := fun rest c hc =>
    Option.some.inj hc ▸ by decide
  cases q with
  | none =>
    cases q' with
    | none => exact ⟨rfl, h⟩
    | some s' =>
      refine absurd ?_ hname.colon_not_mem
      rw [show name.toList = _ from hchars]
      simp [qualify]
  | some s =>
    cases q' with
    | none =>
      refine absurd ?_ hname'.colon_not_mem
      rw [← show _ = name'.toList from hchars]
      simp [qualify]
    | some s' =>
      have hsplit : s.toList ++ ':' :: name.toList = s'.toList ++ ':' :: name'.toList := by
        simpa [qualify] using hchars
      have hstart := congrArg (List.takeWhile isNameChar) hsplit
      rw [takeWhile_exact (hq s rfl).continues (hcolon _),
        takeWhile_exact (hq' s' rfl).continues (hcolon _)] at hstart
      rw [hstart] at hsplit
      have hrest := List.append_cancel_left hsplit
      exact ⟨congrArg some (String.ext hstart), String.ext (List.cons.inj hrest).2⟩

namespace Attribute.ScopedIn

variable {a b : Attribute} {scope : List Declaration}

theorem leaving (h : a.ScopedIn scope) (uri : String) : (a.leaving uri).ScopedIn scope := by
  unfold Attribute.leaving
  split
  · exact ⟨h.name, h.name_ne, .inl ⟨rfl, rfl⟩⟩
  · exact h

theorem isName_qualifier (h : a.ScopedIn scope) (hs : IsScope scope) :
    ∀ q ∈ a.qualifier, IsName q := by
  intro q hq
  rcases h.bound with ⟨hnone, -⟩ | ⟨hxml, -⟩ | ⟨q', u, hq', -, hmem⟩
  · simp [hnone] at hq
  · obtain rfl : "xml" = q := Option.some.inj (hxml.symm.trans hq)
    exact isName_xml
  · obtain rfl : q' = q := Option.some.inj (hq'.symm.trans hq)
    exact ((hs.legible _ hmem).qualifier q' rfl).1

/-- Attributes of one element that have one prefix are in one namespace. -/
theorem namespaceUri_eq (ha : a.ScopedIn scope) (hb : b.ScopedIn scope) (hs : IsScope scope)
    (h : a.qualifier = b.qualifier) : a.namespaceUri = b.namespaceUri := by
  have hxml : ∀ u, ⟨some "xml", u⟩ ∉ scope := fun u hmem =>
    ((hs.legible _ hmem).qualifier "xml" rfl).2 rfl
  rcases ha.bound with ⟨hq, hu⟩ | ⟨hq, hu⟩ | ⟨q, u, hq, hu, hmem⟩ <;>
    rcases hb.bound with ⟨hq', hu'⟩ | ⟨hq', hu'⟩ | ⟨q', u', hq', hu', hmem'⟩ <;>
    rw [hq, hq'] at h <;> rw [hu, hu']
  · cases h
  · cases h
  · cases h
  · obtain rfl := Option.some.inj h
    exact absurd hmem' (hxml u')
  · cases h
  · obtain rfl := Option.some.inj h
    exact absurd hmem (hxml u)
  · obtain rfl := Option.some.inj h
    rw [hs.once.uri_eq hmem hmem']

/-- Attributes of one element that are written alike have the same name in the same namespace. -/
theorem eq_of_qualifiedName (ha : a.ScopedIn scope) (hb : b.ScopedIn scope) (hs : IsScope scope)
    (h : a.qualifiedName = b.qualifiedName) :
    a.namespaceUri = b.namespaceUri ∧ a.name = b.name := by
  obtain ⟨hqualifier, hname⟩ :=
    qualify_inj (ha.isName_qualifier hs) (hb.isName_qualifier hs) ha.name hb.name h
  exact ⟨ha.namespaceUri_eq hb hs hqualifier, hname⟩

end Attribute.ScopedIn

section Leaving

variable {uri : String} {attributes : List Attribute} {scope : List Declaration}

/-- Where names clash, two attributes are left with one name in no namespace. -/
theorem Clashes.exists_ne (h : Clashes uri attributes) :
    ∃ a ∈ attributes, ∃ b ∈ attributes, a ≠ b ∧ a.name = b.name ∧ b.namespaceUri = none ∧
      a.leaving uri = a.unqualified ∧ b.leaving uri = b := by
  obtain ⟨a, ha, b, hb, hu, hnone, hname⟩ := h
  refine ⟨a, ha, b, hb, ?_, hname, hnone, if_pos hu, if_neg (by simp [hnone])⟩
  rintro rfl
  simp [hnone] at hu

/-- Without a clash attributes with different names keep different ones. -/
theorem Attribute.leaving_ne {a b : Attribute} (h : ¬ Clashes uri attributes)
    (ha : a ∈ attributes) (hb : b ∈ attributes)
    (hne : ¬ (a.namespaceUri = b.namespaceUri ∧ a.name = b.name)) :
    ¬ ((a.leaving uri).namespaceUri = (b.leaving uri).namespaceUri ∧
      (a.leaving uri).name = (b.leaving uri).name) := by
  have hclash : ∀ x ∈ attributes, ∀ y ∈ attributes, x.namespaceUri = some uri →
      y.namespaceUri = none → x.name ≠ y.name := fun x hx y hy hu hnone hname =>
    h ⟨x, hx, y, hy, hu, hnone, hname⟩
  rintro ⟨hu, hname⟩
  unfold Attribute.leaving at hu hname
  split_ifs at hu hname with hina hinb hinb
  · exact hne ⟨hina.trans hinb.symm, hname⟩
  · exact hclash a ha b hb hina hu.symm hname
  · exact hclash b hb a ha hinb hu hname.symm
  · exact hne ⟨hu, hname⟩

/-- Different names stay different if there is no clash, and only then. -/
theorem distinctNames_leaving_iff (h : DistinctNames attributes) :
    DistinctNames (attributes.map (Attribute.leaving uri)) ↔ ¬ Clashes uri attributes := by
  rw [DistinctNames, List.pairwise_map]
  refine ⟨fun hleft hclash => ?_, fun hclash => h.imp_of_mem fun ha hb => ?_⟩
  · obtain ⟨a, ha, b, hb, hne, hname, hnone, hau, hbu⟩ := hclash.exists_ne
    have hsymm : Std.Symm fun a b : Attribute =>
        ¬ ((a.leaving uri).namespaceUri = (b.leaving uri).namespaceUri ∧
          (a.leaving uri).name = (b.leaving uri).name) :=
      ⟨fun x y hxy hyx => hxy ⟨hyx.1.symm, hyx.2.symm⟩⟩
    refine hleft.forall ha hb hne ?_
    rw [hau, hbu]
    exact ⟨hnone.symm, hname⟩
  · exact Attribute.leaving_ne hclash ha hb

/-- So do the names as they are written. -/
theorem nodup_qualifiedNames_leaving_iff (h : DistinctNames attributes)
    (ha : ∀ a ∈ attributes, a.ScopedIn scope) (hs : IsScope scope) :
    ((attributes.map (Attribute.leaving uri)).map Attribute.qualifiedName).Nodup ↔
      ¬ Clashes uri attributes := by
  rw [List.map_map, List.Nodup, List.pairwise_map]
  refine ⟨fun hleft hclash => ?_, fun hclash => ?_⟩
  · obtain ⟨a, ha', b, hb', hne, hname, hnone, hau, hbu⟩ := hclash.exists_ne
    have hsymm : Std.Symm fun a b : Attribute =>
        (Attribute.qualifiedName ∘ Attribute.leaving uri) a ≠
          (Attribute.qualifiedName ∘ Attribute.leaving uri) b := ⟨fun x y hxy => hxy.symm⟩
    have hqualifier : b.qualifier = none := by
      rcases (ha b hb').bound with ⟨hq, -⟩ | ⟨-, hu⟩ | ⟨q, u, -, hu, -⟩
      · exact hq
      · simp [hnone] at hu
      · simp [hnone] at hu
    refine hleft.forall ha' hb' hne ?_
    simp only [Function.comp, hau, hbu, Attribute.qualifiedName, Attribute.unqualified, hqualifier,
      hname]
  · refine h.imp_of_mem fun hmem hmem' hne hsame => ?_
    exact Attribute.leaving_ne hclash hmem hmem' hne
      (((ha _ hmem).leaving uri).eq_of_qualifiedName ((ha _ hmem').leaving uri) hs hsame)

end Leaving

end MarkupQuery.Tree

namespace MarkupQuery.Page

open MarkupQuery.Tree MarkupQuery.Tree.Document

variable {page : Page} {document : Document} {uri qualifier : String} {id : NodeId}

/-- Whatever it declares, the edits for an element take each of its attributes out of the
namespace. -/
theorem attributes_clearingEdits (uri : String) (id : NodeId) (e : Element) :
    (NamespaceEdit.onElementAll (clearingEdits uri id e) e).attributes =
      e.attributes.map (Attribute.leaving uri) := by
  rw [clearingEdits_eq, NamespaceEdit.onElementAll_append, NamespaceEdit.onElementAll_append,
    NamespaceEdit.onElementAll_undeclare, NamespaceEdit.onElementAll_renameAttribute,
    ← modify_placesIn]
  split <;> rfl

abbrev left (document : Document) (uri : String) : Document :=
  (leavingEdits document uri).foldl NamespaceEdit.perform document

theorem isAttached_left (document : Document) (uri : String) (id : NodeId) :
    (left document uri).isAttached id = document.isAttached id := by
  have hlinks := NamespaceEdit.sameLinks_perform document (leavingEdits document uri)
  rw [isAttached, hlinks.ancestors_eq (NamespaceEdit.size_perform _ _)]
  rfl

theorem attributes_left {kids : NodeId → List NodeId} (h : Forest document kids)
    (hid : document.isAttached id) (uri : String) :
    (left document uri).attributes id = (document.attributes id).map (Attribute.leaving uri) := by
  have hpayload : (left document uri).payload id =
      (document.payload id).mapElement (NamespaceEdit.onElementAll (clearingAt document uri id)) := by
    rw [payload, NamespaceEdit.node_perform, editsAt_leavingEdits h, if_pos hid]
  rw [attributes, attributes, element?, element?, hpayload]
  cases hp : document.payload id with
  | element e =>
    rw [clearingAt, element?_eq_some.mpr hp]
    exact attributes_clearingEdits uri id e
  | document | text | comment | instruction => rfl

/-- Removing a namespace by a registered prefix cannot fail, whatever the elements declare. -/
theorem run_removeNamespace_left {kids : NodeId → List NodeId} (h : Forest page.document kids)
    (hu : page.prefixes.uri? qualifier = some uri) :
    ∃ prefixes, StateT.run (removeNamespace qualifier) page =
      (.ok (), { page with document := left page.document uri, prefixes }) := by
  unfold removeNamespace
  rw [Action.run_get_bind]
  have hedit := NamespaceEdit.edit_of_check fun edit
    (he : edit ∈ leavingEdits page.document uri) => check_leavingEdits h he
  rw [PrefixTable.remove, hu]
  simp only [hedit]
  exact ⟨_, rfl⟩

/-- What an element of a page from markup has for attributes. -/
theorem attributes_of_parse {serial : Nat} {markup : String} {options : Options}
    (hp : Page.parse serial markup options = .ok page) (id : NodeId) :
    DistinctNames (page.document.attributes id) ∧
      ∃ scope, IsScope scope ∧ ∀ a ∈ page.document.attributes id, a.ScopedIn scope := by
  have hevery : page.document.Every fun e => DistinctNames e.attributes ∧
      ∃ scope, IsScope scope ∧ ∀ a ∈ e.attributes, a.ScopedIn scope :=
    every_of_parse hp fun he => ⟨he.distinct, _, he.scope, he.attributes⟩
  rw [attributes]
  cases he : page.document.element? id with
  | none => exact ⟨.nil, [], .nil, by simp⟩
  | some e => exact hevery id e (element?_eq_some.mp he)

/-- On a page with a document from markup, removing the namespace of any registered prefix succeeds,
and the attributes of an attached element then have different names just if it had none in the
namespace and in no namespace of one local name. The same decides whether their names are different
as they are written. -/
theorem removeNamespace_distinct_iff {serial : Nat} {markup : String} {options : Options}
    {parsed : Page} (hp : Page.parse serial markup options = .ok parsed)
    (hd : page.document = parsed.document) (hu : page.prefixes.uri? qualifier = some uri) :
    ∃ later, StateT.run (removeNamespace qualifier) page = (.ok (), later) ∧
      ∀ id, later.document.isAttached id →
        (DistinctNames (later.document.attributes id) ↔
          ¬ Clashes uri (page.document.attributes id)) ∧
        (((later.document.attributes id).map Attribute.qualifiedName).Nodup ↔
          ¬ Clashes uri (page.document.attributes id)) := by
  have hsound : parsed.Sound := .parse hp
  have hforest : Forest page.document page.document.children := hd ▸ hsound.document.forest
  obtain ⟨prefixes, hrun⟩ := run_removeNamespace_left hforest hu
  refine ⟨_, hrun, fun id hid => ?_⟩
  rw [isAttached_left] at hid
  obtain ⟨hdistinct, scope, hscope, hattributes⟩ := attributes_of_parse hp id
  rw [attributes_left hforest hid, hd]
  exact ⟨distinctNames_leaving_iff hdistinct,
    nodup_qualifiedNames_leaving_iff hdistinct hattributes hscope⟩

def mixedAttributesMarkup : String :=
  "<r xmlns:p='u' xmlns:q='v'><a k='1' p:l='2'/><b p:k='3' q:k='4'/></r>"

def mixedAttributesPage : Page := .ofMarkup mixedAttributesMarkup

/-- There is no clash on either of them, and the names stay different. -/
theorem removeNamespace_distinct_mixedAttributes :
    Page.parse 0 mixedAttributesMarkup {} = .ok mixedAttributesPage ∧
    mixedAttributesPage.prefixes.uri? "p" = some "u" ∧
    ¬ Clashes "u" (mixedAttributesPage.document.attributes 2) ∧
    ¬ Clashes "u" (mixedAttributesPage.document.attributes 3) ∧
    ∃ later, StateT.run (removeNamespace "p") mixedAttributesPage = (.ok (), later) ∧
      ∀ id, later.document.isAttached id →
        (DistinctNames (later.document.attributes id) ↔
          ¬ Clashes "u" (mixedAttributesPage.document.attributes id)) ∧
        (((later.document.attributes id).map Attribute.qualifiedName).Nodup ↔
          ¬ Clashes "u" (mixedAttributesPage.document.attributes id)) := by
  have hvalues : (Page.parse 0 mixedAttributesMarkup {}).isOk = true ∧
      mixedAttributesPage.prefixes.uri? "p" = some "u" ∧
      ¬ Clashes "u" (mixedAttributesPage.document.attributes 2) ∧
      ¬ Clashes "u" (mixedAttributesPage.document.attributes 3) := by decide +kernel
  obtain ⟨hparse, huri, hsecond, hthird⟩ := hvalues
  exact ⟨parse_ofMarkup hparse, huri, hsecond, hthird,
    removeNamespace_distinct_iff (parse_ofMarkup hparse) rfl huri⟩

def clashingMarkup : String := "<r xmlns:p='u' a='1' p:a='2'/>"

def clashingPage : Page := .ofMarkup clashingMarkup

def merged : Page := (removeNamespace "p").after clashingPage

/-- Afterwards the element has two attributes of one name, and its markup cannot be read. -/
theorem attributes_merged : Page.parse 0 clashingMarkup {} = .ok clashingPage ∧
    clashingPage.prefixes.uri? "p" = some "u" ∧
    StateT.run (removeNamespace "p") clashingPage = (.ok (), merged) ∧
    merged.document.isAttached 1 = true ∧
    merged.document.attributes 1 = [{ name := "a", value := "1" }, { name := "a", value := "2" }] ∧
    ¬ DistinctNames (merged.document.attributes 1) ∧
    merged.document.markup true root = "<r a=\"1\" a=\"2\"></r>" ∧
    (Document.parse "<r a=\"1\" a=\"2\"></r>").isOk = false := by
  have hvalues : (Page.parse 0 clashingMarkup {}).isOk = true ∧
      clashingPage.prefixes.uri? "p" = some "u" ∧
      (StateT.run (removeNamespace "p") clashingPage).1 = .ok () ∧
      merged.document.isAttached 1 = true ∧
      merged.document.attributes 1 =
        [{ name := "a", value := "1" }, { name := "a", value := "2" }] ∧
      merged.document.markup true root = "<r a=\"1\" a=\"2\"></r>" ∧
      (Document.parse "<r a=\"1\" a=\"2\"></r>").isOk = false := by decide +kernel
  obtain ⟨hparse, huri, hrun, hattached, hattributes, hmarkup, hrejected⟩ := hvalues
  refine ⟨parse_ofMarkup hparse, huri, Action.run_eq_after hrun, hattached, hattributes, ?_,
    hmarkup, hrejected⟩
  rw [hattributes]
  exact fun hdistinct => (List.pairwise_cons.mp hdistinct).1 _ List.mem_cons_self ⟨rfl, rfl⟩

end MarkupQuery.Page
