import MarkupQuery.Proofs.Page.Snapshots
import MarkupQuery.Proofs.Query.NodeSets
import MarkupQuery.Proofs.Tree.Pruning

namespace MarkupQuery

open MarkupQuery.Query (Site)
open MarkupQuery.Tree MarkupQuery.Tree.Document

def Tree.Document.attributesBesides (doc : Document) (sites : List Site) (id : NodeId) :
    List Attribute :=
  ((doc.attributes id).zipIdx.filter fun (_, i) => ⟨id, some i⟩ ∉ sites).map Prod.fst

namespace Page

variable {document : Document} {sites : List Site} {names : List (NodeId × String)}
  {ids : List NodeId} {id : NodeId} {name : String}

theorem mem_attributeNames : (id, name) ∈ attributeNames document sites ↔
    ∃ i a, ⟨id, some i⟩ ∈ sites ∧ (document.attributes id)[i]? = some a ∧
      a.qualifiedName = name := by
  simp only [attributeNames, List.mem_filterMap, Option.map_eq_some_iff, Site.attribute?,
    Option.bind_eq_some_iff, Prod.mk.injEq]
  constructor
  · rintro ⟨⟨_, index⟩, hsite, a, ⟨i, hi, ha⟩, rfl, hname⟩
    obtain rfl : index = some i := hi
    exact ⟨i, a, hsite, ha, hname⟩
  · rintro ⟨i, a, hsite, ha, hname⟩
    exact ⟨_, hsite, a, ⟨i, rfl, ha⟩, rfl, hname⟩

/-- Where names are distinct, an attribute goes by its name if it goes by its place. -/
theorem mem_attributeNames_iff
    (hnames : ((document.attributes id).map Attribute.qualifiedName).Nodup) {i : Nat} {a : Attribute}
    (ha : (document.attributes id)[i]? = some a) :
    (id, a.qualifiedName) ∈ attributeNames document sites ↔ ⟨id, some i⟩ ∈ sites := by
  rw [mem_attributeNames]
  constructor
  · rintro ⟨j, b, hsite, hb, hname⟩
    have hi : i < ((document.attributes id).map Attribute.qualifiedName).length := by
      simpa using (List.getElem?_eq_some_iff.mp ha).1
    obtain rfl : i = j := by
      rw [← List.getElem?_inj hi hnames, List.getElem?_map, List.getElem?_map, ha, hb]
      simp [hname]
    exact hsite
  · intro hsite
    exact ⟨i, a, hsite, ha, rfl⟩

theorem filter_attributeNames
    (hnames : ((document.attributes id).map Attribute.qualifiedName).Nodup) :
    (document.attributes id).filter (fun a => (id, a.qualifiedName) ∉ attributeNames document sites) =
      document.attributesBesides sites id := by
  conv_lhs => rw [← List.zipIdx_map_fst 0 (document.attributes id), List.filter_map]
  refine congrArg (List.map Prod.fst) (List.filter_congr ?_)
  rintro ⟨a, i⟩ hmem
  have ha : (document.attributes id)[i]? = some a := List.mem_zipIdx_iff_getElem?.mp hmem
  simp [mem_attributeNames_iff hnames ha]

theorem nodup_attributeNames
    (hnames : ∀ id, ((document.attributes id).map Attribute.qualifiedName).Nodup)
    (hsites : sites.Nodup) : (attributeNames document sites).Nodup := by
  refine hsites.filterMap ?_
  rintro ⟨id, index⟩ ⟨id', index'⟩ ⟨owner, name⟩ hname hname'
  simp only [Option.mem_def, Option.map_eq_some_iff, Site.attribute?, Option.bind_eq_some_iff,
    Prod.mk.injEq] at hname hname'
  obtain ⟨a, ⟨i, rfl, ha⟩, rfl, rfl⟩ := hname
  obtain ⟨b, ⟨j, rfl, hb⟩, rfl, hname⟩ := hname'
  have hmem : (id', a.qualifiedName) ∈ attributeNames document [⟨id', some j⟩] :=
    mem_attributeNames.mpr ⟨j, b, by simp, hb, hname⟩
  simpa using (mem_attributeNames_iff (hnames id') ha).mp hmem

theorem length_attributeNames
    (hsites : ∀ site ∈ sites, ∀ i ∈ site.index, i < (document.attributes site.id).length) :
    (attributeNames document sites).length = sites.countP fun site => site.index.isSome := by
  rw [attributeNames, List.length_filterMap_eq_countP]
  refine List.countP_congr fun site hsite => ?_
  obtain ⟨id, index⟩ := site
  cases index with
  | none => simp [Site.attribute?]
  | some i => simpa [Site.attribute?] using hsites _ hsite i rfl

theorem stripped_removeAttributes (document : Document) (names : List (NodeId × String))
    (count : Nat) : Stripped document (names.foldl (fun (document, count) (owner, name) =>
      let (document, found) := document.removeAttribute owner name
      (document, if found then count + 1 else count)) (document, count)).1 names := by
  induction names generalizing document count with
  | nil => exact .refl document
  | cons name names ih => exact .cons (ih _ _)

/-- Every attribute of a list without repetitions is found, since those before it leave it alone. -/
theorem count_removeAttributes (hnodup : names.Nodup)
    (hnames : ∀ name ∈ names, name.2 ∈ (document.attributes name.1).map Attribute.qualifiedName)
    (count : Nat) : (names.foldl (fun (document, count) (owner, name) =>
      let (document, found) := document.removeAttribute owner name
      (document, if found then count + 1 else count)) (document, count)).2 =
        count + names.length := by
  induction names generalizing document count with
  | nil => rfl
  | cons first names ih =>
    obtain ⟨owner, name⟩ := first
    obtain ⟨hfirst, hrest⟩ := List.nodup_cons.mp hnodup
    obtain ⟨hfound, hnames⟩ := List.forall_mem_cons.mp hnames
    have hany : (document.removeAttribute owner name).2 = true := by
      obtain ⟨a, ha, hname⟩ := List.mem_map.mp hfound
      exact List.any_eq_true.mpr ⟨a, ha, beq_iff_eq.mpr hname⟩
    have hone : Stripped document (document.removeAttribute owner name).1 [(owner, name)] :=
      .cons (.refl _)
    rw [List.foldl_cons]
    dsimp only
    rw [ih hrest, hany, List.length_cons]
    · simp only [if_true]
      omega
    · intro other hother
      obtain ⟨a, ha, hname⟩ := List.mem_map.mp (hnames other hother)
      refine List.mem_map.mpr ⟨a, ?_, hname⟩
      rw [hone.attributes_eq, List.mem_filter]
      refine ⟨ha, ?_⟩
      have hne : (other.1, a.qualifiedName) ≠ (owner, name) := by
        rw [hname]
        exact ne_of_mem_of_not_mem hother hfirst
      exact decide_eq_true fun hmem => hne (List.mem_singleton.mp hmem)

theorem pruned_detachAll (h : document.Sound) (ids : List NodeId) (count : Nat) :
    Pruned document (ids.foldl (fun (document, count) id =>
      if (document.parent id).isSome then (document.detach id, count + 1) else (document, count))
      (document, count)).1 ids := by
  induction ids generalizing document count with
  | nil => exact .refl document
  | cons id ids ih =>
    refine .cons h.forest ?_
    rw [List.foldl_cons]
    dsimp only
    split
    · exact ih (h.move (.detach id) rfl) _
    · rename_i hparent
      have hsame : document.detach id = document := by
        rw [detach, Option.not_isSome_iff_eq_none.mp hparent]
      rw [hsame]
      exact ih h _

/-- Unlinking a node takes the parent from no other, so each node of a list without repetitions counts
that has one. -/
theorem count_detachAll (h : document.Sound) (hnodup : ids.Nodup) (count : Nat) :
    (ids.foldl (fun (document, count) id =>
      if (document.parent id).isSome then (document.detach id, count + 1) else (document, count))
      (document, count)).2 = count + ids.countP fun id => (document.parent id).isSome := by
  induction ids generalizing document count with
  | nil => rfl
  | cons id ids ih =>
    obtain ⟨hid, hrest⟩ := List.nodup_cons.mp hnodup
    rw [List.foldl_cons, List.countP_cons]
    dsimp only
    split
    · have hothers : ids.countP (fun x => ((document.detach id).parent x).isSome) =
          ids.countP fun x => (document.parent x).isSome := by
        refine List.countP_congr fun x hx => ?_
        rw [parent_detach h.forest, if_neg (ne_of_mem_of_not_mem hx hid)]
      rw [ih (h.move (.detach id) rfl) hrest, hothers]
      omega
    · rw [ih h hrest]
      rfl

/-- `new` is `doc` without some sites: attributes are gone from their owners, and nodes with all that is
below them from the tree of the document. The document node always stays. -/
structure Without (doc new : Document) (sites : List Site) : Prop where
  isAttached_iff : ∀ id, new.isAttached id ↔ doc.isAttached id ∧
    ∀ above, doc.Within id above → .node above ∈ sites → above = root
  attributes_eq : ∀ id, new.attributes id = doc.attributesBesides sites id
  payload_eq : ∀ id, new.payload id = (doc.payload id).mapElement fun e =>
    { e with attributes := doc.attributesBesides sites id }
  parent_eq : ∀ id, new.isAttached id → new.parent id = doc.parent id
  subtree_eq : new.subtree root = (doc.subtree root).filter new.isAttached

/-- A removal takes the attributes first. The nodes are unlinked from what that leaves. -/
theorem exists_stripped (h : document.Sound) (sites : List Site) : ∃ middle : Document,
    middle.Sound ∧ Stripped document middle (attributeNames document sites) ∧
      Pruned middle (removeSites document sites).1
        ((sites.filter fun site => site.index.isNone).map Site.id) ∧
      (removeSites document sites).1.Sound := by
  have hmiddle := sound_removeAttributes h (attributeNames document sites) 0
  exact ⟨_, hmiddle, stripped_removeAttributes document _ 0, pruned_detachAll hmiddle _ 0,
    sound_detachAll hmiddle _ 0⟩

theorem mem_nodeIds :
    id ∈ (sites.filter fun site => site.index.isNone).map Site.id ↔ .node id ∈ sites := by
  simp only [List.mem_map, List.mem_filter, Option.isNone_iff_eq_none]
  constructor
  · rintro ⟨⟨_, _⟩, ⟨hsite, rfl⟩, rfl⟩
    exact hsite
  · intro hsite
    exact ⟨_, ⟨hsite, rfl⟩, rfl⟩

section Sites

variable (h : document.Sound)
  (hnames : ∀ id, ((document.attributes id).map Attribute.qualifiedName).Nodup)
include h hnames

theorem without_removeSites (sites : List Site) :
    Without document (removeSites document sites).1 sites := by
  obtain ⟨middle, hsound, hstripped, hpruned, hnew⟩ := exists_stripped h sites
  have hm := hsound.forest
  have hpayload : ∀ id, (removeSites document sites).1.payload id =
      (document.payload id).mapElement fun e =>
        { e with attributes := document.attributesBesides sites id } := by
    intro id
    rw [hpruned.payload_eq, hstripped.payload_eq, withoutNamed]
    have hattributes : (document.attributes id).filter (fun a =>
        (id, a.qualifiedName) ∉ attributeNames document sites) =
          document.attributesBesides sites id := filter_attributeNames (hnames id)
    rw [attributes, element?] at hattributes
    cases hp : document.payload id <;> simp_all [Payload.mapElement, Payload.element?]
  exact {
    isAttached_iff := fun id => by
      rw [hpruned.isAttached_iff hm hnew.forest, hstripped.isAttached_eq]
      simp only [hstripped.within_iff, mem_nodeIds]
    attributes_eq := fun id => by
      rw [attributes, element?, hpruned.payload_eq, ← element?, ← attributes,
        hstripped.attributes_eq, filter_attributeNames (hnames id)]
    payload_eq := hpayload
    parent_eq := fun id hid => by
      rw [hpruned.parent_eq_of_attached hm hnew.forest hid, hstripped.parent_eq]
    subtree_eq := by
      have hroot : (removeSites document sites).1.isAttached root = true :=
        hnew.forest.isAttached_iff.mpr .refl
      rw [hpruned.subtree_eq_filter hm hnew.forest hroot, hstripped.subtree_eq h.forest hm] }

/-- No two sites name the same attribute, and each names one that is there. -/
theorem count_attributeNames (hsites : sites.Nodup) (hall : sites ⊆ Site.all document) :
    (removeAttributes document (attributeNames document sites)).2 =
      sites.countP fun site => site.index.isSome := by
  rw [← length_attributeNames fun site hsite => ((Site.mem_all h.forest).mp (hall hsite)).2]
  refine (count_removeAttributes (nodup_attributeNames hnames hsites) ?_ 0).trans (Nat.zero_add _)
  rintro ⟨owner, name⟩ hname
  obtain ⟨i, a, -, ha, hname⟩ := mem_attributeNames.mp hname
  exact List.mem_map.mpr ⟨a, List.mem_of_getElem? ha, hname⟩

omit hnames in
/-- Of the attached nodes only the document node has no parent. -/
theorem count_nodeIds (hsites : sites.Nodup) (hall : sites ⊆ Site.all document) :
    (detachAll (removeAttributes document (attributeNames document sites)).1
      ((sites.filter fun site => site.index.isNone).map Site.id)).2 =
      sites.countP fun site => site.index.isNone && site ≠ Site.document := by
  have hsound := sound_removeAttributes h (attributeNames document sites) 0
  have hstripped := stripped_removeAttributes document (attributeNames document sites) 0
  have hids : ((sites.filter fun site => site.index.isNone).map Site.id).Nodup := by
    refine (hsites.filter _).map_on ?_
    rintro ⟨id, index⟩ hsite ⟨id', index'⟩ hsite' rfl
    simp only [List.mem_filter, Option.isNone_iff_eq_none] at hsite hsite'
    rw [hsite.2, hsite'.2]
  refine (count_detachAll hsound hids 0).trans ?_
  rw [Nat.zero_add, List.countP_map, List.countP_filter]
  refine List.countP_congr fun site hsite => ?_
  obtain ⟨id, index⟩ := site
  have hparent : (document.parent id).isSome ↔ id ≠ root := by
    refine ⟨fun hsome hid => by simp [hid, h.forest.parent_root] at hsome, fun hid => ?_⟩
    have hw := ((Site.mem_all h.forest).mp (hall hsite)).1
    obtain ⟨b, hb, -⟩ := (Relation.ReflTransGen.cases_head hw).resolve_left hid
    exact Option.isSome_iff_exists.mpr ⟨b, hb⟩
  simp only [Function.comp_apply, hstripped.parent_eq]
  cases index <;> simp [hparent, Site.document]

/-- Attached sites count one by one, but for the document node. -/
theorem count_removeSites (hsites : sites.Nodup) (hall : sites ⊆ Site.all document) :
    (removeSites document sites).2 = (sites.filter (· ≠ Site.document)).length := by
  have hsplit : sites.countP (· ≠ Site.document) = (sites.countP fun site => site.index.isSome) +
      sites.countP fun site => site.index.isNone && site ≠ Site.document := by
    rw [List.countP_eq_countP_filter_add sites _ fun site => site.index.isSome,
      List.countP_filter, List.countP_filter]
    congr 1 <;> refine List.countP_congr fun site _ => ?_
    all_goals
      obtain ⟨id, index⟩ := site
      cases index <;> simp [Site.document]
  rw [← List.countP_eq_length_filter, hsplit, ← count_attributeNames h hnames hsites hall,
    ← count_nodeIds h hsites hall]
  rfl

end Sites

variable {page later : Page} {query : String} {found : Matches}

/-- What a query finds on the whole page is attached, each site once. -/
theorem Sound.sublist_of_execute (h : page.Sound)
    (hfound : page.execute query none = .ok found) :
    found.sites.Sublist (Site.all page.document) := by
  obtain ⟨_, _, hscoped, hselect, -⟩ := execute_eq_ok.mp hfound
  have hwhole : page.scopedQuery query none = .ok (query, .document) := rfl
  cases hwhole.symm.trans hscoped
  obtain ⟨_, -, -, hevaluate⟩ := Query.select_eq_ok.mp hselect
  have hroot : Site.document ∈ Site.all page.setting.source.document :=
    Site.node_mem_all h.document.forest .refl
  have hsublist := Query.evaluate_sublist h.document.forest rfl hroot hevaluate
  exact hsublist

theorem run_search_whole : StateT.run (search query .whole) page = (.ok found, later) ↔
    page.execute query none = .ok found ∧ later = page := by
  have hcontext : StateT.run (queryContext .whole) page = (.ok none, page) := rfl
  rw [run_search_eq_ok]
  constructor
  · rintro ⟨_, h, hexecute⟩
    cases hcontext.symm.trans h
    exact ⟨hexecute, rfl⟩
  · rintro ⟨hexecute, rfl⟩
    exact ⟨none, hcontext, hexecute⟩

theorem run_remove_query (hfound : StateT.run (search query .whole) page = (.ok found, page)) :
    StateT.run (remove (.query query)) page = (.ok (removeSites page.document found.sites).2,
      { page with document := (removeSites page.document found.sites).1 }) := by
  have hdesignated : StateT.run (designated (.query query)) page =
      (.ok (found.sites.map fun site => ⟨found.serial, site⟩), page) :=
    Action.run_bind_eq_ok.mpr ⟨found, page, hfound, rfl⟩
  refine Action.run_bind_eq_ok.mpr ⟨_, page, hdesignated, ?_⟩
  rw [Action.run_get_bind, List.map_map]
  have hsites : found.sites.map (Handle.site ∘ fun site => ⟨found.serial, site⟩) = found.sites :=
    List.map_id _
  rw [hsites]
  rfl

/-- On a page on which no element has two attributes of one name, a removal takes out what the query
finds and counts it, but for the document node. What it leaves stands as it stood. -/
theorem Reachable.remove_takes_found (h : page.Reachable)
    (hnames : ∀ id, ((page.document.attributes id).map Attribute.qualifiedName).Nodup)
    (hfound : (StateT.run (search query .whole) page).1 = .ok found) :
    ∃ document, StateT.run (remove (.query query)) page =
        (.ok (found.sites.filter (· ≠ Site.document)).length, { page with document }) ∧
      Without page.document document found.sites := by
  obtain ⟨hexecute, -⟩ := run_search_whole.mp (Action.run_eq_after hfound)
  have hsublist := h.sound.sublist_of_execute hexecute
  have hforest : Forest (Query.Ranked.of page.document).document page.document.children :=
    h.sound.document.forest
  have hnodup : found.sites.Nodup := (Site.inOrder_all hforest).nodup.sublist hsublist
  refine ⟨_, ?_, without_removeSites h.sound.document hnames found.sites⟩
  rw [← count_removeSites h.sound.document hnames hnodup hsublist.subset]
  exact run_remove_query (run_search_whole.mpr ⟨hexecute, rfl⟩)

def overlappingPage : Page := .ofMarkup "<r j='0' k='1'><a l='2' k='3'><b/></a><c/></r>"

/-- The document node is found, too, but does not count. The inner element counts, although the outer
one takes it along, and so does an attribute of the outer one. -/
theorem remove_takes_found_overlapping : overlappingPage.Reachable ∧
    (StateT.run (search "/ | //a | //b | //@k" .whole) overlappingPage).1 =
      .ok ⟨0, [⟨0, none⟩, ⟨1, some 1⟩, ⟨2, none⟩, ⟨2, some 1⟩, ⟨3, none⟩]⟩ ∧
    ∃ document, StateT.run (remove (.query "/ | //a | //b | //@k")) overlappingPage =
        (.ok 4, { overlappingPage with document }) ∧
      Without overlappingPage.document document
        [⟨0, none⟩, ⟨1, some 1⟩, ⟨2, none⟩, ⟨2, some 1⟩, ⟨3, none⟩] ∧
      { overlappingPage with document }.text = "<r j=\"0\"><c></c></r>" := by
  have hvalues : (Page.parse 0 "<r j='0' k='1'><a l='2' k='3'><b/></a><c/></r>" {}).isOk = true ∧
      overlappingPage.document.size ≤ 0xFFFFFFFF ∧ overlappingPage.document.size = 5 ∧
      (∀ id < 5, ((overlappingPage.document.attributes id).map Attribute.qualifiedName).Nodup) ∧
      (StateT.run (search "/ | //a | //b | //@k" .whole) overlappingPage).1 =
        .ok ⟨0, [⟨0, none⟩, ⟨1, some 1⟩, ⟨2, none⟩, ⟨2, some 1⟩, ⟨3, none⟩]⟩ ∧
      ((remove (.query "/ | //a | //b | //@k")).after overlappingPage).text =
        "<r j=\"0\"><c></c></r>" := by decide +kernel
  obtain ⟨hparse, hfits, hsize, hnames, hfound, htext⟩ := hvalues
  have hreachable : overlappingPage.Reachable := .parse (parse_ofMarkup hparse) hfits
  have hdistinct : ∀ id,
      ((overlappingPage.document.attributes id).map Attribute.qualifiedName).Nodup := by
    intro id
    by_cases hid : id < 5
    · exact hnames id hid
    · have hout : overlappingPage.document.size ≤ id := hsize.le.trans (Nat.le_of_not_lt hid)
      rw [attributes, element?, payload, node_of_size_le hout]
      exact .nil
  obtain ⟨document, hrun, hwithout⟩ := hreachable.remove_takes_found hdistinct hfound
  refine ⟨hreachable, hfound, document, hrun, hwithout, ?_⟩
  rw [Action.after, hrun] at htext
  exact htext

end Page

end MarkupQuery
