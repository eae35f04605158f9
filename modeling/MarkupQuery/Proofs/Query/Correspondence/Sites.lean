import Mathlib.Data.Set.Function
import MarkupQuery.Proofs.Query.Axes
import MarkupQuery.Proofs.Query.DocumentOrder
import MarkupQuery.Proofs.Tree.Preorder
import MarkupQuery.Query.NodeTest

namespace MarkupQuery.Tree

namespace Document

/-- `φ` takes the attached nodes of `first` one to one onto those of `second`, with all that they
hold, their parents and their children. -/
structure Corresponds (first second : Document) (φ : NodeId → NodeId) : Prop where
  bijective : Set.BijOn φ {id | first.isAttached id} {id | second.isAttached id}
  root : φ Document.root = Document.root
  payload : ∀ id, first.isAttached id → second.payload (φ id) = first.payload id
  parent : ∀ id, first.isAttached id → second.parent (φ id) = (first.parent id).map φ
  children : ∀ id, first.isAttached id → second.children (φ id) = (first.children id).map φ

end Document

namespace Document.Corresponds

/-- Walks that correspond and hold the same at every place make a correspondence. -/
theorem of_subtree {first second : Document} {φ : NodeId → NodeId}
    (hf : Forest first first.children) (hs : Forest second second.children)
    (hwalk : second.subtree Document.root = (first.subtree Document.root).map φ)
    (hnode : ∀ id ∈ first.subtree Document.root, second.payload (φ id) = first.payload id ∧
      second.parent (φ id) = (first.parent id).map φ ∧
      second.children (φ id) = (first.children id).map φ) : first.Corresponds second φ := by
  have hmem : ∀ id, first.isAttached id ↔ id ∈ first.subtree Document.root := fun id =>
    hf.isAttached_iff.trans hf.mem_subtree.symm
  have hmem' : ∀ id, second.isAttached id ↔ id ∈ (first.subtree Document.root).map φ := fun id =>
    hs.isAttached_iff.trans (hwalk ▸ hs.mem_subtree.symm)
  have hnodup : ((first.subtree Document.root).map φ).Nodup := hwalk ▸ hs.nodup_subtree _
  refine ⟨⟨fun id hid => ?_, fun id hid other ho he => ?_, fun id hid => ?_⟩, ?_,
    fun id hid => (hnode id ((hmem id).mp hid)).1, fun id hid => (hnode id ((hmem id).mp hid)).2.1,
    fun id hid => (hnode id ((hmem id).mp hid)).2.2⟩
  · exact (hmem' _).mpr (List.mem_map_of_mem ((hmem id).mp hid))
  · exact List.inj_on_of_nodup_map hnodup ((hmem id).mp hid) ((hmem other).mp ho) he
  · obtain ⟨source, hsource, rfl⟩ := List.mem_map.mp ((hmem' id).mp hid)
    exact ⟨source, (hmem source).mpr hsource, rfl⟩
  · rw [hs.subtree_eq, hf.subtree_eq, List.map_cons] at hwalk
    exact (List.cons.inj hwalk).1.symm

variable {first second : Document} {φ : NodeId → NodeId} {id above child parent : NodeId}
  (h : first.Corresponds second φ) (hf : Forest first first.children)
  (hs : Forest second second.children)

include h hf

theorem payload_eq (hid : first.Within id Document.root) :
    second.payload (φ id) = first.payload id := h.payload id (hf.isAttached_iff.mpr hid)

theorem parent_eq (hid : first.Within id Document.root) :
    second.parent (φ id) = (first.parent id).map φ := h.parent id (hf.isAttached_iff.mpr hid)

theorem children_eq (hid : first.Within id Document.root) :
    second.children (φ id) = (first.children id).map φ := h.children id (hf.isAttached_iff.mpr hid)

theorem inj (hid : first.Within id Document.root) (ho : first.Within above Document.root)
    (he : φ id = φ above) : id = above :=
  h.bijective.injOn (hf.isAttached_iff.mpr hid) (hf.isAttached_iff.mpr ho) he

theorem element?_eq (hid : first.Within id Document.root) :
    second.element? (φ id) = first.element? id := congrArg Payload.element? (h.payload_eq hf hid)

theorem attributes_eq (hid : first.Within id Document.root) :
    second.attributes (φ id) = first.attributes id := by
  rw [attributes, attributes, h.element?_eq hf hid]

theorem namespaceUri?_eq (hid : first.Within id Document.root) :
    second.namespaceUri? (φ id) = first.namespaceUri? id := by
  rw [namespaceUri?, namespaceUri?, h.element?_eq hf hid]

include hs

/-- The nodes above, counted from the node up to the document node, correspond. -/
theorem ancestors_eq (hid : first.Within id Document.root) :
    second.ancestors (φ id) = (first.ancestors id).map φ := by
  induction hid using Relation.ReflTransGen.head_induction_on with
  | refl => rw [h.root, hs.ancestors_top hs.parent_root, hf.ancestors_top hf.parent_root,
      List.map_singleton, h.root]
  | @head id parent hp hw ih =>
    have hp' : second.parent (φ id) = some (φ parent) := by
      rw [h.parent_eq hf (.head hp hw), show first.parent id = some parent from hp]
      rfl
    rw [hs.ancestors_eq hp', hf.ancestors_eq hp, ih, List.map_cons]

/-- A walk below an attached node is the same walk in the other document. -/
theorem subtree_eq (hid : first.Within id Document.root) :
    second.subtree (φ id) = (first.subtree id).map φ := by
  induction id using hf.induction_below with
  | _ id ih =>
    rw [hs.subtree_eq, hf.subtree_eq, h.children_eq hf hid, List.map_cons, List.flatMap_map,
      List.map_flatMap]
    refine congrArg (φ id :: ·) (List.flatMap_congr fun child hc => ?_)
    exact ih child hc ((hf.within_of_mem_kids hc).trans hid)

theorem descendants_eq (hid : first.Within id Document.root) :
    second.descendants (φ id) = (first.descendants id).map φ :=
  (List.cons.inj (h.subtree_eq hf hs hid)).2

theorem textContent_eq (hid : first.Within id Document.root) :
    second.textContent (φ id) = first.textContent id := by
  unfold textContent
  rw [h.payload_eq hf hid]
  have hbelow : (second.descendants (φ id)).map (fun below => textOf (second.payload below)) =
      (first.descendants id).map fun below => textOf (first.payload below) := by
    rw [h.descendants_eq hf hs hid, List.map_map]
    refine List.map_congr_left fun below hb => congrArg textOf (h.payload_eq hf ?_)
    exact (hf.mem_subtree.mp (List.mem_cons_of_mem _ hb)).trans hid
  rw [hbelow]

/-- The siblings on either side correspond, in their order. -/
theorem siblings_eq (hid : first.Within id Document.root) :
    follow second.next second.size (second.next (φ id)) =
        (follow first.next first.size (first.next id)).map φ ∧
      follow second.previous second.size (second.previous (φ id)) =
        (follow first.previous first.size (first.previous id)).map φ := by
  cases hp : first.parent id with
  | none =>
    have hp' : second.parent (φ id) = none := by rw [h.parent_eq hf hid, hp]; rfl
    simp [hf.follow_orphan hp, hs.follow_orphan hp']
  | some parent =>
    have hparent : first.Within parent Document.root := within_top_of_within hf.parent_root hid (.single hp)
    obtain ⟨before, after, hk⟩ := hf.exists_split hp
    have hk' : second.children (φ parent) = before.map φ ++ φ id :: after.map φ := by
      rw [h.children_eq hf hparent, hk, List.map_append, List.map_cons]
    rw [hf.follow_next hk, hf.follow_previous hk, hs.follow_next hk', hs.follow_previous hk',
      List.map_reverse]
    exact ⟨rfl, rfl⟩

theorem rank_eq (hid : first.Within id Document.root) : second.rank (φ id) = first.rank id := by
  obtain ⟨before, after, hsplit⟩ := List.append_of_mem (hf.mem_subtree.mpr hid)
  have hsplit' : second.subtree Document.root = before.map φ ++ φ id :: after.map φ := by
    have hroot := h.subtree_eq hf hs (.refl : first.Within Document.root _)
    rw [h.root] at hroot
    rw [hroot, hsplit, List.map_append, List.map_cons]
  rw [hf.rank_eq hsplit, hs.rank_eq hsplit', List.length_map]

end Document.Corresponds

end MarkupQuery.Tree

/-!
Sites of corresponding documents. What a query can ask of an attached site has the same answer for
the corresponding one: its kind, names and text, the sites on each axis, and which of two sites
comes first.
-/

namespace MarkupQuery.Query

open MarkupQuery.Tree

def Site.map (φ : NodeId → NodeId) (site : Site) : Site := ⟨φ site.id, site.index⟩

section Sites

variable {first second : Document} {φ : NodeId → NodeId} {site : Site}
  (h : first.Corresponds second φ) (hf : Forest first first.children)
  (hs : Forest second second.children)

namespace Site

include h in
theorem map_document : Site.document.map φ = .document := congrArg (Site.mk · none) h.root

include h hf

theorem kind_map (hsite : first.Within site.id Document.root) :
    (site.map φ).kind second = site.kind first := by
  simp only [kind, map, h.payload_eq hf hsite]

theorem attribute?_map (hsite : first.Within site.id Document.root) :
    (site.map φ).attribute? second = site.attribute? first := by
  simp only [attribute?, map, h.attributes_eq hf hsite]

theorem name?_map (hsite : first.Within site.id Document.root) :
    (site.map φ).name? second = site.name? first := by
  simp only [name?, attribute?_map h hf hsite]
  simp only [map, h.payload_eq hf hsite]

theorem namespaceUri?_map (hsite : first.Within site.id Document.root) :
    (site.map φ).namespaceUri? second = site.namespaceUri? first := by
  simp only [namespaceUri?, attribute?_map h hf hsite]
  simp only [map, h.namespaceUri?_eq hf hsite]

theorem children_map (hsite : first.Within site.id Document.root) :
    (site.map φ).children second = (site.children first).map (map φ) := by
  unfold children
  simp only [map, h.children_eq hf hsite]
  split
  · rfl
  · rw [List.map_map, List.map_map]
    rfl

theorem attributes_map (hsite : first.Within site.id Document.root) :
    (site.map φ).attributes second = (site.attributes first).map (map φ) := by
  unfold attributes
  simp only [map, h.attributes_eq hf hsite]
  split
  · rfl
  · rw [List.map_map]
    rfl

theorem parent?_map (hsite : first.Within site.id Document.root) :
    (site.map φ).parent? second = (site.parent? first).map (map φ) := by
  unfold parent?
  simp only [map, h.parent_eq hf hsite]
  split
  · rfl
  · rw [Option.map_map, Option.map_map]
    rfl

include hs

theorem value_map (hsite : first.Within site.id Document.root) :
    (site.map φ).value second = site.value first := by
  simp only [value, attribute?_map h hf hsite]
  simp only [map, h.textContent_eq hf hs hsite]

theorem ancestors_map (hsite : first.Within site.id Document.root) :
    (site.map φ).ancestors second = (site.ancestors first).map (map φ) := by
  unfold ancestors
  simp only [map, h.ancestors_eq hf hs hsite]
  split
  · rw [List.map_map, List.map_map]
    rfl
  · rw [← List.map_drop, List.map_map, List.map_map]
    rfl

theorem descendants_map (hsite : first.Within site.id Document.root) :
    (site.map φ).descendants second = (site.descendants first).map (map φ) := by
  rw [descendants_eq hs, descendants_eq hf]
  simp only [map, h.descendants_eq hf hs hsite]
  split
  · rfl
  · rw [List.map_map, List.map_map]
    rfl

theorem subtree_map (hsite : first.Within site.id Document.root) :
    (site.map φ).subtree second = (site.subtree first).map (map φ) :=
  congrArg (site.map φ :: ·) (descendants_map h hf hs hsite)

theorem followingSiblings_map (hsite : first.Within site.id Document.root) :
    (site.map φ).followingSiblings second = (site.followingSiblings first).map (map φ) := by
  rw [followingSiblings_eq hs, followingSiblings_eq hf]
  simp only [map, (h.siblings_eq hf hs hsite).1]
  split
  · rfl
  · rw [List.map_map, List.map_map]
    rfl

theorem precedingSiblings_map (hsite : first.Within site.id Document.root) :
    (site.map φ).precedingSiblings second = (site.precedingSiblings first).map (map φ) := by
  rw [precedingSiblings_eq hs, precedingSiblings_eq hf]
  simp only [map, (h.siblings_eq hf hs hsite).2]
  split
  · rfl
  · rw [List.map_map, List.map_map]
    rfl

/-- What is gathered from the siblings of each node above corresponds, if it does so from each
sibling. -/
theorem flatMap_above_map (siblings gather : Document → Site → List Site)
    (hsite : first.Within site.id Document.root)
    (hsiblings : ∀ above, first.Within above Document.root →
      siblings second (node (φ above)) = (siblings first (node above)).map (map φ) ∧
        ∀ sibling ∈ siblings first (node above), first.Within sibling.id Document.root)
    (hgather : ∀ sibling, first.Within sibling.id Document.root →
      gather second (sibling.map φ) = (gather first sibling).map (map φ)) :
    ((second.ancestors (φ site.id)).flatMap fun above =>
        (siblings second (node above)).flatMap (gather second)) =
      ((first.ancestors site.id).flatMap fun above =>
        (siblings first (node above)).flatMap (gather first)).map (map φ) := by
  rw [h.ancestors_eq hf hs hsite, List.flatMap_map, List.map_flatMap]
  refine List.flatMap_congr fun above ha => ?_
  have habove := Document.within_top_of_within hf.parent_root hsite (hf.mem_ancestors.mp ha)
  obtain ⟨hlist, hwithin⟩ := hsiblings above habove
  rw [hlist, List.flatMap_map, List.map_flatMap]
  exact List.flatMap_congr fun sibling hmem => hgather sibling (hwithin sibling hmem)

theorem following_map (hsite : first.Within site.id Document.root) :
    (site.map φ).following second = (site.following first).map (map φ) := by
  have hbelow : (if (site.map φ).index.isSome then (node (φ site.id)).descendants second else []) =
      (if site.index.isSome then (node site.id).descendants first else []).map (map φ) := by
    change (if site.index.isSome then _ else _) = _
    split
    · exact @descendants_map _ _ _ (node site.id) h hf hs hsite
    · rfl
  have hlater := flatMap_above_map h hf hs followingSiblings subtree hsite
    (fun above habove => ⟨@followingSiblings_map _ _ _ (node above) h hf hs habove,
      fun sibling hmem => by
        rw [followingSiblings_eq hf] at hmem
        obtain ⟨id, hid, rfl⟩ := List.mem_map.mp hmem
        exact hf.within_top_of_sibling hf.parent_root habove (.inl hid)⟩)
    fun sibling hsibling => subtree_map h hf hs hsibling
  exact (congrArg₂ (· ++ ·) hbelow hlater).trans List.map_append.symm

theorem preceding_map (hsite : first.Within site.id Document.root) :
    (site.map φ).preceding second = (site.preceding first).map (map φ) :=
  flatMap_above_map h hf hs precedingSiblings
    (fun doc sibling => (sibling.subtree doc).reverse) hsite
    (fun above habove => ⟨@precedingSiblings_map _ _ _ (node above) h hf hs habove,
      fun sibling hmem => by
        rw [precedingSiblings_eq hf] at hmem
        obtain ⟨id, hid, rfl⟩ := List.mem_map.mp hmem
        exact hf.within_top_of_sibling hf.parent_root habove (.inr hid)⟩)
    fun sibling hsibling => by rw [subtree_map h hf hs hsibling, List.map_reverse]

end Site

/-- On every axis the corresponding sites stand in the same order. -/
theorem Axis.sites_map (axis : Axis) (hsite : first.Within site.id Document.root)
    (h : first.Corresponds second φ) (hf : Forest first first.children)
    (hs : Forest second second.children) :
    axis.sites second (site.map φ) = (axis.sites first site).map (Site.map φ) := by
  cases axis with
  | child => exact Site.children_map h hf hsite
  | descendant => exact Site.descendants_map h hf hs hsite
  | descendantOrSelf => exact Site.subtree_map h hf hs hsite
  | «attribute» => exact Site.attributes_map h hf hsite
  | parent =>
    change ((site.map φ).parent? second).toList = ((site.parent? first).toList).map (Site.map φ)
    rw [Site.parent?_map h hf hsite]
    cases site.parent? first <;> rfl
  | ancestor => exact Site.ancestors_map h hf hs hsite
  | ancestorOrSelf => exact congrArg (site.map φ :: ·) (Site.ancestors_map h hf hs hsite)
  | self => rfl
  | followingSibling => exact Site.followingSiblings_map h hf hs hsite
  | precedingSibling => exact Site.precedingSiblings_map h hf hs hsite
  | following => exact Site.following_map h hf hs hsite
  | preceding => exact Site.preceding_map h hf hs hsite

end Sites

/-- A test that was resolved admits corresponding sites alike. -/
theorem ResolvedTest.admits_map {first second : Document} {φ : NodeId → NodeId} {site : Site}
    (h : first.Corresponds second φ) (hf : Forest first first.children)
    (hsite : first.Within site.id Document.root) (test : ResolvedTest) (axis : Axis) :
    test.admits second axis (site.map φ) = test.admits first axis site := by
  unfold ResolvedTest.admits
  rw [Site.kind_map h hf hsite, Site.namespaceUri?_map h hf hsite, Site.name?_map h hf hsite]

namespace Ranked

variable {s t : Ranked} {φ : NodeId → NodeId} {a b : Site} {sites : List Site}

/-- In document order no list has the same sites as another. -/
theorem eq_of_inOrder {sites others : List Site} (h : s.InOrder sites) (ho : s.InOrder others)
    (hmem : ∀ site, site ∈ sites ↔ site ∈ others) : sites = others :=
  (sublist_of_inOrder h ho fun site hsite => (hmem site).mp hsite).antisymm
    (sublist_of_inOrder ho h fun site hsite => (hmem site).mpr hsite)

/-- Nodes of equal rank are the same if they are attached, so their ids never decide. -/
theorem precedes_iff_of_within {kids : NodeId → List NodeId} (hf : Forest s.document kids)
    (ha : s.document.Within a.id Document.root) (hb : s.document.Within b.id Document.root) :
    s.Precedes a b ↔ s.rank a.id < s.rank b.id ∨
      (a.id = b.id ∧ indexBefore a.index b.index = true) := by
  have hsame : s.rank a.id = s.rank b.id → a.id = b.id := by
    intro hrank
    rw [rank_eq, rank_eq] at hrank
    have hnodup : ((s.document.subtree Document.root).map s.document.rank).Nodup :=
      List.pairwise_map.mpr (hf.pairwise_rank.imp Nat.ne_of_lt)
    exact List.inj_on_of_nodup_map hnodup (hf.mem_subtree.mpr ha) (hf.mem_subtree.mpr hb) hrank
  rw [precedes_iff]
  constructor
  · rintro (hlt | ⟨hrank, hid | hindex⟩)
    · exact .inl hlt
    · exact absurd hid (by rw [hsame hrank]; exact Nat.lt_irrefl _)
    · exact .inr hindex
  · rintro (hlt | ⟨hid, hindex⟩)
    · exact .inl hlt
    · exact .inr ⟨by rw [hid], .inr ⟨hid, hindex⟩⟩

variable (h : s.document.Corresponds t.document φ) (hf : Forest s.document s.document.children)
  (ht : Forest t.document t.document.children)

include h hf ht

theorem precedes_map (ha : s.document.Within a.id Document.root)
    (hb : s.document.Within b.id Document.root) :
    t.Precedes (a.map φ) (b.map φ) ↔ s.Precedes a b := by
  have hwithin : ∀ {id}, s.document.Within id Document.root →
      t.document.Within (φ id) Document.root := fun hid =>
    ht.isAttached_iff.mp (h.bijective.mapsTo (hf.isAttached_iff.mpr hid))
  have hrank : ∀ {id}, s.document.Within id Document.root → t.rank (φ id) = s.rank id := by
    intro id hid
    rw [rank_eq, rank_eq, h.rank_eq hf ht hid]
  rw [precedes_iff_of_within ht (hwithin ha) (hwithin hb), precedes_iff_of_within hf ha hb]
  simp only [Site.map, hrank ha, hrank hb]
  exact or_congr Iff.rfl (and_congr ⟨h.inj hf ha hb, congrArg φ⟩ Iff.rfl)

/-- Putting attached sites in order does the same in both documents. -/
theorem ordered_map (hsites : ∀ site ∈ sites, s.document.Within site.id Document.root) :
    t.ordered (sites.map (Site.map φ)) = (s.ordered sites).map (Site.map φ) := by
  have hordered : ∀ site ∈ s.ordered sites, s.document.Within site.id Document.root :=
    fun site hsite => hsites site ((mem_ordered site sites).mp hsite)
  have hmapped : t.InOrder ((s.ordered sites).map (Site.map φ)) := by
    refine List.pairwise_map.mpr ((inOrder_ordered s sites).imp_of_mem fun ha hb hab => ?_)
    exact (precedes_map h hf ht (hordered _ ha) (hordered _ hb)).mpr hab
  refine eq_of_inOrder (inOrder_ordered t _) hmapped fun site => ?_
  simp only [mem_ordered, List.mem_map]

theorem first?_map (hsites : ∀ site ∈ sites, s.document.Within site.id Document.root) :
    t.first? (sites.map (Site.map φ)) = (s.first? sites).map (Site.map φ) := by
  rw [first?, first?, ordered_map h hf ht hsites, List.head?_map]

end Ranked

end MarkupQuery.Query
