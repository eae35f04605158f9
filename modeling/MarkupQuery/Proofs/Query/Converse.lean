import MarkupQuery.Proofs.Query.Axes
import MarkupQuery.Proofs.Tree.Reachable

namespace MarkupQuery.Tree.Forest

open Document

variable {doc : Document} {kids : NodeId → List NodeId} {id other : NodeId}

theorem mem_follow_next (h : Forest doc kids) :
    other ∈ follow doc.next doc.size (doc.next id) ↔
      ∃ parent before after, kids parent = before ++ id :: after ∧ other ∈ after := by
  constructor
  · intro ho
    cases hp : doc.parent id with
    | none => simp [h.follow_orphan hp] at ho
    | some parent =>
      obtain ⟨before, after, hk⟩ := h.exists_split hp
      rw [h.follow_next hk] at ho
      exact ⟨parent, before, after, hk, ho⟩
  · rintro ⟨parent, before, after, hk, ho⟩
    rwa [h.follow_next hk]

theorem mem_follow_previous (h : Forest doc kids) :
    other ∈ follow doc.previous doc.size (doc.previous id) ↔
      ∃ parent before after, kids parent = before ++ id :: after ∧ other ∈ before := by
  constructor
  · intro ho
    cases hp : doc.parent id with
    | none => simp [h.follow_orphan hp] at ho
    | some parent =>
      obtain ⟨before, after, hk⟩ := h.exists_split hp
      rw [h.follow_previous hk, List.mem_reverse] at ho
      exact ⟨parent, before, after, hk, ho⟩
  · rintro ⟨parent, before, after, hk, ho⟩
    rwa [h.follow_previous hk, List.mem_reverse]

/-- The siblings after a node are those that it comes before. -/
theorem mem_next_iff_mem_previous (h : Forest doc kids) :
    other ∈ follow doc.next doc.size (doc.next id) ↔
      id ∈ follow doc.previous doc.size (doc.previous other) := by
  rw [h.mem_follow_next, h.mem_follow_previous]
  -- either way one list of children is cut at both nodes
  constructor
  · rintro ⟨parent, before, after, hk, ho⟩
    obtain ⟨between, rest, rfl⟩ := List.append_of_mem ho
    exact ⟨parent, before ++ id :: between, rest, by simp [hk], by simp⟩
  · rintro ⟨parent, before, after, hk, hid⟩
    obtain ⟨rest, between, rfl⟩ := List.append_of_mem hid
    exact ⟨parent, rest, between ++ other :: after, by simp [hk], by simp⟩

/-- One node comes later than another if on the ways up from the two there are siblings of which the
one comes after the other, and so the other node comes earlier. -/
theorem mem_later_iff_mem_earlier (h : Forest doc kids) :
    other ∈ doc.later id ↔ id ∈ doc.earlier other := by
  simp only [later, earlier, List.mem_flatMap, List.mem_reverse, h.mem_ancestors, h.mem_subtree]
  -- the same two siblings tell both, seen from one way up or from the other
  constructor
  · rintro ⟨above, habove, sibling, hs, ho⟩
    exact ⟨sibling, ho, above, h.mem_next_iff_mem_previous.mp hs, habove⟩
  · rintro ⟨above, habove, sibling, hs, hid⟩
    exact ⟨sibling, hid, above, h.mem_next_iff_mem_previous.mpr hs, habove⟩

theorem mem_above (h : Forest doc kids) :
    other ∈ (doc.ancestors id).drop 1 ↔ doc.Below id other := by
  have hl := h.leads_ancestors id
  obtain ⟨rest, hrest⟩ := h.exists_ancestors id
  rw [hrest] at hl
  rw [hrest, List.drop_one, List.tail_cons]
  exact ⟨hl.2.reaches, hl.2.mem_of_reaches⟩

end MarkupQuery.Tree.Forest

namespace MarkupQuery.Query

open MarkupQuery.Tree MarkupQuery.Tree.Document

/-- The axis that leads back to where an axis comes from. -/
def Axis.converse : Axis → Axis
  | .child => .parent
  | .parent => .child
  | .descendant => .ancestor
  | .ancestor => .descendant
  | .descendantOrSelf => .ancestorOrSelf
  | .ancestorOrSelf => .descendantOrSelf
  | .followingSibling => .precedingSibling
  | .precedingSibling => .followingSibling
  | .following => .preceding
  | .preceding => .following
  | .self => .self
  | .attribute => .parent

namespace Site

variable {doc : Document} {kids : NodeId → List NodeId} {id other : NodeId}

theorem node_inj : node other = node id ↔ other = id := ⟨congrArg Site.id, congrArg node⟩

theorem node_mem_map {ids : List NodeId} : node id ∈ ids.map node ↔ id ∈ ids := by
  simp [node_inj]

theorem mem_child_iff (h : Forest doc kids) :
    node other ∈ Axis.child.sites doc (node id) ↔ node id ∈ Axis.parent.sites doc (node other) := by
  have hparent : Axis.parent.sites doc (node other) = ((doc.parent other).map node).toList := rfl
  rw [hparent, Axis.sites, children_node h, node_mem_map, h.mem_kids]
  cases doc.parent other <;> simp [node_inj, eq_comm]

theorem mem_descendant_iff (h : Forest doc kids) :
    node other ∈ Axis.descendant.sites doc (node id) ↔
      node id ∈ Axis.ancestor.sites doc (node other) := by
  have habove :
      Axis.ancestor.sites doc (node other) = ((doc.ancestors other).drop 1).map node := rfl
  rw [habove, Axis.sites, descendants_node h, node_mem_map, node_mem_map, h.mem_descendants,
    h.mem_above]

theorem mem_descendantOrSelf_iff (h : Forest doc kids) :
    node other ∈ Axis.descendantOrSelf.sites doc (node id) ↔
      node id ∈ Axis.ancestorOrSelf.sites doc (node other) := by
  rw [Axis.sites, subtree_node h, node_mem_map, h.mem_subtree, Axis.sites, mem_ancestorsOrSelf h]
  rfl

theorem mem_followingSibling_iff (h : Forest doc kids) :
    node other ∈ Axis.followingSibling.sites doc (node id) ↔
      node id ∈ Axis.precedingSibling.sites doc (node other) := by
  rw [Axis.sites, Axis.sites, followingSiblings_eq h, precedingSiblings_eq h]
  exact node_mem_map.trans (h.mem_next_iff_mem_previous.trans node_mem_map.symm)

theorem mem_following_iff (h : Forest doc kids) :
    node other ∈ Axis.following.sites doc (node id) ↔
      node id ∈ Axis.preceding.sites doc (node other) := by
  rw [Axis.sites, Axis.sites, following_eq h, preceding_eq h]
  exact node_mem_map.trans (h.mem_later_iff_mem_earlier.trans node_mem_map.symm)

theorem mem_attribute_iff {site : Site} (hs : (site.attribute? doc).isSome) :
    site ∈ Axis.attribute.sites doc (node id) ↔ node id ∈ Axis.parent.sites doc site := by
  obtain ⟨owner, index⟩ := site
  cases index with
  | none => simp [attribute?] at hs
  | some i =>
    have hlt : i < (doc.attributes owner).length := by
      simpa [attribute?] using hs
    have hparent : Axis.parent.sites doc ⟨owner, some i⟩ = [node owner] := rfl
    rw [hparent, Axis.sites, mem_attributes, List.mem_singleton, node_inj]
    constructor
    · rintro ⟨_, -, he⟩
      exact (congrArg Site.id he).symm
    · rintro rfl
      exact ⟨i, hlt, rfl⟩

end Site

open Site

/-- In a reachable document one node is on an axis of another, attached or not, exactly if the other
is on the converse axis of the one. An attribute is among those of a node exactly if the node is the
parent of the attribute. -/
theorem mem_sites_iff_mem_converse {doc : Document} (hd : doc.Reachable) :
    (∀ axis : Axis, axis ≠ .attribute → ∀ id other : NodeId,
      node other ∈ axis.sites doc (node id) ↔ node id ∈ axis.converse.sites doc (node other)) ∧
    ∀ site : Site, (site.attribute? doc).isSome → ∀ id : NodeId,
      site ∈ Axis.attribute.sites doc (node id) ↔
        node id ∈ Axis.attribute.converse.sites doc site := by
  have h := hd.forest
  refine ⟨fun axis ha id other => ?_, fun site hs id => mem_attribute_iff hs⟩
  cases axis with
  | child => exact mem_child_iff h
  | parent => exact (mem_child_iff h).symm
  | descendant => exact mem_descendant_iff h
  | ancestor => exact (mem_descendant_iff h).symm
  | descendantOrSelf => exact mem_descendantOrSelf_iff h
  | ancestorOrSelf => exact (mem_descendantOrSelf_iff h).symm
  | followingSibling => exact mem_followingSibling_iff h
  | precedingSibling => exact (mem_followingSibling_iff h).symm
  | following => exact mem_following_iff h
  | preceding => exact (mem_following_iff h).symm
  | self => simp [Axis.converse, Axis.sites, node_inj, eq_comm]
  | «attribute» => exact absurd rfl ha

def cutOff : Document :=
  (Change.detach 2).apply (.ofMarkup "<r><a><b><c k='1'/></b><d><e/></d></a></r>")

/-- In the tree that was cut off what is below the second branch follows what is below the first,
and the attribute is that of its parent. -/
theorem mem_sites_iff_mem_converse_cutOff : cutOff.Reachable ∧ cutOff.isAttached 4 = false ∧
    node 6 ∈ Axis.following.sites cutOff (node 4) ∧ node 4 ∈ Axis.preceding.sites cutOff (node 6) ∧
    (Site.attribute? cutOff ⟨4, some 0⟩).isSome ∧
    ⟨4, some 0⟩ ∈ Axis.attribute.sites cutOff (node 4) ∧
    node 4 ∈ Axis.parent.sites cutOff ⟨4, some 0⟩ := by
  have hvalues : (Document.parse "<r><a><b><c k='1'/></b><d><e/></d></a></r>").isOk = true ∧
      cutOff.isAttached 4 = false ∧ node 6 ∈ Axis.following.sites cutOff (node 4) ∧
      (Site.attribute? cutOff ⟨4, some 0⟩).isSome ∧
      ⟨4, some 0⟩ ∈ Axis.attribute.sites cutOff (node 4) := by
    decide +kernel
  obtain ⟨hparse, hattached, hfollowing, hattribute, hmem⟩ := hvalues
  have hreachable : cutOff.Reachable :=
    .change_alone _ (.parse (Document.parse_ofMarkup hparse)) (by simp)
  obtain ⟨hnodes, hattributes⟩ := mem_sites_iff_mem_converse hreachable
  exact ⟨hreachable, hattached, hfollowing, (hnodes .following (by decide) 4 6).mp hfollowing,
    hattribute, hmem, (hattributes ⟨4, some 0⟩ hattribute 4).mp hmem⟩

end MarkupQuery.Query
