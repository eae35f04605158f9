import Mathlib.Data.List.Flatten
import MarkupQuery.Proofs.Query.DocumentOrder
import MarkupQuery.Proofs.Tree.Preorder
import MarkupQuery.Query.Axis

namespace MarkupQuery.Tree.Forest

open Document

variable {doc : Document} {kids : NodeId → List NodeId} {id parent : NodeId}
  {before after : List NodeId}

theorem follow_next (h : Forest doc kids) (hk : kids parent = before ++ id :: after) :
    follow doc.next doc.size (doc.next id) = after := by
  have hleads := h.forward parent
  have hnodup := h.nodup parent
  rw [hk] at hleads hnodup
  obtain ⟨_, -, -, hafter⟩ := leads_append.mp hleads
  refine follow_eq hafter (length_le_of_nodup hnodup.of_append_right.of_cons fun x hx => ?_)
  exact h.kids_lt (show x ∈ kids parent by simp [hk, hx])

theorem follow_previous (h : Forest doc kids) (hk : kids parent = before ++ id :: after) :
    follow doc.previous doc.size (doc.previous id) = before.reverse := by
  have hleads := h.backward parent
  have hnodup := h.nodup parent
  rw [hk] at hleads hnodup
  rw [List.reverse_append, List.reverse_cons, List.append_assoc] at hleads
  obtain ⟨_, -, -, hbefore⟩ := leads_append.mp hleads
  refine follow_eq hbefore (length_le_of_nodup (List.nodup_reverse.mpr hnodup.of_append_left) ?_)
  intro x hx
  exact h.kids_lt (show x ∈ kids parent by simp [hk, List.mem_reverse.mp hx])

theorem follow_orphan (h : Forest doc kids) (hp : doc.parent id = none) :
    follow doc.next doc.size (doc.next id) = [] ∧
      follow doc.previous doc.size (doc.previous id) = [] := by
  obtain ⟨hprevious, hnext⟩ := h.orphan id hp
  rw [hprevious, hnext]
  exact ⟨follow_eq (show Leads doc.next none [] none from rfl) (Nat.zero_le _),
    follow_eq (show Leads doc.previous none [] none from rfl) (Nat.zero_le _)⟩

theorem length_descendants_le (h : Forest doc kids) (id : NodeId) :
    (doc.descendants id).length ≤ doc.size := by
  refine length_le_of_nodup (h.nodup_subtree id).of_cons fun x hx => ?_
  obtain ⟨y, hy, -⟩ := Relation.TransGen.head'_iff.mp (h.mem_descendants.mp hx)
  exact h.child_lt x y hy

end MarkupQuery.Tree.Forest

namespace MarkupQuery.Query.Site

open MarkupQuery.Tree MarkupQuery.Tree.Document

variable {doc : Document} {kids : NodeId → List NodeId} {id parent : NodeId}
  {before after : List NodeId}

theorem children_node (h : Forest doc kids) (id : NodeId) :
    (node id).children doc = (kids id).map node :=
  congrArg (List.map node) (h.children_eq id)

/-- With fuel for all that is to come, a walk lists the subtrees of the nodes on its stack. -/
theorem walk_eq (h : Forest doc kids) {fuel : Nat} {stack : List NodeId}
    (hf : (stack.flatMap doc.subtree).length ≤ fuel) :
    walk doc fuel (stack.map node) = (stack.flatMap doc.subtree).map node := by
  induction fuel generalizing stack with
  | zero =>
    have hnil : stack = [] := by
      cases stack with
      | nil => rfl
      | cons top stack => simp [Document.subtree] at hf
    rw [hnil]
    rfl
  | succ fuel ih =>
    cases stack with
    | nil => rfl
    | cons top stack =>
      have hsplit : (top :: stack).flatMap doc.subtree =
          top :: (kids top ++ stack).flatMap doc.subtree := by
        rw [List.flatMap_cons, h.subtree_eq, List.flatMap_append, List.cons_append]
      rw [hsplit, List.length_cons, Nat.add_le_add_iff_right] at hf
      rw [hsplit, List.map_cons, List.map_cons, ← ih hf, List.map_append, ← children_node h]
      rfl

theorem descendants_node (h : Forest doc kids) (id : NodeId) :
    (node id).descendants doc = (doc.descendants id).map node := by
  have hfuel := h.length_descendants_le id
  rw [h.descendants_eq] at hfuel ⊢
  rw [descendants, children_node h, walk_eq h hfuel]

theorem descendants_of_attribute (doc : Document) (id : NodeId) (i : Nat) :
    descendants doc ⟨id, some i⟩ = [] := by
  rw [descendants, show children doc ⟨id, some i⟩ = [] from rfl]
  cases doc.size <;> rfl

theorem descendants_eq (h : Forest doc kids) (site : Site) : site.descendants doc =
    if site.index.isSome then [] else (doc.descendants site.id).map node := by
  obtain ⟨id, index⟩ := site
  cases index with
  | none => exact descendants_node h id
  | some i => exact descendants_of_attribute doc id i

theorem subtree_node (h : Forest doc kids) (id : NodeId) :
    (node id).subtree doc = (doc.subtree id).map node := by
  rw [subtree, descendants_node h, Document.subtree, List.map_cons]

theorem siblings_node (h : Forest doc kids) (hp : doc.parent id = some parent) :
    (node id).siblings doc = (kids parent).map node := by
  have hparent : (node id).parent? doc = some (node parent) := congrArg (Option.map node) hp
  rw [siblings, hparent]
  exact children_node h parent

theorem siblings_orphan (hp : doc.parent id = none) : (node id).siblings doc = [] := by
  have hparent : (node id).parent? doc = none := congrArg (Option.map node) hp
  rw [siblings, hparent]
  rfl

/-- In the list of its siblings a node differs from those before it. -/
theorem ne_node_of_split (h : Forest doc kids) (hk : kids parent = before ++ id :: after) :
    ∀ sibling ∈ before.map node, (sibling != node id) = true := by
  have hnodup := h.nodup parent
  rw [hk] at hnodup
  intro sibling hs
  obtain ⟨x, hx, rfl⟩ := List.mem_map.mp hs
  rw [bne_iff_ne]
  intro he
  exact (List.nodup_append.mp hnodup).2.2 x hx id List.mem_cons_self (congrArg Site.id he)

theorem followingSiblings_eq (h : Forest doc kids) (site : Site) : site.followingSiblings doc =
    if site.index.isSome then [] else (follow doc.next doc.size (doc.next site.id)).map node := by
  obtain ⟨id, index⟩ := site
  cases index with
  | some i => rfl
  | none =>
    change (node id).followingSiblings doc = (follow doc.next doc.size (doc.next id)).map node
    cases hp : doc.parent id with
    | none => rw [(h.follow_orphan hp).1, followingSiblings, siblings_orphan hp]; rfl
    | some parent =>
      obtain ⟨before, after, hk⟩ := h.exists_split hp
      rw [followingSiblings, siblings_node h hp, h.follow_next hk, hk, List.map_append,
        List.dropWhile_append_of_pos (ne_node_of_split h hk), List.map_cons,
        List.dropWhile_cons_of_neg (by simp)]
      rfl

theorem precedingSiblings_eq (h : Forest doc kids) (site : Site) : site.precedingSiblings doc =
    if site.index.isSome then []
    else (follow doc.previous doc.size (doc.previous site.id)).map node := by
  obtain ⟨id, index⟩ := site
  cases index with
  | some i => rfl
  | none =>
    change (node id).precedingSiblings doc =
      (follow doc.previous doc.size (doc.previous id)).map node
    cases hp : doc.parent id with
    | none => rw [(h.follow_orphan hp).2, precedingSiblings, siblings_orphan hp]; rfl
    | some parent =>
      obtain ⟨before, after, hk⟩ := h.exists_split hp
      rw [precedingSiblings, siblings_node h hp, h.follow_previous hk, hk, List.map_append,
        List.takeWhile_append_of_pos (ne_node_of_split h hk), List.map_cons,
        List.takeWhile_cons_of_neg (by simp), List.append_nil, List.map_reverse]

end MarkupQuery.Query.Site

/-!
The sites on an axis. From a site of a tree every axis leads to sites of that tree only. A forward
axis lists them in the order of the tree and a reverse axis against it. For attached sites this is
document order.
-/

namespace MarkupQuery.Tree

namespace Document

def later (doc : Document) (id : NodeId) : List NodeId :=
  (doc.ancestors id).flatMap fun above =>
    (follow doc.next doc.size (doc.next above)).flatMap doc.subtree

/-- What comes before a node and is not above it, nearest first. -/
def earlier (doc : Document) (id : NodeId) : List NodeId :=
  (doc.ancestors id).flatMap fun above =>
    (follow doc.previous doc.size (doc.previous above)).flatMap fun sibling =>
      (doc.subtree sibling).reverse

/-- What a walk has visited when it comes to a node: all that is above the node and all that comes
before it. -/
structure Front (doc : Document) (id : NodeId) (front : List NodeId) : Prop where
  perm : front.Perm ((doc.ancestors id).drop 1 ++ doc.earlier id)
  above : ((doc.ancestors id).drop 1).reverse.Sublist front
  earlier : (doc.earlier id).reverse.Sublist front

/-- Above a node of a tree there are only nodes of the same tree. -/
theorem within_top_of_within {doc : Document} {id above top : NodeId} (ht : doc.parent top = none)
    (hw : doc.Within id top) (ha : doc.Within id above) : doc.Within above top := by
  have hunique : Relator.RightUnique doc.ChildOf := fun x y z hy hz =>
    Option.some.inj (hy.symm.trans hz)
  rcases Relation.ReflTransGen.total_of_right_unique hunique ha hw with hw | hw
  · exact hw
  · rcases Relation.ReflTransGen.cases_head hw with he | ⟨x, hx, -⟩
    · exact he ▸ .refl
    · simp [ChildOf, ht] at hx

end Document

namespace Forest

open Document

variable {doc : Document} {kids : NodeId → List NodeId} {id parent top : NodeId}
  {before after : List NodeId}

/-- Siblings have the same parent, so they are in one tree. -/
theorem within_top_of_sibling (h : Forest doc kids) (ht : doc.parent top = none)
    (hw : doc.Within id top) {sibling : NodeId}
    (hs : sibling ∈ follow doc.next doc.size (doc.next id) ∨
      sibling ∈ follow doc.previous doc.size (doc.previous id)) : doc.Within sibling top := by
  cases hp : doc.parent id with
  | none => simp [h.follow_orphan hp] at hs
  | some parent =>
    obtain ⟨before, after, hk⟩ := h.exists_split hp
    rw [h.follow_next hk, h.follow_previous hk, List.mem_reverse] at hs
    have hmem : sibling ∈ kids parent := by
      rw [hk]
      rcases hs with hs | hs <;> simp [hs]
    exact .head ((h.mem_kids sibling parent).mp hmem) (within_top_of_within ht hw (.single hp))

theorem kids_sublist_top (h : Forest doc kids) (hw : doc.Within id top) :
    (kids id).Sublist (doc.subtree top) :=
  (h.kids_sublist id).trans ((List.sublist_cons_self _ _).trans (h.subtree_sublist hw))

theorem later_top (h : Forest doc kids) (ht : doc.parent top = none) : doc.later top = [] := by
  simp [later, h.ancestors_top ht, h.follow_orphan ht]

theorem earlier_top (h : Forest doc kids) (ht : doc.parent top = none) :
    doc.earlier top = [] := by
  simp [earlier, h.ancestors_top ht, h.follow_orphan ht]

theorem later_eq (h : Forest doc kids) (hp : doc.parent id = some parent)
    (hk : kids parent = before ++ id :: after) :
    doc.later id = after.flatMap doc.subtree ++ doc.later parent := by
  rw [later, h.ancestors_eq hp, List.flatMap_cons, h.follow_next hk]
  rfl

theorem earlier_eq (h : Forest doc kids) (hp : doc.parent id = some parent)
    (hk : kids parent = before ++ id :: after) :
    doc.earlier id = (before.flatMap doc.subtree).reverse ++ doc.earlier parent := by
  rw [earlier, h.ancestors_eq hp, List.flatMap_cons, h.follow_previous hk, List.reverse_flatMap]
  rfl

theorem front_child {front : List NodeId} (h : Forest doc kids)
    (hp : doc.parent id = some parent) (hk : kids parent = before ++ id :: after)
    (hf : doc.Front parent front) :
    doc.Front id (front ++ parent :: before.flatMap doc.subtree) := by
  obtain ⟨above, ha⟩ := h.exists_ancestors parent
  have hdrop : (doc.ancestors id).drop 1 = parent :: (doc.ancestors parent).drop 1 := by
    rw [h.ancestors_eq hp, ha]
    rfl
  refine ⟨?_, ?_, ?_⟩
  · rw [hdrop, h.earlier_eq hp hk, List.cons_append]
    refine List.perm_middle.trans (List.Perm.cons _ ?_)
    refine (hf.perm.append_right _).trans ?_
    rw [List.append_assoc]
    refine List.Perm.append_left _ (List.perm_append_comm.trans ?_)
    exact (List.reverse_perm _).symm.append_right _
  · rw [hdrop, List.reverse_cons]
    exact hf.above.append (List.singleton_sublist.mpr List.mem_cons_self)
  · rw [h.earlier_eq hp hk, List.reverse_append, List.reverse_reverse]
    exact hf.earlier.append (List.sublist_cons_self _ _)

/-- The walk of a tree visits what is above or before a node, then what is below it, then all that
comes later. -/
theorem exists_front (h : Forest doc kids) (ht : doc.parent top = none)
    (hw : doc.Within id top) :
    ∃ front, doc.subtree top = front ++ (doc.subtree id ++ doc.later id) ∧ doc.Front id front := by
  induction hw using Relation.ReflTransGen.head_induction_on with
  | refl =>
    refine ⟨[], by rw [h.later_top ht, List.append_nil, List.nil_append], ?_⟩
    constructor <;> simp [h.earlier_top ht, h.ancestors_top ht]
  | @head id parent hp _ ih =>
    obtain ⟨before, after, hk⟩ := h.exists_split hp
    obtain ⟨front, hsubtree, hfront⟩ := ih
    refine ⟨_, ?_, h.front_child hp hk hfront⟩
    rw [hsubtree, h.subtree_eq parent, h.later_eq hp hk, hk]
    simp

/-- The walk of a tree visits a subtree before all that comes later. -/
theorem subtree_later_sublist (h : Forest doc kids) (ht : doc.parent top = none)
    (hw : doc.Within id top) : (doc.subtree id ++ doc.later id).Sublist (doc.subtree top) := by
  obtain ⟨front, hsubtree, -⟩ := h.exists_front ht hw
  rw [hsubtree]
  exact List.sublist_append_right _ _

end Forest

end MarkupQuery.Tree

namespace MarkupQuery.Query

open MarkupQuery.Tree MarkupQuery.Tree.Document

namespace Site

def tree (doc : Document) (top : NodeId) : List Site :=
  (doc.subtree top).flatMap fun id => node id :: (node id).attributes doc

def all (doc : Document) : List Site := tree doc root

variable {doc : Document} {kids : NodeId → List NodeId} {site other : Site} {top : NodeId}

theorem mem_attributes {id : NodeId} : other ∈ (node id).attributes doc ↔
    ∃ i < (doc.attributes id).length, other = ⟨id, some i⟩ := by
  simp [attributes, node, eq_comm]

theorem mem_tree (h : Forest doc kids) : site ∈ tree doc top ↔
    doc.Within site.id top ∧ ∀ i ∈ site.index, i < (doc.attributes site.id).length := by
  simp only [tree, List.mem_flatMap, List.mem_cons, mem_attributes, h.mem_subtree]
  constructor
  · rintro ⟨id, hid, rfl | ⟨i, hi, rfl⟩⟩
    · exact ⟨hid, by simp [node]⟩
    · exact ⟨hid, by simpa using hi⟩
  · rintro ⟨hid, hi⟩
    obtain ⟨id, index⟩ := site
    refine ⟨id, hid, ?_⟩
    cases index with
    | none => exact .inl rfl
    | some i => exact .inr ⟨i, hi i rfl, rfl⟩

theorem mem_all (h : Forest doc kids) : site ∈ all doc ↔
    doc.Within site.id root ∧ ∀ i ∈ site.index, i < (doc.attributes site.id).length := mem_tree h

theorem node_mem_tree (h : Forest doc kids) {id : NodeId} (hid : doc.Within id top) :
    node id ∈ tree doc top := (mem_tree h).mpr ⟨hid, by simp [node]⟩

theorem node_mem_all (h : Forest doc kids) {id : NodeId} (hid : doc.Within id root) :
    node id ∈ all doc := node_mem_tree h hid

theorem map_node_sublist (doc : Document) (ids : List NodeId) :
    (ids.map node).Sublist (ids.flatMap fun id => node id :: (node id).attributes doc) := by
  induction ids with
  | nil => exact .slnil
  | cons id ids ih => exact (ih.trans (List.sublist_append_right _ _)).cons_cons _

theorem nodes_sublist {ids : List NodeId} (hs : ids.Sublist (doc.subtree top)) :
    (ids.map node).Sublist (tree doc top) :=
  (map_node_sublist doc ids).trans (hs.flatMap _)

theorem filter_tree (doc : Document) (top : NodeId) :
    (tree doc top).filter (fun site => site.index.isNone) = (doc.subtree top).map node := by
  have hblock : ∀ id, (node id :: (node id).attributes doc).filter (fun site => site.index.isNone) =
      [node id] := by
    intro id
    rw [List.filter_cons_of_pos rfl, List.filter_eq_nil_iff.mpr]
    intro other ho
    obtain ⟨i, -, rfl⟩ := mem_attributes.mp ho
    simp
  rw [tree, List.filter_flatMap, List.flatMap_congr fun id _ => hblock id, List.map_eq_flatMap]

theorem attributes_sublist (h : Forest doc kids) {id : NodeId} (hid : doc.Within id top) :
    ((node id).attributes doc).Sublist (tree doc top) := by
  have hmem : (node id :: (node id).attributes doc) ∈
      (doc.subtree top).map fun id => node id :: (node id).attributes doc :=
    List.mem_map_of_mem (h.mem_subtree.mpr hid)
  exact (List.sublist_cons_self _ _).trans (List.sublist_flatten_of_mem hmem)

/-- If the walk of a tree meets its nodes in order, then each node, its attributes by index and what
comes after it are in order. -/
theorem inOrder_tree {source : Ranked} (hp : (source.document.subtree top).Pairwise fun a b =>
    source.Precedes (node a) (node b)) : source.InOrder (tree source.document top) := by
  have hblock : ∀ id, source.InOrder (node id :: (node id).attributes source.document) := by
    intro id
    refine .cons (fun s hs => ?_) (List.pairwise_map.mpr ?_)
    · obtain ⟨i, -, rfl⟩ := mem_attributes.mp hs
      exact Ranked.precedes_iff.mpr (.inr ⟨rfl, .inr ⟨rfl, rfl⟩⟩)
    · refine List.pairwise_lt_range.imp fun hij => ?_
      exact Ranked.precedes_iff.mpr (.inr ⟨rfl, .inr ⟨rfl, by simpa [indexBefore] using hij⟩⟩)
  have hid : ∀ id, ∀ s ∈ node id :: (node id).attributes source.document, s.id = id := by
    intro id s hs
    rcases List.mem_cons.mp hs with rfl | hs
    · rfl
    · obtain ⟨i, -, rfl⟩ := mem_attributes.mp hs
      rfl
  refine List.pairwise_flatMap.mpr ⟨fun id _ => hblock id, hp.imp fun hab s hs t ht => ?_⟩
  simp only [Ranked.precedes_iff, node, indexBefore, Bool.false_eq_true, and_false,
    or_false] at hab
  rw [Ranked.precedes_iff, hid _ s hs, hid _ t ht]
  exact hab.imp_right fun hsame => ⟨hsame.1, .inl hsame.2⟩

/-- Document order lists a node, then its attributes by index, then what comes after it. -/
theorem inOrder_all {source : Ranked} (h : Forest source.document kids) :
    source.InOrder (all source.document) := by
  refine inOrder_tree (h.pairwise_rank.imp fun hab => Ranked.precedes_iff.mpr (.inl ?_))
  rw [Ranked.rank_eq, Ranked.rank_eq]
  exact hab

theorem descendants_sublist (h : Forest doc kids) (hid : doc.Within site.id top) :
    (site.descendants doc).Sublist (tree doc top) := by
  rw [descendants_eq h]
  split
  · exact List.nil_sublist _
  · exact nodes_sublist ((List.sublist_cons_self _ _).trans (h.subtree_sublist hid))

theorem following_eq (h : Forest doc kids) (site : Site) : site.following doc =
    (if site.index.isSome then doc.descendants site.id else []).map node ++
      (doc.later site.id).map node := by
  have hsiblings : ∀ id, ((node id).followingSiblings doc).flatMap (subtree doc) =
      ((follow doc.next doc.size (doc.next id)).flatMap doc.subtree).map node := by
    intro id
    rw [followingSiblings_eq h, List.map_flatMap]
    simp only [node, Option.isSome_none, Bool.false_eq_true, if_false, List.flatMap_map]
    exact List.flatMap_congr fun id _ => subtree_node h id
  simp only [following, hsiblings, later, List.map_flatMap, descendants_node h]
  split <;> rfl

theorem preceding_eq (h : Forest doc kids) (site : Site) :
    site.preceding doc = (doc.earlier site.id).map node := by
  simp only [preceding, earlier, List.map_flatMap]
  refine List.flatMap_congr fun id _ => ?_
  rw [precedingSiblings_eq h]
  simp only [node, Option.isSome_none, Bool.false_eq_true, if_false, List.flatMap_map]
  refine List.flatMap_congr fun id _ => ?_
  rw [List.map_reverse]
  exact congrArg List.reverse (subtree_node h id)

theorem following_sublist (h : Forest doc kids) (ht : doc.parent top = none)
    (hid : doc.Within site.id top) : (site.following doc).Sublist (tree doc top) := by
  rw [following_eq h, ← List.map_append]
  refine nodes_sublist (List.Sublist.trans ?_ (h.subtree_later_sublist ht hid))
  refine List.Sublist.append_right ?_ _
  split
  · exact List.sublist_cons_self _ _
  · exact List.nil_sublist _

theorem followingSiblings_sublist (h : Forest doc kids) (ht : doc.parent top = none)
    (hid : doc.Within site.id top) : (site.followingSiblings doc).Sublist (tree doc top) := by
  rw [followingSiblings_eq h]
  split
  · exact List.nil_sublist _
  · refine nodes_sublist ?_
    cases hp : doc.parent site.id with
    | none =>
      rw [(h.follow_orphan hp).1]
      exact List.nil_sublist _
    | some parent =>
      obtain ⟨before, after, hk⟩ := h.exists_split hp
      have hparent := within_top_of_within ht hid (.single hp)
      rw [h.follow_next hk]
      have hafter : after.Sublist (kids parent) := by
        rw [hk]
        exact (List.sublist_cons_self _ _).trans (List.sublist_append_right _ _)
      exact hafter.trans (h.kids_sublist_top hparent)

theorem mem_ancestorsOrSelf (h : Forest doc kids) {above : NodeId} :
    node above ∈ site :: site.ancestors doc ↔ doc.Within site.id above := by
  obtain ⟨id, index⟩ := site
  obtain ⟨rest, hrest⟩ := h.exists_ancestors id
  rw [← h.mem_ancestors, hrest]
  cases index <;> simp [ancestors, hrest, node]

/-- A path from the top down to a site: the nodes above it come first. -/
theorem ancestorsOrSelf_sublist (h : Forest doc kids) (ht : doc.parent top = none)
    (hs : site ∈ tree doc top) :
    (site :: site.ancestors doc).reverse.Sublist (tree doc top) := by
  obtain ⟨hid, hindex⟩ := (mem_tree h).mp hs
  obtain ⟨front, hsubtree, hfront⟩ := h.exists_front ht hid
  obtain ⟨above, ha⟩ := h.exists_ancestors site.id
  have habove := (hfront.above.map node).trans (map_node_sublist doc front)
  rw [ha, List.drop_one, List.tail_cons, List.map_reverse] at habove
  have htree : tree doc top = (front.flatMap fun id => node id :: (node id).attributes doc) ++
      (node site.id :: (node site.id).attributes doc ++
        (doc.descendants site.id ++ doc.later site.id).flatMap fun id =>
          node id :: (node id).attributes doc) := by
    rw [tree, hsubtree, List.flatMap_append, Document.subtree, List.cons_append, List.flatMap_cons]
  obtain ⟨id, index⟩ := site
  have hpath : (⟨id, index⟩ :: ancestors doc ⟨id, index⟩).reverse =
      (above.map node).reverse ++ (if index.isSome then [node id, ⟨id, index⟩] else [node id]) := by
    cases index <;> simp [ancestors, ha, node]
  rw [hpath, htree]
  refine habove.append (List.Sublist.trans ?_ (List.sublist_append_left _ _))
  cases index with
  | none => exact (List.nil_sublist _).cons_cons _
  | some i =>
    exact (List.singleton_sublist.mpr (mem_attributes.mpr ⟨i, hindex i rfl, rfl⟩)).cons_cons _

theorem precedingSiblings_sublist (h : Forest doc kids) (ht : doc.parent top = none)
    (hid : doc.Within site.id top) :
    (site.precedingSiblings doc).reverse.Sublist (tree doc top) := by
  rw [precedingSiblings_eq h]
  split
  · exact List.nil_sublist _
  · rw [← List.map_reverse]
    refine nodes_sublist ?_
    cases hp : doc.parent site.id with
    | none =>
      rw [(h.follow_orphan hp).2]
      exact List.nil_sublist _
    | some parent =>
      obtain ⟨before, after, hk⟩ := h.exists_split hp
      have hparent := within_top_of_within ht hid (.single hp)
      rw [h.follow_previous hk, List.reverse_reverse]
      have hbefore : before.Sublist (kids parent) := hk ▸ List.sublist_append_left _ _
      exact hbefore.trans (h.kids_sublist_top hparent)

theorem preceding_sublist (h : Forest doc kids) (ht : doc.parent top = none)
    (hid : doc.Within site.id top) : (site.preceding doc).reverse.Sublist (tree doc top) := by
  obtain ⟨front, hsubtree, hfront⟩ := h.exists_front ht hid
  rw [preceding_eq h, ← List.map_reverse]
  refine nodes_sublist ?_
  rw [hsubtree]
  exact hfront.earlier.trans (List.sublist_append_left _ _)

end Site

variable {doc : Document} {kids : NodeId → List NodeId} {site : Site} {top : NodeId}

/-- A forward axis lists sites in the order of their tree. -/
theorem sites_sublist (h : Forest doc kids) (ht : doc.parent top = none) {axis : Axis}
    (ha : axis.isReverse = false) (hs : site ∈ Site.tree doc top) :
    (axis.sites doc site).Sublist (Site.tree doc top) := by
  obtain ⟨hid, -⟩ := (Site.mem_tree h).mp hs
  cases axis with
  | child =>
    rw [Axis.sites, Site.children]
    split
    · exact List.nil_sublist _
    · rw [h.children_eq]
      exact Site.nodes_sublist (h.kids_sublist_top hid)
  | descendant => exact Site.descendants_sublist h hid
  | descendantOrSelf =>
    obtain ⟨id, index⟩ := site
    cases index with
    | none =>
      change ((Site.node id).subtree doc).Sublist _
      rw [Site.subtree_node h]
      exact Site.nodes_sublist (h.subtree_sublist hid)
    | some i =>
      rw [Axis.sites, Site.subtree, Site.descendants_of_attribute]
      exact List.singleton_sublist.mpr hs
  -- attributes stand right behind their element in the tree
  | «attribute» =>
    rw [Axis.sites, Site.attributes]
    split
    · exact List.nil_sublist _
    · exact Site.attributes_sublist h hid
  | parent =>
    rw [Axis.sites, Site.parent?]
    split
    · exact List.singleton_sublist.mpr (Site.node_mem_tree h hid)
    · cases hp : doc.parent site.id with
      | none => exact List.nil_sublist _
      | some parent =>
        exact List.singleton_sublist.mpr
          (Site.node_mem_tree h (within_top_of_within ht hid (.single hp)))
  | self => exact List.singleton_sublist.mpr hs
  | followingSibling => exact Site.followingSiblings_sublist h ht hid
  | following => exact Site.following_sublist h ht hid
  | _ => simp [Axis.isReverse] at ha

/-- A reverse axis lists sites against the order of their tree. -/
theorem sites_reverse_sublist (h : Forest doc kids) (ht : doc.parent top = none) {axis : Axis}
    (ha : axis.isReverse = true) (hs : site ∈ Site.tree doc top) :
    (axis.sites doc site).reverse.Sublist (Site.tree doc top) := by
  obtain ⟨hid, -⟩ := (Site.mem_tree h).mp hs
  have hpath := Site.ancestorsOrSelf_sublist h ht hs
  cases axis with
  | ancestor => exact (List.sublist_cons_self _ _).reverse.trans hpath
  | ancestorOrSelf => exact hpath
  | precedingSibling => exact Site.precedingSiblings_sublist h ht hid
  | preceding => exact Site.preceding_sublist h ht hid
  | _ => simp [Axis.isReverse] at ha

/-- Every axis leads from sites of a tree to sites of the same tree. -/
theorem sites_subset (h : Forest doc kids) (ht : doc.parent top = none) (axis : Axis)
    (hs : site ∈ Site.tree doc top) : axis.sites doc site ⊆ Site.tree doc top := by
  cases ha : axis.isReverse with
  | false => exact (sites_sublist h ht ha hs).subset
  | true =>
    exact fun other ho => (sites_reverse_sublist h ht ha hs).subset (List.mem_reverse.mpr ho)

end MarkupQuery.Query
