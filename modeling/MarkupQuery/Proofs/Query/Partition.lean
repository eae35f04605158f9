import MarkupQuery.Proofs.Query.Axes
import MarkupQuery.Proofs.Tree.Reachable
import Mathlib.Data.List.Pairwise

namespace MarkupQuery.Query

open MarkupQuery.Tree MarkupQuery.Tree.Document

/-- In parts that share no member, nothing that is in one of them is in another. -/
theorem exists_part_of_nodup {α β : Type} [DecidableEq β] {parts : List α} {members : α → List β}
    {b : β} (hn : (parts.flatMap members).Nodup) (hb : b ∈ parts.flatMap members) :
    ∃ part ∈ parts, (members part).count b = 1 ∧
      ∀ other ∈ parts, other ≠ part → b ∉ members other := by
  obtain ⟨hparts, hdisjoint⟩ := List.nodup_flatMap.mp hn
  obtain ⟨part, hpart, hmem⟩ := List.mem_flatMap.mp hb
  refine ⟨part, hpart, List.count_eq_one_of_mem (hparts part hpart) hmem, ?_⟩
  intro other hother hne ho
  have : Std.Symm (Function.onFun List.Disjoint members) := ⟨fun _ _ h x hx hy => h hy hx⟩
  exact hdisjoint.forall hother hpart hne ho hmem

namespace Site

/-- The axes that share out the attached nodes. An attribute is no node itself, and nothing is below
it. -/
def covering (site : Site) : List Axis :=
  if site.index.isSome then [.ancestor, .preceding, .following]
  else [.self, .ancestor, .descendant, .preceding, .following]

variable {doc : Document} {kids : NodeId → List NodeId} {site : Site}

/-- What the covering axes list is what a walk of the whole document visits. -/
theorem covering_perm (h : Forest doc kids) (hid : doc.Within site.id root) :
    (site.covering.flatMap fun axis => axis.sites doc site).Perm ((doc.subtree root).map node) := by
  obtain ⟨front, hsubtree, hfront⟩ := h.exists_front h.parent_root hid
  obtain ⟨above, ha⟩ := h.exists_ancestors site.id
  have hperm := hfront.perm.count_eq
  rw [ha, List.drop_one, List.tail_cons] at hperm
  obtain ⟨id, index⟩ := site
  have hlisted : ((covering ⟨id, index⟩).flatMap fun axis => axis.sites doc ⟨id, index⟩) =
      ((if index.isSome then id :: above ++ doc.earlier id ++ (doc.descendants id ++ doc.later id)
        else id :: above ++ doc.descendants id ++ (doc.earlier id ++ doc.later id))).map node := by
    cases index with
    | none =>
      simp [covering, Axis.sites, descendants_eq h, preceding_eq h, following_eq h, ancestors, ha,
        node]
    | some i =>
      simp [covering, Axis.sites, preceding_eq h, following_eq h, ancestors, ha]
  rw [hlisted, hsubtree, Document.subtree]
  refine List.Perm.map node (List.perm_iff_count.mpr fun x => ?_)
  have hx := hperm x
  split <;> simp only [List.count_append, List.count_cons] at hx ⊢ <;> omega

end Site

variable {source : Ranked} {site : Site}

/-- From any attached site of a reachable document, each attached node is on exactly one of the
covering axes and is listed there once. Forward axes are strictly increasing in document order and
reverse axes are strictly decreasing. -/
theorem axes_partition (hd : source.document.Reachable) (hs : site ∈ Site.all source.document) :
    (∀ other ∈ Site.all source.document, other.index = none →
      ∃ axis ∈ site.covering, (axis.sites source.document site).count other = 1 ∧
        ∀ another ∈ site.covering, another ≠ axis → other ∉ another.sites source.document site) ∧
    (∀ axis ∈ [Axis.child, .descendant, .descendantOrSelf, .attribute, .followingSibling,
        .following], (axis.sites source.document site).Pairwise source.Precedes) ∧
    ∀ axis ∈ [Axis.ancestor, .ancestorOrSelf, .precedingSibling, .preceding],
      (axis.sites source.document site).Pairwise fun a b => source.Precedes b a := by
  have h := hd.forest
  obtain ⟨hid, -⟩ := (Site.mem_all h).mp hs
  have horder : source.InOrder (Site.all source.document) := Site.inOrder_all h
  refine ⟨fun other ho hindex => ?_, fun axis haxis => ?_, fun axis haxis => ?_⟩
  · have hperm := Site.covering_perm h hid
    have hinj : Function.Injective Site.node := fun _ _ he => congrArg Site.id he
    have hother : other ∈ (source.document.subtree root).map Site.node := by
      obtain ⟨id, index⟩ := other
      obtain rfl : index = none := hindex
      exact List.mem_map_of_mem (h.mem_subtree.mpr ((Site.mem_all h).mp ho).1)
    exact exists_part_of_nodup (hperm.nodup_iff.mpr ((h.nodup_subtree root).map hinj))
      (hperm.mem_iff.mpr hother)
  · have hforward : axis.isReverse = false := by
      revert axis
      decide
    exact horder.sublist (sites_sublist h h.parent_root hforward hs)
  · have hreverse : axis.isReverse = true := by
      revert axis
      decide
    exact List.pairwise_reverse.mp
      (horder.sublist (sites_reverse_sublist h h.parent_root hreverse hs))

def movedAmong : Document :=
  (Change.setAttribute 3 "x" "1").apply ((Change.insertBefore 2 3).apply
    ((Change.append 1 3).apply ((Change.append 1 2).apply ((Change.append 0 1).apply
      ((Change.create (.element { name := "c" })).apply
        ((Change.create (.element { name := "b" })).apply
          ((Change.create (.element { name := "a" })).apply .empty)))))))

theorem reachable_movedAmong : movedAmong.Reachable := by
  refine .change_alone _ ?_ (by simp)
  refine .change_alone _ ?_ (by simp)
  refine .change_alone _ ?_ (by simp)
  refine .change_alone _ ?_ (by simp)
  refine .change_alone _ ?_ (by simp)
  refine .change_alone _ ?_ (by simp)
  refine .change_alone _ ?_ (by simp)
  exact .change_alone _ .empty (by simp)

/-- From the attribute of the element that was moved, its sibling comes after it. -/
theorem axes_partition_movedAmong :
    movedAmong.Reachable ∧ ⟨3, some 0⟩ ∈ Site.all movedAmong ∧ Site.node 2 ∈ Site.all movedAmong ∧
    (∃ axis ∈ [Axis.ancestor, .preceding, .following],
      (axis.sites movedAmong ⟨3, some 0⟩).count (.node 2) = 1 ∧
        ∀ another ∈ [Axis.ancestor, .preceding, .following], another ≠ axis →
          .node 2 ∉ another.sites movedAmong ⟨3, some 0⟩) ∧
    (Axis.ancestor.sites movedAmong ⟨3, some 0⟩).Pairwise fun a b =>
      (Ranked.of movedAmong).Precedes b a := by
  have hsite : ⟨3, some 0⟩ ∈ Site.all (Ranked.of movedAmong).document := by decide +kernel
  have hother : Site.node 2 ∈ Site.all (Ranked.of movedAmong).document := by decide +kernel
  obtain ⟨hpart, -, hreverse⟩ := axes_partition reachable_movedAmong hsite
  exact ⟨reachable_movedAmong, hsite, hother, hpart _ hother rfl, hreverse _ (by decide)⟩

end MarkupQuery.Query
