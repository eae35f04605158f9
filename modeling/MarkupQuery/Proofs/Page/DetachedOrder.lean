import MarkupQuery.Proofs.Page.Agreement
import MarkupQuery.Proofs.Page.Reachable
import MarkupQuery.Proofs.Page.Runs
import MarkupQuery.Proofs.Query.Decisions
import MarkupQuery.Proofs.Query.NodeSets

namespace MarkupQuery.Query

open MarkupQuery.Tree MarkupQuery.Tree.Document

variable {source : Ranked} {kids : NodeId → List NodeId} {top : NodeId}

/-- A tree of its own has no node in common with the document. -/
theorem not_within_root (h : Forest source.document kids)
    (hn : source.document.isAttached top = false) {id : NodeId}
    (hid : source.document.Within id top) : ¬ source.document.Within id root := by
  intro hroot
  have htop := within_top_of_within h.parent_root hroot hid
  rw [← h.isAttached_iff, hn] at htop
  exact absurd htop (by simp)

theorem rank_detached (h : Forest source.document kids) {id : NodeId}
    (hid : ¬ source.document.Within id root) : source.rank id = Document.detachedRank := by
  rw [Ranked.rank_eq]
  exact rank_of_not_mem (mt h.mem_subtree.mp hid)

/-- Nodes that are not attached are compared by their ids. -/
theorem precedes_detached (h : Forest source.document kids) {a b : NodeId}
    (ha : ¬ source.document.Within a root) (hb : ¬ source.document.Within b root) :
    source.Precedes (.node a) (.node b) ↔ a < b := by
  rw [Ranked.precedes_iff]
  simp [Site.node, rank_detached h ha, rank_detached h hb, indexBefore]

/-- A tree whose ids increase along a walk is in order, behind all attached sites. -/
theorem closed_beside (h : Forest source.document kids) (hf : source.document.Fits)
    (ht : source.document.parent top = none) (hn : source.document.isAttached top = false)
    (hp : (source.document.subtree top).Pairwise (· < ·)) :
    source.Closed (Site.all source.document ++ Site.tree source.document top) where
  inOrder := by
    have hdetached : ∀ id ∈ source.document.subtree top, ¬ source.document.Within id root :=
      fun id hid => not_within_root h hn (h.mem_subtree.mp hid)
    have htree : source.InOrder (Site.tree source.document top) :=
      Site.inOrder_tree (hp.imp_of_mem fun ha hb hab =>
        (precedes_detached h (hdetached _ ha) (hdetached _ hb)).mpr hab)
    refine List.pairwise_append.mpr ⟨Site.inOrder_all h, htree, fun a ha b hb => ?_⟩
    have hb := ((Site.mem_tree h).mp hb).1
    have hrank := rank_detached h (not_within_root h hn hb)
    have hlt := h.rank_lt hf (h.mem_subtree.mpr ((Site.mem_all h).mp ha).1)
    rw [Ranked.precedes_iff, hrank, Ranked.rank_eq]
    exact .inl hlt
  sublist := by
    intro axis ha site hs
    rcases List.mem_append.mp hs with hs | hs
    · exact (sites_sublist h h.parent_root ha hs).trans (List.sublist_append_left _ _)
    · exact (sites_sublist h ht ha hs).trans (List.sublist_append_right _ _)
  subset := by
    intro axis site hs
    rcases List.mem_append.mp hs with hs | hs
    · exact List.subset_append_of_subset_left _ (sites_subset h h.parent_root axis hs)
    · exact List.subset_append_of_subset_right _ (sites_subset h ht axis hs)
  document := List.mem_append_left _ (Site.node_mem_all h .refl)

/-- What is left of two lists and is in the second one only is left of that. -/
theorem sublist_of_disjoint {found first second : List Site}
    (h : found.Sublist (first ++ second)) (hs : found ⊆ second) (hd : first.Disjoint second) :
    found.Sublist second := by
  obtain ⟨left, right, rfl, hleft, hright⟩ := List.sublist_append_iff.mp h
  have hnil : left = [] := List.eq_nil_iff_forall_not_mem.mpr fun site hsite =>
    hd (hleft.subset hsite) (hs (List.mem_append_left _ hsite))
  rw [hnil, List.nil_append]
  exact hright

/-- All nodes that are above or below the same nodes as the context, sorted. -/
def wholeTree : String := "ancestor-or-self::node()//.|."

theorem parse_wholeTree : parse wholeTree =
    .ok (unionOf (.relative [.mk .ancestorOrSelf (.type .node) [], Step.anywhereBelow, Step.here])
      ([[Step.here]].map .relative)) := rfl

theorem select_wholeTree (s : Setting) (site : Site) :
    ∃ found, select s site wholeTree = .ok found ∧ s.source.InOrder found ∧
      ∀ other, other ∈ found ↔ other = site ∨
        ∃ above ∈ Axis.ancestorOrSelf.sites s.source.document site,
          other ∈ above.subtree s.source.document := by
  obtain ⟨above, habove, hmemAbove⟩ := takeStep_node s .ancestorOrSelf [site]
  obtain ⟨below, hbelow, hmemBelow⟩ := takeStep_node s .descendantOrSelf above
  obtain ⟨same, hsame, hmemSame⟩ := takeStep_node s .self below
  refine ⟨s.source.ordered (same ++ [site]), ?_, Ranked.inOrder_ordered _ _, fun other => ?_⟩
  · refine select_eq_ok.mpr ⟨_, parse_wholeTree, rfl, ?_⟩
    have hsteps : takeSteps s [.mk .ancestorOrSelf (.type .node) [], Step.anywhereBelow, Step.here]
        [site] = .ok same := by
      rw [takeSteps_cons, habove]
      change takeSteps s [Step.anywhereBelow, Step.here] above = _
      rw [takeSteps_cons, Step.anywhereBelow, hbelow]
      change takeSteps s [Step.here] below = _
      rw [takeSteps_cons, Step.here, hsame]
      exact takeSteps_nil s same
    have hhere : takeSteps s [Step.here] [site] = .ok [site] := by
      rw [takeSteps_cons, takeStep_here]
      exact takeSteps_nil s [site]
    change evaluate s { site } (.binary .union _ _) = _
    rw [evaluate, evaluate, hsteps, evaluate, hhere]
    rfl
  · rw [Ranked.mem_ordered, List.mem_append, hmemSame]
    simp only [Axis.sites, List.mem_singleton] at hmemAbove hmemBelow ⊢
    simp only [hmemBelow, hmemAbove]
    -- up to a node above, down from there, and the context itself besides
    constructor
    · rintro (⟨_, ⟨a, ⟨_, rfl, ha⟩, hb⟩, rfl⟩ | rfl)
      · exact .inr ⟨a, ha, hb⟩
      · exact .inl rfl
    · rintro (rfl | ⟨a, ha, hb⟩)
      · exact .inr rfl
      · exact .inl ⟨other, ⟨a, ⟨site, rfl, ha⟩, hb⟩, rfl⟩

end MarkupQuery.Query

namespace MarkupQuery.Page

open MarkupQuery.Query
open MarkupQuery.Tree (Document NodeId Forest)

variable {page : Page} {site : Site} {top : NodeId} {query : String}

/-- A query is evaluated at its context or, behind the address of the context, at the document
node. -/
theorem start_of_scopedQuery {text : String} {start : Site}
    (h : page.scopedQuery query (some site) = .ok (text, start)) :
    start = site ∨ start = .document := by
  simp only [scopedQuery] at h
  split at h
  · exact .inr (Prod.mk.inj (Except.ok.inj h)).2.symm
  split at h
  · exact .inl (Prod.mk.inj (Except.ok.inj h)).2.symm
  split at h
  · obtain ⟨path, -, h⟩ := bind_eq_ok.mp h
    exact .inr (Prod.mk.inj (Except.ok.inj h)).2.symm
  · exact .inl (Prod.mk.inj (Except.ok.inj h)).2.symm

/-- A node of a tree of its own is no document node, unless it does not exist. -/
theorem kind_detached (hpage : page.Reachable) (hs : site ∈ Site.tree page.document top)
    (ht : page.document.parent top = none) (hn : page.document.isAttached top = false)
    (hk : site.kind page.document = .root) : page.document.subtree top = [top] := by
  have h := hpage.sound.document.forest
  obtain ⟨id, index⟩ := site
  have hpayload : page.document.payload id = .document := by
    cases index with
    | some i => simp [Site.kind] at hk
    | none =>
      simp only [Site.kind, Option.isSome_none, Bool.false_eq_true, if_false] at hk
      split at hk <;> simp_all
  have hid : id = top := by
    rcases Relation.ReflTransGen.cases_head ((Site.mem_tree h).mp hs).1 with he | ⟨x, hx, -⟩
    · exact he
    · simp [Document.ChildOf, h.document id hpayload] at hx
  obtain rfl := hid
  by_cases hlt : id < page.document.size
  · have hroot := hpage.sound.document.loneRoot id hlt hpayload
    rw [hroot, ← Bool.not_eq_true, h.isAttached_iff] at hn
    exact absurd .refl hn
  · rw [h.subtree_eq, h.kids_of_size_le (Nat.le_of_not_lt hlt), List.flatMap_nil]

/-- The query for the whole tree finds all its nodes, sorted. -/
theorem execute_wholeTree (hpage : page.Reachable) (hs : site ∈ Site.tree page.document top)
    (ht : page.document.parent top = none) (hn : page.document.isAttached top = false)
    (hk : site.kind page.document ≠ .root) :
    ∃ found, page.execute wholeTree (some site) = .ok found ∧
      page.setting.source.InOrder found.sites ∧
      found.sites ⊆ Site.tree page.document top ∧
      (page.document.subtree top).map .node ⊆ found.sites := by
  have h := hpage.sound.document.forest
  have hid := ((Site.mem_tree h).mp hs).1
  have hdetached : page.document.isAttached site.id = false := by
    rw [← Bool.not_eq_true, h.isAttached_iff]
    exact @not_within_root page.setting.source _ _ h hn _ hid
  obtain ⟨sites, hselect, horder, hmem⟩ := select_wholeTree page.setting site
  have hscoped : page.scopedQuery wholeTree (some site) = .ok (scope "." wholeTree, site) := by
    have hcalls : callsFirst wholeTree = false := by decide +kernel
    have hkind : (site.kind page.document == .root) = false := by simpa using hk
    simp [scopedQuery, hkind, hcalls, hdetached]
  have hfound : page.execute wholeTree (some site) = .ok ⟨page.serial, sites⟩ := by
    have hsame : (select page.setting site (scope "." wholeTree)).toOption =
        (select page.setting site wholeTree).toOption :=
      select_scope heads_point (fun _ _ hb => agree_point _ _ hb) parse_wholeTree (by decide +kernel)
    have hoption := toOption_execute hscoped
    rw [hsame, hselect] at hoption
    exact toOption_eq_some.mp hoption
  refine ⟨_, hfound, horder, fun other ho => ?_, fun other ho => ?_⟩
  · rcases (hmem other).mp ho with rfl | ⟨above, habove, hbelow⟩
    · exact hs
    · exact sites_subset h ht .descendantOrSelf (sites_subset h ht .ancestorOrSelf hs habove) hbelow
  · obtain ⟨id, hid', rfl⟩ := List.mem_map.mp ho
    refine (hmem _).mpr (.inr ⟨_, (Site.mem_ancestorsOrSelf h).mpr hid, ?_⟩)
    change Site.node id ∈ (Site.node top).subtree page.document
    rw [Site.subtree_node h]
    exact List.mem_map_of_mem hid'

/-- At a context in a tree of its own, every query that finds nothing outside of the tree finds what
it finds in the order of the tree, exactly if the ids of the nodes increase along a walk of it. -/
theorem detached_in_tree_order_iff (hpage : page.Reachable)
    (hs : site ∈ Site.tree page.document top) (ht : page.document.parent top = none)
    (hn : page.document.isAttached top = false) :
    (∀ query found, page.execute query (some site) = .ok found →
      found.sites ⊆ Site.tree page.document top →
        found.sites.Sublist (Site.tree page.document top)) ↔
      (page.document.subtree top).Pairwise (· < ·) := by
  have h := hpage.sound.document.forest
  have hdetached : ∀ id ∈ page.document.subtree top, ¬ page.document.Within id Document.root :=
    fun id hid => @not_within_root page.setting.source _ _ h hn _ (h.mem_subtree.mp hid)
  constructor
  · intro hsorted
    by_cases hk : site.kind page.document = .root
    · rw [kind_detached hpage hs ht hn hk]
      exact List.pairwise_singleton _ _
    obtain ⟨found, hfound, horder, hsubset, hall⟩ := execute_wholeTree hpage hs ht hn hk
    have hsublist := hsorted _ _ hfound hsubset
    -- the nodes of the tree are left when the attributes are dropped from what is found
    have hnodes : (page.document.subtree top).map Site.node =
        found.sites.filter fun other => other.index.isNone := by
      have hinj : Function.Injective Site.node := fun _ _ he => congrArg Site.id he
      have hleft := hsublist.filter fun other => other.index.isNone
      rw [Site.filter_tree] at hleft
      refine (hleft.eq_of_length_le (List.Subperm.length_le ?_)).symm
      refine ((h.nodup_subtree top).map hinj).subperm fun other ho => ?_
      obtain ⟨id, -, rfl⟩ := List.mem_map.mp ho
      exact List.mem_filter.mpr ⟨hall ho, rfl⟩
    have hpairs : page.setting.source.InOrder ((page.document.subtree top).map Site.node) :=
      hnodes ▸ horder.sublist List.filter_sublist
    exact (List.pairwise_map.mp hpairs).imp_of_mem fun ha hb hab =>
      (@precedes_detached page.setting.source _ h _ _ (hdetached _ ha) (hdetached _ hb)).mp hab
  · intro hp query found hfound hsubset
    obtain ⟨text, start, hscoped, hselect, -⟩ := execute_eq_ok.mp hfound
    obtain ⟨e, -, -, he⟩ := select_eq_ok.mp hselect
    have hclosed : page.setting.source.Closed _ := closed_beside h hpage.fits ht hn hp
    have hstart : start ∈ Site.all page.document ++ Site.tree page.document top := by
      rcases start_of_scopedQuery hscoped with rfl | rfl
      · exact List.mem_append_right _ hs
      · exact hclosed.document
    refine sublist_of_disjoint (hclosed.evaluate_sublist rfl hstart he) hsubset fun other ha hb => ?_
    exact hdetached _ (h.mem_subtree.mpr ((Site.mem_tree h).mp hb).1) ((Site.mem_all h).mp ha).1

def removedPage : Page :=
  (Edit.remove (.node ⟨0, .node 2⟩)).apply (.ofMarkup "<r><a k='1'><b/><c/></a></r>")

theorem reachable_removedPage : removedPage.Reachable := by
  have hfits : (Page.ofMarkup "<r><a k='1'><b/><c/></a></r>").document.size ≤ 0xFFFFFFFF ∧
      removedPage.document.size ≤ 0xFFFFFFFF := by decide +kernel
  exact .edit (.parse (parse_ofMarkup (by decide +kernel)) hfits.1) _ (by simp [Edit.sources])
    hfits.2

/-- The tree still has the ids of its nodes in the order of the markup. -/
theorem detached_in_tree_order_removedPage : removedPage.Reachable ∧
    Site.node 2 ∈ Site.tree removedPage.document 2 ∧ removedPage.document.parent 2 = none ∧
    removedPage.document.isAttached 2 = false ∧
    removedPage.execute "*|@k|." (some (.node 2)) =
      .ok ⟨0, [.node 2, ⟨2, some 0⟩, .node 3, .node 4]⟩ ∧
    [Site.node 2, ⟨2, some 0⟩, .node 3, .node 4].Sublist (Site.tree removedPage.document 2) := by
  have hvalues : Site.node 2 ∈ Site.tree removedPage.document 2 ∧
      removedPage.document.parent 2 = none ∧ removedPage.document.isAttached 2 = false ∧
      (removedPage.document.subtree 2).Pairwise (· < ·) := by decide +kernel
  obtain ⟨hs, ht, hn, hp⟩ := hvalues
  have hfound : removedPage.execute "*|@k|." (some (.node 2)) =
      .ok ⟨0, [.node 2, ⟨2, some 0⟩, .node 3, .node 4]⟩ := by decide +kernel
  exact ⟨reachable_removedPage, hs, ht, hn, hfound,
    (detached_in_tree_order_iff reachable_removedPage hs ht hn).mpr hp _ _ hfound
      (by decide +kernel)⟩

def reorderedPage : Page :=
  (Edit.remove (.node ⟨0, .node 2⟩)).apply
    ((Edit.prepend (.node ⟨0, .node 4⟩) (.node ⟨0, .node 2⟩)).apply
      (.ofMarkup "<r><a><b/><c/></a></r>"))

theorem reachable_reorderedPage : reorderedPage.Reachable := by
  have hfits : (Page.ofMarkup "<r><a><b/><c/></a></r>").document.size ≤ 0xFFFFFFFF ∧
      ((Edit.prepend (.node ⟨0, .node 4⟩) (.node ⟨0, .node 2⟩)).apply
        (.ofMarkup "<r><a><b/><c/></a></r>")).document.size ≤ 0xFFFFFFFF ∧
      reorderedPage.document.size ≤ 0xFFFFFFFF := by decide +kernel
  obtain ⟨hparsed, hmoved, hremoved⟩ := hfits
  exact .edit (.edit (.parse (parse_ofMarkup (by decide +kernel)) hparsed) _
    (by simp [Edit.sources, Content.sources, Context.sources]) hmoved) _ (by simp [Edit.sources])
    hremoved

/-- The child that was moved is still found behind the older one. -/
theorem detached_found_by_age : reorderedPage.Reachable ∧
    reorderedPage.document.isAttached 2 = false ∧
    Site.tree reorderedPage.document 2 = [.node 2, .node 4, .node 3] ∧
    reorderedPage.execute ".//*" (some (.node 2)) = .ok ⟨0, [.node 3, .node 4]⟩ ∧
    ¬ [Site.node 3, .node 4].Sublist (Site.tree reorderedPage.document 2) := by
  have hvalues : reorderedPage.document.isAttached 2 = false ∧
      Site.tree reorderedPage.document 2 = [.node 2, .node 4, .node 3] := by decide +kernel
  have hfound : reorderedPage.execute ".//*" (some (.node 2)) = .ok ⟨0, [.node 3, .node 4]⟩ := by
    decide +kernel
  refine ⟨reachable_reorderedPage, hvalues.1, hvalues.2, hfound, ?_⟩
  rw [hvalues.2]
  decide

end MarkupQuery.Page
