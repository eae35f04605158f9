import MarkupQuery.Proofs.Page.RootElements
import MarkupQuery.Proofs.Tree.Pruning

namespace MarkupQuery

open MarkupQuery.Query (Site)
open MarkupQuery.Tree MarkupQuery.Tree.Document

namespace Tree.Forest

variable {doc new : Document} {old child id : NodeId} (h : Forest doc doc.children)
  (ho : doc.replace old child = .ok new) (hne : old ≠ child)
include h ho hne

/-- What was below the moved node still is. -/
theorem within_replace (hw : doc.Within id child) : new.Within id child := by
  obtain ⟨parent, hp, hparent, -⟩ := h.moved_replace ho hne
  obtain ⟨moved, hmoved, -⟩ := replace_eq_ok ho hne
  obtain ⟨parent', hp', hcheck, -⟩ := insertBefore_eq_ok hmoved hne
  obtain rfl := Option.some.inj (hp.symm.trans hp')
  obtain ⟨-, -, -, -, habove⟩ := checkInsertion_ok hcheck
  induction hw using Relation.ReflTransGen.head_induction_on with
  | refl => exact .refl
  | @head a b hb hw ih =>
    by_cases ha : a = child
    · exact ha ▸ .refl
    · have hold : old ≠ a := by
        -- the replaced node is not below the moved one, or its parent would be there
        rintro rfl
        obtain rfl := Option.some.inj (hp.symm.trans hb)
        exact habove (h.mem_ancestors.mpr hw)
      refine .head ?_ ih
      rw [ChildOf, hparent, if_neg ha, if_neg hold]
      exact hb

theorem not_within_replace : ¬ new.Within old child := by
  obtain ⟨_, -, hparent, -⟩ := h.moved_replace ho hne
  intro hw
  rcases Relation.ReflTransGen.cases_head hw with he | ⟨b, hb, -⟩
  · exact hne he
  · simp [ChildOf, hparent, hne] at hb

/-- A node that is not moved stays in the tree unless it is below the replaced one. -/
theorem isAttached_replace (hid : ¬ new.Within id child) :
    new.isAttached id ↔ doc.isAttached id ∧ ¬ doc.Within id old := by
  obtain ⟨parent, hp, hparent, -⟩ := h.moved_replace ho hne
  obtain ⟨_, hnew⟩ := h.exists_replace ho
  have hroot : old ≠ root := by
    rintro rfl
    simp [h.parent_root] at hp
  have hchild : ∀ a, ¬ doc.Within a child → a ≠ child := by
    rintro a ha rfl
    exact ha .refl
  have hcut : new.Within id root ↔
      doc.Within id root ∧ ∀ above, doc.Within id above → above = old → above = root :=
    within_top_iff_of_cut (fun a => ¬ doc.Within a child) (· = old) h.parent_root
      (fun a b ha hb hw => ha (.head hb hw))
      (fun a ha hold => by rw [hparent, if_neg (hchild a ha), if_pos hold.symm])
      (fun a ha hold => by rw [hparent, if_neg (hchild a ha), if_neg (Ne.symm hold)])
      (fun hw => hid (h.within_replace ho hne hw))
  rw [hnew.isAttached_iff, h.isAttached_iff, hcut]
  refine and_congr_right fun _ => ⟨fun hnone hw => hroot (hnone old hw rfl), ?_⟩
  rintro hnot above hw rfl
  exact absurd hw hnot

end Tree.Forest

/-- A site is at a node or above it. Nothing is below an attribute. -/
def Query.Site.Covers (doc : Document) (site : Site) (id : NodeId) : Prop :=
  site.index = none ∧ doc.Within id site.id

namespace Page

variable {page later : Page} {context : Context} {c : Content} {new : Handle}

/-- A replacement that succeeds finds its context and then its content. -/
theorem run_replace_eq_ok (ho : StateT.run (replace context c) page = (.ok new, later)) :
    ∃ old middle found document, StateT.run (target context) page = (.ok old, middle) ∧
      StateT.run (content c) middle = (.ok new.site.id, found) ∧
      found.document.replace old.site.id new.site.id = .ok document ∧
      later = { found with document } := by
  obtain ⟨old, middle, htarget, ho⟩ := Action.run_bind_eq_ok.mp ho
  obtain ⟨id, found, hcontent, ho⟩ := Action.run_bind_eq_ok.mp ho
  obtain ⟨document, hreplace, hlater⟩ := run_place_eq_ok ho
  obtain ⟨_, _, -, hlast⟩ := Action.run_bind_eq_ok.mp ho
  cases hlast
  exact ⟨old, middle, found, document, htarget, hcontent, hreplace, hlater⟩

/-- A replacement takes out what is below the node that it finds for its context, unless the content is
that node. -/
theorem Sound.isAttached_replace (hp : page.Sound) (hcontext : ∀ source ∈ context.sources, source.Sound)
    (hcontent : ∀ source ∈ c.sources, source.Sound)
    (ho : StateT.run (replace context c) page = (.ok new, later)) :
    ∃ old middle, StateT.run (target context) page = (.ok old, middle) ∧
      (old.site.id ≠ new.site.id → ¬ later.document.Within old.site.id new.site.id) ∧
      ∀ id, page.document.isAttached id → ¬ later.document.Within id new.site.id →
        (later.document.isAttached id ↔
          old.site.id = new.site.id ∨ ¬ page.document.Within id old.site.id) := by
  obtain ⟨old, middle, found, document, htarget, hread, hreplace, rfl⟩ := run_replace_eq_ok ho
  have hmiddle := (keeps_target hcontext).sound_later hp htarget
  have hfound := (keeps_content hcontent).sound_later hmiddle hread
  have hfind : StateT.run (Part.content c).find middle = (.ok new.site.id, found) := hread
  have hsources : ∀ source ∈ (Part.content c).sources, source.Sound := hcontent
  have hextended : Extended page.document found.document :=
    (enlarged_of_finds (htarget ▸ finds_target hp hcontext)).document.trans
      (enlarged_find hmiddle hsources hfind).document
  have hd := hp.document.forest
  have hn := hfound.document.forest
  have hlt : ∀ id, page.document.isAttached id → id < page.document.size := fun id hid =>
    hd.subtree_lt hd.root_lt (hd.mem_subtree.mpr (hd.isAttached_iff.mp hid))
  have hwithin : ∀ id, id < page.document.size → ∀ above,
      (found.document.Within id above ↔ page.document.Within id above) := fun id hid above => by
    rw [← hn.mem_subtree, ← hd.mem_subtree, hextended.mem_subtree_iff hd hn hid]
  refine ⟨old, middle, htarget, fun hne => hn.not_within_replace hreplace hne, fun id hid hout => ?_⟩
  have hkept : found.document.isAttached id := by
    rw [hn.isAttached_iff, hwithin id (hlt id hid), ← hd.isAttached_iff]
    exact hid
  by_cases hne : old.site.id = new.site.id
  · rw [Document.replace, if_pos hne, Except.ok.injEq] at hreplace
    subst hreplace
    exact iff_of_true hkept (.inl hne)
  · rw [hn.isAttached_replace hreplace hne hout, hwithin id (hlt id hid)]
    simp [hkept, hne]

/-- A replacement that succeeds takes out the node that stands for its context, with all below it, and
nothing else. So apart from the content and what is below that it keeps whatever the context does not
cover exactly if the context is no attribute, or is one of an element that was not in the tree, or of
the content itself. -/
theorem Reachable.replace_keeps_iff (h : page.Reachable)
    (hcontext : ∀ source ∈ context.sources, source.Reachable)
    (hcontent : ∀ source ∈ c.sources, source.Reachable)
    (ho : StateT.run (replace context c) page = (.ok new, later)) :
    ∃ old middle, StateT.run (target context) page = (.ok old, middle) ∧
      (∀ id, page.document.isAttached id → ¬ later.document.Within id new.site.id →
        (later.document.isAttached id ↔
          old.site.id = new.site.id ∨ ¬ page.document.Within id old.site.id)) ∧
      ((∀ id, page.document.isAttached id → ¬ old.site.Covers page.document id →
          ¬ later.document.Within id new.site.id → later.document.isAttached id) ↔
        old.site.index = none ∨ ¬ page.document.isAttached old.site.id ∨
          old.site.id = new.site.id) := by
  obtain ⟨old, middle, htarget, hout, hkept⟩ := h.sound.isAttached_replace
    (fun source hm => (hcontext source hm).sound) (fun source hm => (hcontent source hm).sound) ho
  have hd := h.sound.document.forest
  refine ⟨old, middle, htarget, hkept, ⟨fun hall => ?_, ?_⟩⟩
  · -- an element of an attribute is itself taken out
    by_contra hnot
    obtain ⟨hindex, hattached, hne⟩ := by simpa only [not_or, not_not] using hnot
    have howner := hall old.site.id hattached (fun hcovers => hindex hcovers.1) (hout hne)
    rw [hkept _ hattached (hout hne)] at howner
    rcases howner with he | hw
    · exact hne he
    · exact hw .refl
  · rintro hcases id hid hcovers hnew
    rw [hkept id hid hnew]
    rcases hcases with hindex | hdetached | he
    · exact .inr fun hw => hcovers ⟨hindex, hw⟩
    · refine .inr fun hw => hdetached ?_
      exact hd.isAttached_iff.mpr (within_top_of_within hd.parent_root (hd.isAttached_iff.mp hid) hw)
    · exact .inl he

def keyedPage : Page := .ofMarkup "<r><a k='1'/><b/></r>"

def keyedReplaced : Page := (replace (.query "//b") (.markup "<x/>")).after keyedPage

theorem replace_keeps_iff_keyedReplaced : keyedPage.Reachable ∧
    StateT.run (replace (.query "//b") (.markup "<x/>")) keyedPage =
      (.ok ⟨0, .node 4⟩, keyedReplaced) ∧
    (∀ id, keyedPage.document.isAttached id → ¬ keyedReplaced.document.Within id 4 →
      (keyedReplaced.document.isAttached id ↔ ¬ keyedPage.document.Within id 3)) ∧
    keyedReplaced.text = "<r><a k=\"1\"></a><x></x></r>" := by
  have hvalues : (Page.parse 0 "<r><a k='1'/><b/></r>" {}).isOk = true ∧
      keyedPage.document.size ≤ 0xFFFFFFFF ∧
      (StateT.run (target (.query "//b")) keyedPage).1 = .ok ⟨0, .node 3⟩ ∧
      (StateT.run (replace (.query "//b") (.markup "<x/>")) keyedPage).1 = .ok ⟨0, .node 4⟩ ∧
      keyedReplaced.text = "<r><a k=\"1\"></a><x></x></r>" := by decide +kernel
  obtain ⟨hparse, hfits, htarget, hrun, htext⟩ := hvalues
  have hreachable : keyedPage.Reachable := .parse (parse_ofMarkup hparse) hfits
  obtain ⟨old, middle, hold, hkept, -⟩ := hreachable.replace_keeps_iff (by simp [Context.sources])
    (by simp [Content.sources]) (Action.run_eq_after hrun)
  rw [hold] at htarget
  obtain rfl := Except.ok.inj htarget
  refine ⟨hreachable, Action.run_eq_after hrun, fun id hid hout => (hkept id hid hout).trans ?_,
    htext⟩
  exact or_iff_right (by decide)

def keyReplaced : Page := (replace (.query "//@k") (.markup "<x/>")).after keyedPage

/-- The context is an attribute, and the element that has it goes. -/
theorem element_of_attribute_replaced :
    Page.parse 0 "<r><a k='1'/><b/></r>" {} = .ok keyedPage ∧
    StateT.run (target (.query "//@k")) keyedPage = (.ok ⟨0, ⟨2, some 0⟩⟩, keyedPage) ∧
    StateT.run (replace (.query "//@k") (.markup "<x/>")) keyedPage =
      (.ok ⟨0, .node 4⟩, keyReplaced) ∧
    keyReplaced.text = "<r><x></x><b></b></r>" ∧
    ¬ ∀ id, keyedPage.document.isAttached id →
      ¬ (⟨2, some 0⟩ : Site).Covers keyedPage.document id →
      ¬ keyReplaced.document.Within id 4 → keyReplaced.document.isAttached id := by
  have hvalues : (Page.parse 0 "<r><a k='1'/><b/></r>" {}).isOk = true ∧
      keyedPage.resolveOrRoot (.query "//@k") = .ok ⟨0, ⟨2, some 0⟩⟩ ∧
      (StateT.run (replace (.query "//@k") (.markup "<x/>")) keyedPage).1 = .ok ⟨0, .node 4⟩ ∧
      keyReplaced.text = "<r><x></x><b></b></r>" ∧ keyedPage.document.isAttached 2 = true ∧
      keyReplaced.document.parent 2 = none ∧ keyReplaced.document.isAttached 2 = false := by
    decide +kernel
  obtain ⟨hparse, htarget, hrun, htext, hbefore, htop, hafter⟩ := hvalues
  have hout : ¬ keyReplaced.document.Within 2 4 := by
    intro hw
    rcases Relation.ReflTransGen.cases_head hw with he | ⟨_, hparent, -⟩
    · simp at he
    · simp [ChildOf, htop] at hparent
  refine ⟨parse_ofMarkup hparse, Action.run_read_eq_ok.mpr ⟨htarget, rfl⟩, Action.run_eq_after hrun,
    htext, fun hall => ?_⟩
  have hstays := hall 2 hbefore (fun hcovers => by simp [Query.Site.Covers] at hcovers) hout
  simp [hafter] at hstays

end Page

end MarkupQuery
