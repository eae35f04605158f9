import MarkupQuery.Proofs.Query.Axes
import MarkupQuery.Proofs.Tree.Detach
import MarkupQuery.Proofs.Tree.Grafting

namespace MarkupQuery.Tree.Document

variable {doc new : Document} {id top : NodeId}

/-- The parents in `new` are those in `doc`, but for the nodes that were cut off and have none. This is
asked only of the nodes that are `kept`, and of all above them. -/
theorem within_top_iff_of_cut (kept cut : NodeId → Prop) (htop : doc.parent top = none)
    (habove : ∀ a b, kept a → doc.parent a = some b → kept b)
    (hcut : ∀ a, kept a → cut a → new.parent a = none)
    (hsame : ∀ a, kept a → ¬ cut a → new.parent a = doc.parent a) (hid : kept id) :
    new.Within id top ↔
      doc.Within id top ∧ ∀ above, doc.Within id above → cut above → above = top := by
  constructor
  · intro hw
    induction hw using Relation.ReflTransGen.head_induction_on with
    | refl =>
      refine ⟨.refl, fun above hw _ => ?_⟩
      rcases Relation.ReflTransGen.cases_head hw with he | ⟨b, hb, -⟩
      · exact he.symm
      · simp [ChildOf, htop] at hb
    | @head a b hb _ ih =>
      have hnot : ¬ cut a := fun ha => by simp [ChildOf, hcut a hid ha] at hb
      have hparent : doc.parent a = some b := (hsame a hid hnot).symm.trans hb
      obtain ⟨hw, hnone⟩ := ih (habove a b hid hparent)
      refine ⟨.head hparent hw, fun above ha hc => ?_⟩
      rcases Relation.ReflTransGen.cases_head ha with rfl | ⟨b', hb', ha⟩
      · exact absurd hc hnot
      · obtain rfl := Option.some.inj (hparent.symm.trans hb')
        exact hnone above ha hc
  · rintro ⟨hw, hnone⟩
    induction hw using Relation.ReflTransGen.head_induction_on with
    | refl => exact .refl
    | @head a b hb _ ih =>
      have hnot : ¬ cut a := by
        intro ha
        obtain rfl := hnone a .refl ha
        simp [ChildOf, htop] at hb
      refine .head ((hsame a hid hnot).trans hb) (ih (habove a b hid hb) fun above ha hc => ?_)
      exact hnone above (.head hb ha) hc

/-- `new` is `doc` after the nodes of a list were cut off from their parents. -/
structure Pruned (doc new : Document) (ids : List NodeId) : Prop where
  parent_eq : ∀ x, new.parent x = if x ∈ ids then none else doc.parent x
  children_eq : ∀ x, new.children x = (doc.children x).filter (· ∉ ids)
  payload_eq : ∀ x, new.payload x = doc.payload x
  size_eq : new.size = doc.size

namespace Pruned

variable {middle : Document} {ids : List NodeId}

theorem refl (doc : Document) : Pruned doc doc [] where
  parent_eq x := by simp
  children_eq x := by simp
  payload_eq _ := rfl
  size_eq := rfl

theorem cons (h : Forest doc doc.children) (hp : Pruned (doc.detach id) new ids) :
    Pruned doc new (id :: ids) where
  parent_eq x := by
    rw [hp.parent_eq, parent_detach h]
    by_cases hx : x = id <;> simp [hx]
  children_eq x := by
    rw [hp.children_eq, (h.detach id).children_eq, (h.nodup x).erase_eq_filter, List.filter_filter]
    refine List.filter_congr fun child _ => ?_
    by_cases hchild : child = id <;> simp [hchild]
  payload_eq x := (hp.payload_eq x).trans (payload_detach h id x)
  size_eq := hp.size_eq.trans (size_detach doc id)

section Attached

variable (hp : Pruned doc new ids) (hd : Forest doc doc.children) (hn : Forest new new.children)
include hp hd hn

/-- A node stays attached unless it is cut off or below a node that is. The document node is above all,
and cutting it off cuts nothing. -/
theorem isAttached_iff : new.isAttached id ↔
    doc.isAttached id ∧ ∀ above, doc.Within id above → above ∈ ids → above = root := by
  rw [hn.isAttached_iff, hd.isAttached_iff]
  refine within_top_iff_of_cut (fun _ => True) (· ∈ ids) hd.parent_root (fun _ _ _ _ => trivial)
    (fun a _ ha => ?_) (fun a _ ha => ?_) trivial
  · rw [hp.parent_eq, if_pos ha]
  · rw [hp.parent_eq, if_neg ha]

theorem parent_eq_of_attached (hid : new.isAttached id) : new.parent id = doc.parent id := by
  rw [hp.parent_eq]
  split
  · rename_i hmem
    obtain rfl := ((hp.isAttached_iff hd hn).mp hid).2 id .refl hmem
    exact hd.parent_root.symm
  · rfl

/-- Below a node that stays attached the children stay attached that are not cut off. -/
theorem children_eq_of_attached (hid : new.isAttached id) :
    new.children id = (doc.children id).filter new.isAttached := by
  rw [hp.children_eq]
  refine List.filter_congr fun child hchild => ?_
  have hparent := (hd.mem_kids child id).mp hchild
  have hiff : child ∉ ids ↔ new.isAttached child := by
    constructor
    · intro hmem
      have hkept : new.parent child = some id := by rw [hp.parent_eq, if_neg hmem, hparent]
      exact hn.isAttached_iff.mpr (.head hkept (hn.isAttached_iff.mp hid))
    · intro hattached hmem
      obtain rfl := ((hp.isAttached_iff hd hn).mp hattached).2 child .refl hmem
      simp [hd.parent_root] at hparent
  rw [Bool.eq_iff_iff, decide_eq_true_iff]
  exact hiff

/-- Below a node that is not attached any more nothing is. -/
theorem not_attached_below (hid : ¬ new.isAttached id) {x : NodeId} (hx : x ∈ doc.subtree id) :
    ¬ new.isAttached x := by
  intro hattached
  obtain ⟨hbefore, hnone⟩ := (hp.isAttached_iff hd hn).mp hattached
  have hw := hd.mem_subtree.mp hx
  refine hid ((hp.isAttached_iff hd hn).mpr ⟨?_, fun above ha => hnone above (hw.trans ha)⟩)
  exact hd.isAttached_iff.mpr (within_top_of_within hd.parent_root (hd.isAttached_iff.mp hbefore) hw)

/-- The walk meets what is left in the order in which it was met before. -/
theorem subtree_eq_filter (hid : new.isAttached id) :
    new.subtree id = (doc.subtree id).filter new.isAttached := by
  induction id using hd.induction_below with
  | step id ih =>
    have hbelow : ∀ ids : List NodeId, (∀ child ∈ ids, child ∈ doc.children id) →
        (ids.filter new.isAttached).flatMap new.subtree =
          (ids.flatMap doc.subtree).filter new.isAttached := by
      intro ids
      induction ids with
      | nil => exact fun _ => rfl
      | cons child ids ihids =>
        intro hids
        obtain ⟨hchild, hrest⟩ := List.forall_mem_cons.mp hids
        rw [List.flatMap_cons, List.filter_append, ← ihids hrest]
        by_cases hattached : new.isAttached child
        · rw [List.filter_cons_of_pos hattached, List.flatMap_cons, ih child hchild hattached]
        · have hnone : (doc.subtree child).filter new.isAttached = [] :=
            List.filter_eq_nil_iff.mpr fun x hx => hp.not_attached_below hd hn hattached hx
          rw [List.filter_cons_of_neg hattached, hnone, List.nil_append]
    rw [hn.subtree_eq, hd.subtree_eq, List.filter_cons_of_pos hid,
      hp.children_eq_of_attached hd hn hid, hbelow _ fun _ hchild => hchild]

end Attached

end Pruned

def withoutNamed (names : List (NodeId × String)) (id : NodeId) : Payload → Payload :=
  Payload.mapElement fun e =>
    { e with attributes := e.attributes.filter fun a => (id, a.qualifiedName) ∉ names }

structure Stripped (doc new : Document) (names : List (NodeId × String)) : Prop where
  node_eq : ∀ x, new.node x = { doc.node x with payload := withoutNamed names x (doc.payload x) }
  size_eq : new.size = doc.size

namespace Stripped

variable {names : List (NodeId × String)} {owner : NodeId} {name : String}

theorem refl (doc : Document) : Stripped doc doc [] where
  node_eq x := by
    have hpayload : withoutNamed [] x (doc.payload x) = (doc.node x).payload := by
      simp [Document.payload, withoutNamed]
    simp [hpayload]
  size_eq := rfl

theorem cons (h : Stripped (doc.removeAttribute owner name).1 new names) :
    Stripped doc new ((owner, name) :: names) where
  node_eq x := by
    rw [h.node_eq, Document.payload, removeAttribute, node_updateElement]
    by_cases hx : x = owner
    · subst hx
      simp [withoutNamed, Payload.mapElement_mapElement, List.filter_filter, bne, beq_eq_decide,
        Bool.and_comm]
    · simp [hx, withoutNamed]
  size_eq := h.size_eq.trans (size_updateElement ..)

variable (h : Stripped doc new names)
include h

theorem payload_eq (x : NodeId) : new.payload x = withoutNamed names x (doc.payload x) := by
  rw [Document.payload, h.node_eq]

theorem attributes_eq (x : NodeId) : new.attributes x =
    (doc.attributes x).filter fun a => (x, a.qualifiedName) ∉ names := by
  rw [attributes, element?, h.payload_eq, attributes, element?, withoutNamed,
    Payload.element?_mapElement]
  cases (doc.payload x).element? <;> rfl

theorem sameLinks : doc.SameLinks new := .of_node h.node_eq

theorem parent_eq (x : NodeId) : new.parent x = doc.parent x := congrFun h.sameLinks.parent_eq x

theorem children_eq (x : NodeId) : new.children x = doc.children x :=
  congrFun (h.sameLinks.children_eq h.size_eq) x

theorem within_iff {below above : NodeId} : new.Within below above ↔ doc.Within below above := by
  rw [Within, h.sameLinks.childOf_eq]

theorem isAttached_eq (x : NodeId) : new.isAttached x = doc.isAttached x := by
  rw [isAttached, h.sameLinks.ancestors_eq h.size_eq]
  rfl

theorem subtree_eq (hd : Forest doc doc.children) (hn : Forest new new.children) (x : NodeId) :
    new.subtree x = doc.subtree x := hd.subtree_congr hn fun x _ => h.children_eq x

end Stripped

end MarkupQuery.Tree.Document
