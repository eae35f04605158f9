import MarkupQuery.Proofs.Tree.Portable
import MarkupQuery.Proofs.Tree.Sound

namespace MarkupQuery.Tree.Document

variable {doc middle new : Document} {id x : NodeId}

structure Extended (doc new : Document) : Prop where
  grown : Grown doc new
  children_eq : ∀ x, x < doc.size → new.children x = doc.children x

namespace Extended

theorem refl (doc : Document) : Extended doc doc :=
  ⟨⟨Nat.le_refl _, fun _ _ => rfl, fun _ _ => rfl⟩, fun _ _ => rfl⟩

theorem trans (h : Extended doc middle) (h' : Extended middle new) : Extended doc new where
  grown := h.grown.trans h'.grown
  children_eq x hx := by
    rw [h'.children_eq x (Nat.lt_of_lt_of_le hx h.grown.size_le), h.children_eq x hx]

section Forests

variable (he : Extended doc new) (hd : Forest doc doc.children) (hn : Forest new new.children)
include he hd hn

/-- Nodes that were there before are below the same nodes as before. -/
theorem mem_subtree_iff (hx : x < doc.size) : x ∈ new.subtree id ↔ x ∈ doc.subtree id := by
  rw [hd.mem_subtree, hn.mem_subtree]
  constructor
  · intro hw
    induction hw using Relation.ReflTransGen.head_induction_on with
    | refl => exact .refl
    | @head a b ha _ ih =>
      have ha' : doc.parent a = some b := (he.grown.parent_eq a hx).symm.trans ha
      exact .head ha' (ih (hd.parent_lt ha'))
  · intro hw
    induction hw using Relation.ReflTransGen.head_induction_on with
    | refl => exact .refl
    | @head a b ha _ ih => exact .head ((he.grown.parent_eq a hx).trans ha) (ih (hd.parent_lt ha))

/-- The walk below a node meets the same nodes in the same order. -/
theorem subtree_eq (hx : x < doc.size) : new.subtree x = doc.subtree x := by
  induction x using hd.induction_below with
  | step x ih =>
    rw [hd.subtree_eq, hn.subtree_eq, he.children_eq x hx,
      List.flatMap_congr fun child hc => ih child hc (hd.kids_lt hc)]

theorem siblings_eq (hx : x < doc.size) :
    new.previous x = doc.previous x ∧ new.next x = doc.next x := by
  cases hp : doc.parent x with
  | none =>
    obtain ⟨hprevious, hnext⟩ := hd.orphan x hp
    obtain ⟨hprevious', hnext'⟩ := hn.orphan x ((he.grown.parent_eq x hx).trans hp)
    rw [hprevious, hnext, hprevious', hnext']
    exact ⟨rfl, rfl⟩
  | some parent =>
    obtain ⟨before, after, hk⟩ := hd.exists_split hp
    have hk' := (he.children_eq parent (hd.parent_lt hp)).trans hk
    rw [(hd.siblings_eq hk).1, (hd.siblings_eq hk).2, (hn.siblings_eq hk').1,
      (hn.siblings_eq hk').2]
    exact ⟨rfl, rfl⟩

/-- A node keeps what it holds and all its links. -/
theorem node_eq (hx : x < doc.size) : new.node x = doc.node x := by
  have hpayload := he.grown.payload_eq x hx
  have hparent := he.grown.parent_eq x hx
  have hfirst : new.firstChild x = doc.firstChild x := by
    rw [hn.firstChild_eq, hd.firstChild_eq, he.children_eq x hx]
  have hlast : new.lastChild x = doc.lastChild x := by
    rw [hn.lastChild_eq, hd.lastChild_eq, he.children_eq x hx]
  obtain ⟨hprevious, hnext⟩ := he.siblings_eq hd hn hx
  unfold payload parent firstChild lastChild previous next at *
  cases hnode : new.node x
  cases hnode' : doc.node x
  simp_all

end Forests

end Extended

theorem extended_importFrom {source : Document} {copy : NodeId} (hd : Forest doc doc.children)
    (hs : Forest source source.children) (ho : doc.importFrom source id = .ok (new, copy)) :
    Extended doc new := by
  obtain ⟨kids, hn, hgrown, hkids⟩ := hd.exists_importFrom hs ho
  exact ⟨hgrown, fun x hx => (hn.children_eq x).trans (hkids x hx)⟩

end MarkupQuery.Tree.Document
