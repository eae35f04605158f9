import MarkupQuery.Proofs.Tree.Forest

namespace MarkupQuery.Tree

namespace Document

theorem node_detach {doc : Document} {kids : NodeId → List NodeId} (h : Forest doc kids)
    {child parent : NodeId} (hp : doc.parent child = some parent) (x : NodeId) :
    (doc.detach child).node x = { doc.node x with
      parent := if x = child then none else doc.parent x
      previous := if x = child then none else
        if doc.next child = some x then doc.previous child else doc.previous x
      next := if x = child then none else
        if doc.previous child = some x then doc.next child else doc.next x
      firstChild := if doc.previous child = none ∧ x = parent then doc.next child
        else doc.firstChild x
      lastChild := if doc.next child = none ∧ x = parent then doc.previous child
        else doc.lastChild x } := by
  have hb : ∀ id ∈ doc.previous child, id < doc.size := fun id hid =>
    h.child_lt id parent ((h.parent_of_previous hid).trans hp)
  have ha : ∀ id ∈ doc.next child, id < doc.size := fun id hid =>
    h.child_lt id parent ((h.parent_of_next hid).trans hp)
  have hj := node_joinNeighbours (h.parent_lt hp) hb ha
  have hsize : (doc.joinNeighbours parent (doc.previous child) (doc.next child)).size
      = doc.size := by
    unfold joinNeighbours
    split <;> split <;> simp
  have hc : child < (doc.joinNeighbours parent (doc.previous child) (doc.next child)).size := by
    rw [hsize]
    exact h.child_lt child parent hp
  simp only [detach, hp]
  rw [node_update _ _ _ _ hc]
  by_cases hx : x = child
  · subst hx
    simp [hj]
  · simp [hj, hx, Document.parent]

section Detach

variable {doc : Document} {kids : NodeId → List NodeId} (h : Forest doc kids) (child x : NodeId)
include h

theorem parent_detach :
    (doc.detach child).parent x = if x = child then none else doc.parent x := by
  cases hp : doc.parent child with
  | none =>
    simp only [detach, hp]
    by_cases hx : x = child <;> simp [hx, hp]
  | some parent => simp only [Document.parent, node_detach h hp]

theorem next_detach :
    (doc.detach child).next x = if x = child then none else
      if doc.previous child = some x then doc.next child else doc.next x := by
  cases hp : doc.parent child with
  | none =>
    obtain ⟨hprevious, hnext⟩ := h.orphan child hp
    simp only [detach, hp, hprevious]
    by_cases hx : x = child <;> simp [hx, hnext]
  | some parent =>
    rw [Document.next, node_detach h hp]

theorem previous_detach :
    (doc.detach child).previous x = if x = child then none else
      if doc.next child = some x then doc.previous child else doc.previous x := by
  cases hp : doc.parent child with
  | none =>
    obtain ⟨hprevious, hnext⟩ := h.orphan child hp
    simp only [detach, hp, hnext]
    by_cases hx : x = child <;> simp [hx, hprevious]
  | some parent =>
    rw [Document.previous, node_detach h hp]

theorem firstChild_detach :
    (doc.detach child).firstChild x =
      if doc.parent child = some x ∧ doc.previous child = none then doc.next child
      else doc.firstChild x := by
  cases hp : doc.parent child with
  | none => simp [detach, hp]
  | some parent =>
    rw [Document.firstChild, node_detach h hp]
    simp [and_comm, eq_comm]

theorem lastChild_detach :
    (doc.detach child).lastChild x =
      if doc.parent child = some x ∧ doc.next child = none then doc.previous child
      else doc.lastChild x := by
  cases hp : doc.parent child with
  | none => simp [detach, hp]
  | some parent =>
    rw [Document.lastChild, node_detach h hp]
    simp [and_comm, eq_comm]

theorem payload_detach : (doc.detach child).payload x = doc.payload x := by
  cases hp : doc.parent child with
  | none => simp only [detach, hp]
  | some parent => simp only [payload, node_detach h hp]

end Detach

@[simp] theorem size_detach (doc : Document) (child : NodeId) :
    (doc.detach child).size = doc.size := by
  unfold detach joinNeighbours
  split
  · rfl
  · split <;> split <;> simp

end Document

namespace Forest

open Document

variable {doc : Document} {kids : NodeId → List NodeId}

theorem ne_of_mem_rest {before after : List NodeId} {child x : NodeId}
    (hn : (before ++ child :: after).Nodup) (hx : x ∈ before ++ after) : x ≠ child := by
  rintro rfl
  exact (List.nodup_middle.mp hn |> List.nodup_cons.mp).1 hx

theorem erase_split {before after : List NodeId} {child id : NodeId}
    (hk : kids id = before ++ child :: after) (hn : (kids id).Nodup) :
    (kids id).erase child = before ++ after := by
  rw [hk] at hn ⊢
  have hbefore : child ∉ before := fun hc => ne_of_mem_rest hn (List.mem_append_left _ hc) rfl
  rw [List.erase_append_right _ hbefore, List.erase_cons_head]

theorem erase_eq (h : Forest doc kids) {child id : NodeId} (hc : doc.parent child ≠ some id) :
    (kids id).erase child = kids id :=
  List.erase_of_not_mem fun hm => hc ((h.mem_kids child id).mp hm)

section Detach

variable (h : Forest doc kids) (child : NodeId)
include h

theorem childOf_detach (a b : NodeId) (hab : (doc.detach child).ChildOf a b) :
    doc.ChildOf a b := by
  rw [ChildOf, parent_detach h] at hab
  split at hab
  · simp at hab
  · exact hab

theorem mem_kids_detach (x id : NodeId) :
    x ∈ (kids id).erase child ↔ (doc.detach child).parent x = some id := by
  rw [(h.nodup id).mem_erase_iff, h.mem_kids, parent_detach h]
  by_cases hx : x = child <;> simp [hx]

theorem forward_detach (id : NodeId) : Leads (doc.detach child).next
    ((doc.detach child).firstChild id) ((kids id).erase child) none := by
  rw [firstChild_detach h]
  by_cases hid : doc.parent child = some id
  · obtain ⟨before, after, hk⟩ := h.exists_split hid
    obtain ⟨hprevious, -⟩ := h.siblings_eq hk
    rw [erase_split hk (h.nodup id), hprevious]
    have hchain := h.forward id
    have hnodup := h.nodup id
    rw [hk] at hchain hnodup
    simp only [hid, List.getLast?_eq_none_iff, true_and]
    refine hchain.unlink hnodup fun x hx => ?_
    rw [next_detach h, hprevious, if_neg (ne_of_mem_rest hnodup hx)]
  · rw [h.erase_eq hid, if_neg fun hc => hid hc.1]
    refine (h.forward id).congr fun x hx => ?_
    rw [h.mem_kids] at hx
    rw [next_detach h, if_neg, if_neg]
    · intro hs
      exact hid ((h.parent_of_previous hs).symm.trans hx)
    · rintro rfl
      exact hid hx

theorem backward_detach (id : NodeId) : Leads (doc.detach child).previous
    ((doc.detach child).lastChild id) ((kids id).erase child).reverse none := by
  rw [lastChild_detach h]
  by_cases hid : doc.parent child = some id
  · obtain ⟨before, after, hk⟩ := h.exists_split hid
    obtain ⟨-, hnext⟩ := h.siblings_eq hk
    rw [erase_split hk (h.nodup id), hnext]
    have hchain := h.backward id
    have hnodup := List.nodup_reverse.mpr (h.nodup id)
    rw [hk, List.reverse_append, List.reverse_cons, List.append_assoc,
      List.singleton_append] at hchain hnodup
    rw [List.reverse_append]
    have hrest : Leads (doc.detach child).previous _ _ none :=
      hchain.unlink hnodup fun x hx => by
        rw [previous_detach h, hnext, if_neg (ne_of_mem_rest hnodup hx), List.getLast?_reverse]
    simpa [hid] using hrest
  · rw [h.erase_eq hid, if_neg fun hc => hid hc.1]
    refine (h.backward id).congr fun x hx => ?_
    rw [List.mem_reverse, h.mem_kids] at hx
    rw [previous_detach h, if_neg, if_neg]
    · intro hs
      exact hid ((h.parent_of_next hs).symm.trans hx)
    · rintro rfl
      exact hid hx

theorem orphan_detach (id : NodeId) (hid : (doc.detach child).parent id = none) :
    (doc.detach child).previous id = none ∧ (doc.detach child).next id = none := by
  rw [parent_detach h] at hid
  rw [previous_detach h, next_detach h]
  by_cases hc : id = child
  · simp [hc]
  · rw [if_neg hc] at hid
    obtain ⟨hprevious, hnext⟩ := h.orphan id hid
    simp only [if_neg hc, hprevious, hnext, ite_eq_right_iff]
    -- a neighbour of `child` has a parent, so `id` is none
    constructor
    · intro hs
      exact (h.orphan child ((h.parent_of_next hs).symm.trans hid)).1
    · intro hs
      exact (h.orphan child ((h.parent_of_previous hs).symm.trans hid)).2

end Detach

/-- Unlinking a node takes it out of the children of its parent. -/
theorem detach (h : Forest doc kids) (child : NodeId) :
    Forest (doc.detach child) fun id => (kids id).erase child := by
  refine {
    forward := forward_detach h child
    backward := backward_detach h child
    nodup := fun id => (h.nodup id).erase child
    mem_kids := mem_kids_detach h child
    orphan := orphan_detach h child
    acyclic := ?_, document := ?_, leaf := ?_, child_lt := ?_, root_lt := ?_, root_payload := ?_ }
  · intro id hid
    exact h.acyclic id (Relation.TransGen.mono (childOf_detach h child) id id hid)
  · intro id hid
    rw [payload_detach h] at hid
    rw [parent_detach h, h.document id hid, ite_self]
  · intro id hid
    rw [payload_detach h] at hid
    simp [h.leaf id hid]
  · intro x id hx
    rw [size_detach]
    exact h.child_lt x id (childOf_detach h child x id hx)
  · rw [size_detach]
    exact h.root_lt
  · rw [payload_detach h]
    exact h.root_payload

end Forest

end MarkupQuery.Tree
