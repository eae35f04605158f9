import MarkupQuery.Proofs.Tree.Forest

namespace MarkupQuery.Tree

namespace Document

theorem node_linkLast {doc : Document} {parent child : NodeId} (hp : parent < doc.size)
    (hc : child < doc.size) (hl : ∀ id ∈ doc.lastChild parent, id < doc.size) (x : NodeId) :
    (doc.linkLast parent child).node x = { doc.node x with
      parent := if x = child then some parent else doc.parent x
      previous := if x = child then doc.lastChild parent else doc.previous x
      next := if doc.lastChild parent = some x then some child else doc.next x
      firstChild := if doc.lastChild parent = none ∧ x = parent then some child
        else doc.firstChild x
      lastChild := if x = parent then some child else doc.lastChild x } := by
  have hsome : ∀ id, (some id = some x) = (x = id) := by simp [eq_comm]
  unfold linkLast
  cases hlast : doc.lastChild parent with
  | none =>
    dsimp only
    rw [node_update_eq (by simpa using hp), node_update_eq (by simpa using hp), node_update_eq hc]
    simp only [reduceCtorEq, true_and, if_false]
    split_ifs <;> rfl
  | some last =>
    dsimp only
    rw [node_update_eq (by simpa using hp), node_update_eq (by simpa using hl last hlast),
      node_update_eq hc]
    simp only [hsome, reduceCtorEq, false_and, if_false]
    split_ifs <;> rfl

theorem node_linkBefore {doc : Document} {parent reference child : NodeId}
    (hp : parent < doc.size) (hr : reference < doc.size) (hc : child < doc.size)
    (hb : ∀ id ∈ doc.previous reference, id < doc.size) (x : NodeId) :
    (doc.linkBefore parent reference child).node x = { doc.node x with
      parent := if x = child then some parent else doc.parent x
      previous := if x = reference then some child else
        if x = child then doc.previous reference else doc.previous x
      next := if doc.previous reference = some x then some child else
        if x = child then some reference else doc.next x
      firstChild := if doc.previous reference = none ∧ x = parent then some child
        else doc.firstChild x } := by
  have hsome : ∀ id, (some id = some x) = (x = id) := by simp [eq_comm]
  unfold linkBefore
  cases hprevious : doc.previous reference with
  | none =>
    dsimp only
    rw [node_update_eq (by simpa using hr), node_update_eq (by simpa using hp), node_update_eq hc]
    simp only [reduceCtorEq, true_and, if_false]
    split_ifs <;> rfl
  | some before =>
    dsimp only
    rw [node_update_eq (by simpa using hr), node_update_eq (by simpa using hb before hprevious),
      node_update_eq hc]
    simp only [hsome, reduceCtorEq, false_and, if_false]
    split_ifs <;> rfl

@[simp] theorem size_linkLast (doc : Document) (parent child : NodeId) :
    (doc.linkLast parent child).size = doc.size := by
  unfold linkLast
  dsimp only
  split <;> simp

@[simp] theorem size_linkBefore (doc : Document) (parent reference child : NodeId) :
    (doc.linkBefore parent reference child).size = doc.size := by
  unfold linkBefore
  dsimp only
  split <;> simp

end Document

/-- `child`, which was unlinked in `doc`, stands below `parent` between two parts of its children in
`new`; nothing else has changed. -/
structure Inserted (doc new : Document) (parent child : NodeId) (before after : List NodeId) :
    Prop where
  parent_eq : ∀ x, new.parent x = if x = child then some parent else doc.parent x
  next_child : new.next child = after.head?
  next_eq : ∀ x, x ≠ child →
    new.next x = if before.getLast? = some x then some child else doc.next x
  previous_child : new.previous child = before.getLast?
  previous_eq : ∀ x, x ≠ child →
    new.previous x = if after.head? = some x then some child else doc.previous x
  firstChild_eq : ∀ x, new.firstChild x =
    if x = parent ∧ before = [] then some child else doc.firstChild x
  lastChild_eq : ∀ x, new.lastChild x =
    if x = parent ∧ after = [] then some child else doc.lastChild x
  payload_eq : ∀ x, new.payload x = doc.payload x
  size_eq : new.size = doc.size

namespace Forest

open Document

variable {doc new : Document} {kids : NodeId → List NodeId} {parent child reference : NodeId}
  {before after : List NodeId}

/-- A step up that is new leads from `child` to `parent`. -/
theorem below_of_inserted (hi : Inserted doc new parent child before after) {a b : NodeId}
    (hab : new.Below a b) : doc.Below a b ∨ doc.Within a child ∧ doc.Within parent b := by
  have hstep : ∀ x y, new.ChildOf x y → doc.ChildOf x y ∨ x = child ∧ y = parent := by
    intro x y hxy
    rw [ChildOf, hi.parent_eq] at hxy
    by_cases hx : x = child
    · rw [if_pos hx] at hxy
      exact .inr ⟨hx, (Option.some.inj hxy).symm⟩
    · rw [if_neg hx] at hxy
      exact .inl hxy
  induction hab with
  | single hxy =>
    rcases hstep _ _ hxy with hxy | ⟨rfl, rfl⟩
    · exact .inl (.single hxy)
    · exact .inr ⟨.refl, .refl⟩
  | tail _ hxy ih =>
    rcases hstep _ _ hxy with hxy | ⟨rfl, rfl⟩
    · exact ih.imp (fun ih => ih.tail hxy) fun ih => ⟨ih.1, ih.2.tail hxy⟩
    · exact .inr ⟨ih.elim Relation.TransGen.to_reflTransGen And.left, .refl⟩

section Insert

variable (h : Forest doc kids) (hi : Inserted doc new parent child before after)
  (hk : kids parent = before ++ after) (hfree : doc.parent child = none)
include h hfree

theorem ne_of_mem_of_free {x id : NodeId} (hx : x ∈ kids id) : x ≠ child := by
  rintro rfl
  simp [(h.mem_kids x id).mp hx] at hfree

include hk

theorem child_not_mem : child ∉ before ++ after := fun hc =>
  ne_of_mem_of_free h hfree (hk ▸ hc) rfl

omit hfree

/-- The children of another node are not those of `parent`. -/
theorem not_mem_of_ne {x id : NodeId} (hid : id ≠ parent) (hx : x ∈ kids id) :
    x ∉ before ++ after := by
  intro hx'
  rw [← hk, h.mem_kids, (h.mem_kids x id).mp hx] at hx'
  exact hid (Option.some.inj hx')

include hfree

theorem nodup_insert (id : NodeId) :
    (Function.update kids parent (before ++ child :: after) id).Nodup := by
  by_cases hid : id = parent
  · subst hid
    rw [Function.update_self, List.nodup_middle]
    exact List.nodup_cons.mpr ⟨child_not_mem h hk hfree, hk ▸ h.nodup id⟩
  · rw [Function.update_of_ne hid]
    exact h.nodup id

include hi

theorem forward_insert (id : NodeId) : Leads new.next (new.firstChild id)
    (Function.update kids parent (before ++ child :: after) id) none := by
  rw [hi.firstChild_eq]
  by_cases hid : id = parent
  · subst hid
    have hchain := h.forward id
    have hnodup := h.nodup id
    rw [hk] at hchain hnodup
    have hnew : Leads new.next _ _ none := hchain.insert hnodup hi.next_child fun x hx =>
      hi.next_eq x fun hc => child_not_mem h hk hfree (hc ▸ hx)
    simpa using hnew
  · rw [Function.update_of_ne hid, if_neg fun hc => hid hc.1]
    refine (h.forward id).congr fun x hx => ?_
    rw [hi.next_eq x (ne_of_mem_of_free h hfree hx), if_neg]
    intro hlast
    exact not_mem_of_ne h hk hid hx (List.mem_append_left _ (List.mem_of_getLast? hlast))

theorem backward_insert (id : NodeId) : Leads new.previous (new.lastChild id)
    (Function.update kids parent (before ++ child :: after) id).reverse none := by
  rw [hi.lastChild_eq]
  by_cases hid : id = parent
  · subst hid
    have hchain := h.backward id
    have hnodup := List.nodup_reverse.mpr (h.nodup id)
    rw [hk, List.reverse_append] at hchain hnodup
    have hnew : Leads new.previous _ _ none :=
      hchain.insert hnodup (hi.previous_child.trans List.head?_reverse.symm) fun x hx => by
        rw [List.getLast?_reverse]
        refine hi.previous_eq x fun hc => child_not_mem h hk hfree ?_
        simpa [hc, or_comm] using hx
    simpa using hnew
  · rw [Function.update_of_ne hid, if_neg fun hc => hid hc.1]
    refine (h.backward id).congr fun x hx => ?_
    rw [List.mem_reverse] at hx
    rw [hi.previous_eq x (ne_of_mem_of_free h hfree hx), if_neg]
    intro hhead
    exact not_mem_of_ne h hk hid hx (List.mem_append_right _ (List.mem_of_head? hhead))

theorem mem_kids_insert (x id : NodeId) :
    x ∈ Function.update kids parent (before ++ child :: after) id ↔ new.parent x = some id := by
  rw [hi.parent_eq]
  by_cases hid : id = parent
  · subst hid
    have hm := h.mem_kids x id
    rw [hk] at hm
    rw [Function.update_self, List.mem_append, List.mem_cons, or_left_comm, ← List.mem_append, hm]
    by_cases hx : x = child <;> simp [hx]
  · rw [Function.update_of_ne hid, h.mem_kids]
    by_cases hx : x = child
    · simp [hx, hfree, Ne.symm hid]
    · simp [hx]

omit hfree

theorem orphan_insert (id : NodeId) (hid : new.parent id = none) :
    new.previous id = none ∧ new.next id = none := by
  have hc : id ≠ child := by
    rintro rfl
    simp [hi.parent_eq] at hid
  rw [hi.parent_eq, if_neg hc] at hid
  obtain ⟨hprevious, hnext⟩ := h.orphan id hid
  rw [hi.next_eq id hc, hi.previous_eq id hc, hprevious, hnext]
  -- the neighbours of `child` have a parent, so `id` is neither of them
  have hnot : id ∉ before ++ after := by
    rw [← hk, h.mem_kids, hid]
    simp
  refine ⟨if_neg fun hs => ?_, if_neg fun hs => ?_⟩
  · exact hnot (List.mem_append_right _ (List.mem_of_head? hs))
  · exact hnot (List.mem_append_left _ (List.mem_of_getLast? hs))

end Insert

/-- Linking an unlinked node below one that is not within it. -/
theorem insert (h : Forest doc kids) (hi : Inserted doc new parent child before after)
    (hk : kids parent = before ++ after) (hfree : doc.parent child = none)
    (hlt : child < doc.size) (hwithin : ¬ doc.Within parent child)
    (hchild : doc.payload child ≠ .document) (hparent : (doc.payload parent).mayHaveChildren) :
    Forest new (Function.update kids parent (before ++ child :: after)) := by
  refine {
    forward := forward_insert h hi hk hfree
    backward := backward_insert h hi hk hfree
    nodup := nodup_insert h hk hfree
    mem_kids := mem_kids_insert h hi hk hfree
    orphan := orphan_insert h hi hk
    acyclic := ?_, document := ?_, leaf := ?_, child_lt := ?_, root_lt := ?_, root_payload := ?_ }
  · -- a cycle has to lead through the new link, and `parent` is not below `child`
    intro id hid
    rcases below_of_inserted hi hid with hid | ⟨hup, hdown⟩
    · exact h.acyclic id hid
    · exact hwithin (hdown.trans hup)
  · intro id hid
    rw [hi.payload_eq] at hid
    rw [hi.parent_eq, if_neg, h.document id hid]
    rintro rfl
    exact hchild hid
  · intro id hid
    rw [hi.payload_eq] at hid
    rw [Function.update_of_ne, h.leaf id hid]
    rintro rfl
    simp [hid] at hparent
  · intro x id hx
    rw [hi.size_eq]
    rw [hi.parent_eq] at hx
    by_cases hc : x = child
    · rwa [hc]
    · rw [if_neg hc] at hx
      exact h.child_lt x id hx
  · rw [hi.size_eq]
    exact h.root_lt
  · rw [hi.payload_eq]
    exact h.root_payload

theorem inserted_linkLast (h : Forest doc kids) (hfree : doc.parent child = none)
    (hp : parent < doc.size) (hc : child < doc.size) :
    Inserted doc (doc.linkLast parent child) parent child (kids parent) [] := by
  have hlast := h.lastChild_eq parent
  have hnode := node_linkLast hp hc fun id hid =>
    h.kids_lt (List.mem_of_getLast? (hlast.symm.trans hid))
  have hnot : doc.lastChild parent ≠ some child := by
    intro hs
    have := (h.mem_kids child parent).mp (List.mem_of_getLast? (hlast.symm.trans hs))
    simp [hfree] at this
  constructor
  · intro x
    rw [Document.parent, hnode]
  · rw [Document.next, hnode]
    simp only [if_neg hnot]
    exact (h.orphan child hfree).2
  · intro x hx
    rw [Document.next, hnode, hlast]
  · rw [Document.previous, hnode, hlast]
    simp
  · intro x hx
    rw [Document.previous, hnode]
    simp [hx]
  · intro x
    rw [Document.firstChild, hnode, hlast]
    simp [and_comm]
  · intro x
    rw [Document.lastChild, hnode]
    simp
  · intro x
    rw [Document.payload, hnode]
    rfl
  · exact size_linkLast doc parent child

theorem inserted_linkBefore (h : Forest doc kids) (hfree : doc.parent child = none)
    (hk : kids parent = before ++ reference :: after) (hc : child < doc.size) :
    Inserted doc (doc.linkBefore parent reference child) parent child before
      (reference :: after) := by
  obtain ⟨hprevious, -⟩ := h.siblings_eq hk
  have hr := (h.mem_kids reference parent).mp (by simp [hk])
  have hnode := node_linkBefore (h.parent_lt hr) (h.child_lt _ _ hr) hc fun id hid =>
    h.child_lt id parent ((h.parent_of_previous hid).trans hr)
  have hne : reference ≠ child := by
    rintro rfl
    simp [hfree] at hr
  have hnot : doc.previous reference ≠ some child := by
    intro hs
    simp [h.parent_of_previous hs, hr] at hfree
  constructor
  · intro x
    rw [Document.parent, hnode]
  · rw [Document.next, hnode]
    simp [hnot]
  · intro x hx
    rw [Document.next, hnode, hprevious]
    simp [hx]
  · rw [Document.previous, hnode, hprevious]
    simp [hne.symm]
  · intro x hx
    rw [Document.previous, hnode]
    simp [hx, eq_comm]
  · intro x
    rw [Document.firstChild, hnode, hprevious]
    simp [and_comm]
  · intro x
    rw [Document.lastChild, hnode]
    simp [Document.lastChild]
  · intro x
    rw [Document.payload, hnode]
    rfl
  · exact size_linkBefore doc parent reference child

end Forest

end MarkupQuery.Tree
