import MarkupQuery.Proofs.Tree.Assembled
import MarkupQuery.Proofs.Tree.Detach
import MarkupQuery.Proofs.Tree.Insertion

namespace MarkupQuery.Tree

namespace Document

theorem checkInsertion_ok {doc : Document} {parent child : NodeId}
    (h : doc.checkInsertion parent child = .ok ()) :
    parent < doc.size ∧ child < doc.size ∧ (doc.payload parent).mayHaveChildren ∧
      doc.payload child ≠ .document ∧ child ∉ doc.ancestors parent := by
  simp only [checkInsertion, contains, Bool.not_eq_true', decide_eq_false_iff_not, beq_iff_eq,
    List.contains_eq_mem, decide_eq_true_eq] at h
  split_ifs at h with hp hc hinner hdocument hancestors
  exact ⟨hp, hc, by simpa using hinner, hdocument, hancestors⟩

theorem requireParent_ok {doc : Document} {id parent : NodeId} :
    doc.requireParent id = .ok parent ↔ doc.parent id = some parent := by
  unfold requireParent
  cases doc.parent id <;> simp

variable {doc new : Document} {parent child reference old id : NodeId}

theorem append_eq_ok (h : doc.append parent child = .ok new) :
    doc.checkInsertion parent child = .ok () ∧ (doc.detach child).linkLast parent child = new := by
  unfold Document.append at h
  cases hcheck : doc.checkInsertion parent child with
  | error e => simp [hcheck, bind, Except.bind] at h
  | ok =>
    simp only [hcheck, bind, Except.bind, pure, Except.pure, Except.ok.injEq] at h
    exact ⟨rfl, h⟩

theorem insertBefore_eq_ok (h : doc.insertBefore reference child = .ok new)
    (hne : reference ≠ child) :
    ∃ parent, doc.parent reference = some parent ∧ doc.checkInsertion parent child = .ok () ∧
      (doc.detach child).linkBefore parent reference child = new := by
  rw [Document.insertBefore, if_neg hne] at h
  cases hr : doc.requireParent reference with
  | error e => simp [hr, bind, Except.bind] at h
  | ok parent =>
    cases hcheck : doc.checkInsertion parent child with
    | error e => simp [hr, hcheck, bind, Except.bind] at h
    | ok =>
      simp only [hr, hcheck, bind, Except.bind, pure, Except.pure, Except.ok.injEq] at h
      exact ⟨parent, requireParent_ok.mp hr, hcheck, h⟩

/-- Behind a node is in front of the next one, or at the end. -/
theorem insertAfter_eq_ok (h : doc.insertAfter reference child = .ok new) :
    (∃ sibling, doc.next reference = some sibling ∧ doc.insertBefore sibling child = .ok new) ∨
      doc.next reference = none ∧
        ∃ parent, doc.parent reference = some parent ∧ doc.append parent child = .ok new := by
  unfold Document.insertAfter at h
  split at h
  next sibling hs => exact .inl ⟨sibling, hs, h⟩
  next hs =>
    cases hr : doc.requireParent reference with
    | error e => simp [hr, bind, Except.bind] at h
    | ok parent =>
      simp only [hr, bind, Except.bind] at h
      exact .inr ⟨hs, parent, requireParent_ok.mp hr, h⟩

theorem replace_eq_ok (h : doc.replace old child = .ok new) (hne : old ≠ child) :
    ∃ moved, doc.insertBefore old child = .ok moved ∧ moved.detach old = new := by
  rw [Document.replace, if_neg hne] at h
  cases hb : doc.insertBefore old child with
  | error e => simp [hb, bind, Except.bind] at h
  | ok moved =>
    simp only [hb, bind, Except.bind, pure, Except.pure, Except.ok.injEq] at h
    exact ⟨moved, rfl, h⟩

theorem remove_eq_ok (h : doc.remove id = .ok new) : doc.detach id = new := by
  unfold Document.remove at h
  split_ifs at h
  cases hr : doc.requireParent id with
  | error e => simp [hr, bind, Except.bind] at h
  | ok parent =>
    simp only [hr, bind, Except.bind, pure, Except.pure, Except.ok.injEq] at h
    exact h

end Document

namespace Forest

open Document

variable {doc new : Document} {kids : NodeId → List NodeId} {parent child reference old : NodeId}
  {before after : List NodeId}

abbrev without (kids : NodeId → List NodeId) (child : NodeId) : NodeId → List NodeId :=
  fun id => (kids id).erase child

theorem not_within_detach (h : Forest doc kids) (hc : child ∉ doc.ancestors parent) :
    ¬ (doc.detach child).Within parent child := by
  intro hw
  refine hc (h.mem_ancestors.mpr (Relation.ReflTransGen.mono (fun a b hab => ?_) _ _ hw))
  rw [ChildOf, parent_detach h] at hab
  split at hab
  · simp at hab
  · exact hab

theorem parent_detach_self (h : Forest doc kids) : (doc.detach child).parent child = none := by
  simp [parent_detach h]

theorem inserted_append (h : Forest doc kids) (ho : doc.append parent child = .ok new) :
    Inserted (doc.detach child) new parent child ((kids parent).erase child) [] := by
  obtain ⟨hcheck, rfl⟩ := append_eq_ok ho
  obtain ⟨hp, hc, -, -, -⟩ := checkInsertion_ok hcheck
  exact (h.detach child).inserted_linkLast h.parent_detach_self (by simpa using hp)
    (by simpa using hc)

/-- Putting a node below `parent` after it has been taken out. -/
theorem insert_detached (h : Forest doc kids) (hcheck : doc.checkInsertion parent child = .ok ())
    (hi : Inserted (doc.detach child) new parent child before after)
    (hk : (kids parent).erase child = before ++ after) :
    Forest new (Function.update (without kids child) parent (before ++ child :: after)) := by
  obtain ⟨-, hc, hinner, hdocument, hancestors⟩ := checkInsertion_ok hcheck
  refine (h.detach child).insert hi hk h.parent_detach_self (by simpa using hc)
    (h.not_within_detach hancestors) ?_ ?_
  · rwa [payload_detach h]
  · rwa [payload_detach h]

theorem append (h : Forest doc kids) (ho : doc.append parent child = .ok new) :
    Forest new (Function.update (without kids child) parent
      ((kids parent).erase child ++ [child])) :=
  h.insert_detached (append_eq_ok ho).1 (h.inserted_append ho) (by simp)

/-- A node that is put in front of `reference` becomes a child of the parent of `reference`. -/
theorem inserted_insertBefore (h : Forest doc kids)
    (ho : doc.insertBefore reference child = .ok new) (hne : reference ≠ child) :
    ∃ parent before after, doc.parent reference = some parent ∧
      (kids parent).erase child = before ++ reference :: after ∧
      doc.checkInsertion parent child = .ok () ∧
      Inserted (doc.detach child) new parent child before (reference :: after) := by
  obtain ⟨parent, hp, hcheck, rfl⟩ := insertBefore_eq_ok ho hne
  obtain ⟨-, hc, -, -, -⟩ := checkInsertion_ok hcheck
  have hd := h.detach child
  have hp' : (doc.detach child).parent reference = some parent := by
    rw [parent_detach h, if_neg hne, hp]
  obtain ⟨before, after, hk⟩ := hd.exists_split hp'
  exact ⟨parent, before, after, hp, hk, hcheck,
    hd.inserted_linkBefore h.parent_detach_self hk (by simpa using hc)⟩

theorem insertBefore (h : Forest doc kids) (ho : doc.insertBefore reference child = .ok new)
    (hne : reference ≠ child) :
    ∃ parent before after, doc.parent reference = some parent ∧
      (kids parent).erase child = before ++ reference :: after ∧
      Forest new (Function.update (without kids child) parent
        (before ++ child :: reference :: after)) := by
  obtain ⟨parent, before, after, hp, hk, hcheck, hi⟩ := h.inserted_insertBefore ho hne
  exact ⟨parent, before, after, hp, hk, h.insert_detached hcheck hi hk⟩

/-- Moving a node before itself changes nothing, so a move before a node always gives a forest. -/
theorem exists_insertBefore (h : Forest doc kids)
    (ho : doc.insertBefore reference child = .ok new) : ∃ kids, Forest new kids := by
  by_cases hne : reference = child
  · rw [Document.insertBefore, if_pos hne, Except.ok.injEq] at ho
    exact ⟨kids, ho ▸ h⟩
  · obtain ⟨_, _, _, -, -, hnew⟩ := h.insertBefore ho hne
    exact ⟨_, hnew⟩

theorem exists_insertAfter (h : Forest doc kids)
    (ho : doc.insertAfter reference child = .ok new) : ∃ kids, Forest new kids := by
  obtain ⟨_, -, ho⟩ | ⟨-, _, -, ho⟩ := insertAfter_eq_ok ho
  · exact h.exists_insertBefore ho
  · exact ⟨_, h.append ho⟩

theorem exists_prepend (h : Forest doc kids)
    (ho : doc.prepend parent child = .ok new) : ∃ kids, Forest new kids := by
  unfold Document.prepend at ho
  split at ho
  · exact h.exists_insertBefore ho
  · exact ⟨_, h.append ho⟩

theorem exists_replace (h : Forest doc kids)
    (ho : doc.replace old child = .ok new) : ∃ kids, Forest new kids := by
  by_cases hne : old = child
  · rw [Document.replace, if_pos hne, Except.ok.injEq] at ho
    exact ⟨kids, ho ▸ h⟩
  · obtain ⟨moved, hb, rfl⟩ := replace_eq_ok ho hne
    obtain ⟨_, hmoved⟩ := h.exists_insertBefore hb
    exact ⟨_, hmoved.detach old⟩

theorem exists_remove (h : Forest doc kids) (ho : doc.remove old = .ok new) :
    ∃ kids, Forest new kids :=
  ⟨_, remove_eq_ok ho ▸ h.detach old⟩

theorem payload_append (h : Forest doc kids) (ho : doc.append parent child = .ok new)
    (id : NodeId) : new.payload id = doc.payload id := by
  rw [(h.inserted_append ho).payload_eq, payload_detach h]

theorem payload_insertBefore (h : Forest doc kids)
    (ho : doc.insertBefore reference child = .ok new) (id : NodeId) :
    new.payload id = doc.payload id := by
  by_cases hne : reference = child
  · rw [Document.insertBefore, if_pos hne, Except.ok.injEq] at ho
    rw [ho]
  · obtain ⟨_, _, _, -, -, -, hi⟩ := h.inserted_insertBefore ho hne
    rw [hi.payload_eq, payload_detach h]

theorem size_append (h : Forest doc kids) (ho : doc.append parent child = .ok new) :
    new.size = doc.size := by
  rw [(h.inserted_append ho).size_eq, size_detach]

theorem size_insertBefore (h : Forest doc kids)
    (ho : doc.insertBefore reference child = .ok new) : new.size = doc.size := by
  by_cases hne : reference = child
  · rw [Document.insertBefore, if_pos hne, Except.ok.injEq] at ho
    rw [ho]
  · obtain ⟨_, _, _, -, -, -, hi⟩ := h.inserted_insertBefore ho hne
    rw [hi.size_eq, size_detach]

end Forest

/-!
Documents that can be reached: read from markup or empty, and then changed in any way. All of them
are forests.
-/

inductive Change where
  | create (payload : Payload)
  | append (parent child : NodeId)
  | prepend (parent child : NodeId)
  | insertBefore (reference child : NodeId)
  | insertAfter (reference child : NodeId)
  | replace (old child : NodeId)
  | remove (id : NodeId)
  | detach (id : NodeId)
  | importFrom (source : Document) (id : NodeId)
  | setAttribute (id : NodeId) (name value : String)
  | removeAttribute (id : NodeId) (name : String)
  | declareNamespace (id : NodeId) (qualifier : Option String) (uri : String)
  | edit (edits : List NamespaceEdit)

namespace Change

def make (doc : Document) : Change → Except Error Document
  | create payload => .ok (doc.create payload).1
  | append parent child => doc.append parent child
  | prepend parent child => doc.prepend parent child
  | insertBefore reference child => doc.insertBefore reference child
  | insertAfter reference child => doc.insertAfter reference child
  | replace old child => doc.replace old child
  | remove id => doc.remove id
  | detach id => .ok (doc.detach id)
  | importFrom source id => (doc.importFrom source id).map Prod.fst
  | setAttribute id name value => doc.setAttribute id name value
  | removeAttribute id name => .ok (doc.removeAttribute id name).1
  | declareNamespace id qualifier uri => doc.declareNamespace id qualifier uri
  | edit edits => (doc.edit edits).map Prod.fst

/-- A change that cannot be made leaves the document as it is. -/
def apply (change : Change) (doc : Document) : Document :=
  match change.make doc with
  | .ok new => new
  | .error _ => doc

end Change

/-- Documents that are empty or read, changed any number of times. Nodes are copied from documents of
the same kind. -/
inductive Document.Reachable : Document → Prop
  | empty : Document.empty.Reachable
  | parse {markup : String} {doc : Document} (h : Document.parse markup = .ok doc) : doc.Reachable
  | change {doc : Document} (h : doc.Reachable) (change : Change)
    (hs : ∀ source id, change = .importFrom source id → source.Reachable) :
    (change.apply doc).Reachable

namespace Forest

variable {doc new : Document} {kids : NodeId → List NodeId}

/-- An element is written, if the node is one. -/
theorem exists_writeElement (h : Forest doc kids) {id : NodeId} {f : Element → Element}
    (ho : (doc.requireElement id >>= fun _ => .ok (doc.updateElement id f)) = .ok new) :
    ∃ kids, Forest new kids := by
  cases hr : doc.requireElement id with
  | error e => simp [hr, bind, Except.bind] at ho
  | ok =>
    simp only [hr, bind, Except.bind, Except.ok.injEq] at ho
    exact ⟨kids, ho ▸ h.updateElement id f⟩

theorem perform (h : Forest doc kids) (edits : List NamespaceEdit) :
    Forest (edits.foldl NamespaceEdit.perform doc) kids := by
  induction edits generalizing doc with
  | nil => exact h
  | cons edit edits ih => exact ih (h.updateElement edit.element edit.onElement)

theorem exists_edit (h : Forest doc kids) {edits : List NamespaceEdit} {count : Nat}
    (ho : doc.edit edits = .ok (new, count)) : ∃ kids, Forest new kids := by
  unfold Document.edit at ho
  cases hc : edits.forM (NamespaceEdit.check doc) with
  | error e => simp [hc, bind, Except.bind] at ho
  | ok =>
    simp only [hc, bind, Except.bind, pure, Except.pure, Except.ok.injEq, Prod.mk.injEq] at ho
    exact ⟨kids, ho.1 ▸ h.perform edits⟩

/-- Every change keeps a document a forest. -/
theorem exists_make (h : Forest doc kids) {change : Change}
    (hs : ∀ source id, change = .importFrom source id → ∃ kids, Forest source kids)
    (ho : change.make doc = .ok new) : ∃ kids, Forest new kids := by
  cases change with
  | create payload => exact ⟨kids, Except.ok.inj ho ▸ h.create payload⟩
  | append parent child => exact ⟨_, h.append ho⟩
  | prepend parent child => exact h.exists_prepend ho
  | insertBefore reference child => exact h.exists_insertBefore ho
  | insertAfter reference child => exact h.exists_insertAfter ho
  | replace old child => exact h.exists_replace ho
  | remove id => exact h.exists_remove ho
  | detach id => exact ⟨_, Except.ok.inj ho ▸ h.detach id⟩
  | importFrom source id =>
    obtain ⟨sourceKids, hsource⟩ := hs source id rfl
    cases hi : doc.importFrom source id with
    | error e => simp [Change.make, hi, Except.map] at ho
    | ok copied =>
      simp only [Change.make, hi, Except.map, Except.ok.injEq] at ho
      obtain ⟨kids', hkids, -⟩ := h.exists_importFrom hsource hi
      exact ho ▸ ⟨kids', hkids⟩
  | setAttribute id name value => exact h.exists_writeElement ho
  | removeAttribute id name => exact ⟨kids, Except.ok.inj ho ▸ h.updateElement id _⟩
  | declareNamespace id qualifier uri => exact h.exists_writeElement ho
  | edit edits =>
    cases he : doc.edit edits with
    | error e => simp [Change.make, he, Except.map] at ho
    | ok made =>
      simp only [Change.make, he, Except.map, Except.ok.injEq] at ho
      exact ho ▸ h.exists_edit he

theorem exists_apply (h : Forest doc kids) {change : Change}
    (hs : ∀ source id, change = .importFrom source id → ∃ kids, Forest source kids) :
    ∃ kids, Forest (change.apply doc) kids := by
  unfold Change.apply
  cases hm : change.make doc with
  | ok new => exact h.exists_make hs hm
  | error e => exact ⟨kids, h⟩

end Forest

namespace Document.Reachable

variable {doc : Document}

theorem exists_forest (h : doc.Reachable) : ∃ kids, Forest doc kids := by
  induction h with
  | empty => exact ⟨_, Forest.empty⟩
  | parse hp => exact Forest.exists_parse hp
  | change _ change _ ih ihs =>
    obtain ⟨kids, hk⟩ := ih
    exact hk.exists_apply ihs

/-- A change that takes nothing from another document. -/
theorem change_alone (change : Change) (h : doc.Reachable)
    (hn : ∀ source id, change ≠ .importFrom source id) : (change.apply doc).Reachable :=
  h.change change fun source id he => absurd he (hn source id)

/-- The links of a reachable document describe a forest, whose children are those that the links
give. -/
theorem forest (h : doc.Reachable) : Forest doc doc.children := by
  obtain ⟨kids, hk⟩ := h.exists_forest
  exact hk.self

/-- In every reachable document no node is above itself, and the six links of each node agree: the
chain from the first child over next siblings and the chain from the last child over previous ones
visit the same nodes in opposite directions, each once, namely those whose parent it is. -/
theorem links_agree (h : doc.Reachable) :
    Forest doc doc.children ∧ ∀ id, doc.lastChild id = (doc.children id).getLast? :=
  ⟨h.forest, h.forest.lastChild_eq⟩

end Document.Reachable

def movedOut : Document :=
  (Change.insertBefore 1 2).apply ((Change.append 1 2).apply ((Change.append 0 1).apply
    ((Change.create (.element { name := "b" })).apply
      ((Change.create (.element { name := "a" })).apply .empty))))

theorem reachable_movedOut : movedOut.Reachable := by
  refine .change_alone _ ?_ (by simp)
  refine .change_alone _ ?_ (by simp)
  refine .change_alone _ ?_ (by simp)
  refine .change_alone _ ?_ (by simp)
  exact .change_alone _ .empty (by simp)

/-- The element that was below the other one is now its sibling. -/
theorem links_agree_movedOut : movedOut.Reachable ∧ movedOut.children 0 = [2, 1] ∧
    Forest movedOut movedOut.children ∧
    ∀ id, movedOut.lastChild id = (movedOut.children id).getLast? :=
  ⟨reachable_movedOut, by decide, Document.Reachable.links_agree reachable_movedOut⟩

end MarkupQuery.Tree
