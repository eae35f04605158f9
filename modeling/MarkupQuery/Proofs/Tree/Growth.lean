import MarkupQuery.Proofs.Tree.Insertion
import MarkupQuery.Tree.Graft
import MarkupQuery.Tree.NamespaceEdit

namespace MarkupQuery.Tree

def Payload.mapElement (f : Element → Element) : Payload → Payload
  | element e => element (f e)
  | payload => payload

namespace Payload

variable (f g : Element → Element) (p : Payload)

@[simp] theorem element?_mapElement : (p.mapElement f).element? = p.element?.map f := by
  cases p <;> rfl

@[simp] theorem isElement_mapElement : (p.mapElement f).isElement = p.isElement := by
  cases p <;> rfl

@[simp] theorem mayHaveChildren_mapElement :
    (p.mapElement f).mayHaveChildren = p.mayHaveChildren := by
  cases p <;> rfl

@[simp] theorem mapElement_eq_document : p.mapElement f = .document ↔ p = .document := by
  cases p <;> simp [mapElement]

theorem mapElement_eq_self (h : p.isElement = false) : p.mapElement f = p := by
  cases p with
  | element e => cases h
  | _ => rfl

@[simp] theorem mapElement_id : p.mapElement (fun e => e) = p := by
  cases p <;> rfl

theorem mapElement_mapElement :
    (p.mapElement f).mapElement g = p.mapElement fun e => g (f e) := by
  cases p <;> rfl

end Payload

/-- Only elements have children in a proper tree, and it contains no document node. -/
inductive Subtree.Proper : Subtree → Prop
  | mk {payload : Payload} {children : List Subtree} (hp : payload ≠ .document)
    (hc : children ≠ [] → payload.mayHaveChildren) (ht : ∀ tree ∈ children, tree.Proper) :
    (Subtree.mk payload children).Proper

theorem Subtree.Proper.leaf {payload : Payload} (hp : payload ≠ .document) :
    (Subtree.mk payload []).Proper := .mk hp (by simp) (by simp)

theorem Subtree.Proper.element {e : Element} {children : List Subtree}
    (h : ∀ tree ∈ children, tree.Proper) : (Subtree.mk (.element e) children).Proper :=
  .mk (by simp) (fun _ => rfl) h

namespace Document

/-- Both documents have the same links, though their nodes may hold something else. -/
def SameLinks (doc new : Document) : Prop :=
  ∀ x, new.node x = { doc.node x with payload := new.payload x }

namespace SameLinks

variable {doc new : Document}

theorem of_node {payload : NodeId → Payload}
    (h : ∀ x, new.node x = { doc.node x with payload := payload x }) : doc.SameLinks new := by
  intro x
  rw [Document.payload, h]

variable (h : doc.SameLinks new)
include h

theorem parent_eq : new.parent = doc.parent := by
  funext x
  rw [parent, h x]
  rfl

theorem childOf_eq : new.ChildOf = doc.ChildOf := by
  unfold ChildOf
  rw [h.parent_eq]

theorem next_eq : new.next = doc.next := by
  funext x
  rw [next, h x]
  rfl

theorem previous_eq : new.previous = doc.previous := by
  funext x
  rw [previous, h x]
  rfl

theorem firstChild_eq : new.firstChild = doc.firstChild := by
  funext x
  rw [firstChild, h x]
  rfl

theorem lastChild_eq : new.lastChild = doc.lastChild := by
  funext x
  rw [lastChild, h x]
  rfl

theorem children_eq (hsize : new.size = doc.size) : new.children = doc.children := by
  funext id
  rw [children, children, h.next_eq, h.firstChild_eq, hsize]

theorem ancestors_eq (hsize : new.size = doc.size) : new.ancestors = doc.ancestors := by
  funext id
  rw [ancestors, ancestors, h.parent_eq, hsize]

end SameLinks

theorem node_updateElement (doc : Document) (id x : NodeId) (f : Element → Element) :
    (doc.updateElement id f).node x = { doc.node x with
      payload := if x = id then (doc.payload x).mapElement f else doc.payload x } := by
  by_cases hid : id < doc.size
  · rw [updateElement, node_update_eq hid]
    unfold Document.payload Payload.mapElement
    split
    · split <;> simp_all
    · rfl
  · have hout : (doc.updateElement id f).node x = doc.node x := by
      simp only [updateElement, update, node, Array.getD_eq_getD_getElem?, Array.getElem?_modify]
      split
      · rename_i hx
        have hnone : doc.nodes[x]? = none := by
          rw [← hx]
          exact Array.getElem?_eq_none (Nat.le_of_not_lt hid)
        simp [hnone]
      · rfl
    rw [hout]
    by_cases hx : x = id
    · simp [hx, Document.payload, node_of_size_le (Nat.le_of_not_lt hid), Payload.mapElement]
    · simp [hx, Document.payload]

theorem sameLinks_updateElement (doc : Document) (id : NodeId) (f : Element → Element) :
    doc.SameLinks (doc.updateElement id f) := .of_node fun x => node_updateElement doc id x f

theorem element?_eq_some {doc : Document} {id : NodeId} {e : Element} :
    doc.element? id = some e ↔ doc.payload id = .element e := by
  rw [element?]
  cases doc.payload id <;> simp [Payload.element?]

theorem lt_size_of_isElement {doc : Document} {id : NodeId} (h : doc.isElement id) :
    id < doc.size := by
  by_contra hid
  simp [isElement, payload, node_of_size_le (Nat.le_of_not_lt hid), Payload.isElement,
    Payload.element?] at h

theorem mem_attributes {doc : Document} {id : NodeId} {a : Attribute} :
    a ∈ doc.attributes id ↔ ∃ e, doc.element? id = some e ∧ a ∈ e.attributes := by
  rw [attributes]
  cases doc.element? id <;> simp

theorem mem_declarations {doc : Document} {id : NodeId} {d : Declaration} :
    d ∈ doc.declarations id ↔ ∃ e, doc.element? id = some e ∧ d ∈ e.declarations := by
  rw [declarations]
  cases doc.element? id <;> simp

theorem element?_updateElement (doc : Document) (id x : NodeId) (f : Element → Element) :
    (doc.updateElement id f).element? x =
      if x = id then (doc.element? x).map f else doc.element? x := by
  rw [element?, payload, node_updateElement]
  split
  · exact Payload.element?_mapElement f _
  · rfl

@[simp] theorem size_updateElement (doc : Document) (id : NodeId) (f : Element → Element) :
    (doc.updateElement id f).size = doc.size := size_update doc id _

theorem node_create (doc : Document) (payload : Payload) (x : NodeId) :
    (doc.create payload).1.node x = if x = doc.size then { payload } else doc.node x := by
  simp only [create, node, size, Array.getD_eq_getD_getElem?, Array.getElem?_push]
  split <;> simp

theorem payload_create (doc : Document) (payload : Payload) (id : NodeId) :
    (doc.create payload).1.payload id = if id = doc.size then payload else doc.payload id := by
  rw [Document.payload, node_create]
  split <;> rfl

theorem parent_create (doc : Document) (payload : Payload) (id : NodeId) :
    (doc.create payload).1.parent id = if id = doc.size then none else doc.parent id := by
  rw [Document.parent, node_create]
  split <;> rfl

end Document

namespace Forest

open Document

variable {doc : Document} {kids : NodeId → List NodeId}

/-- The nodes may hold something else, as long as what has children may have them. -/
theorem of_sameLinks (h : Forest doc kids) {new : Document} (hl : doc.SameLinks new)
    (hdocument : ∀ id, new.payload id = .document → doc.parent id = none)
    (hleaf : ∀ id, (new.payload id).mayHaveChildren = false → kids id = [])
    (hsize : doc.size ≤ new.size) (hroot : new.payload Document.root = .document) :
    Forest new kids where
  acyclic := by
    unfold Document.Below
    rw [hl.childOf_eq]
    exact h.acyclic
  forward := by rw [hl.next_eq, hl.firstChild_eq]; exact h.forward
  backward := by rw [hl.previous_eq, hl.lastChild_eq]; exact h.backward
  nodup := h.nodup
  mem_kids := by rw [hl.parent_eq]; exact h.mem_kids
  orphan := by rw [hl.parent_eq, hl.next_eq, hl.previous_eq]; exact h.orphan
  document := by rw [hl.parent_eq]; exact hdocument
  leaf := hleaf
  child_lt := by
    rw [hl.parent_eq]
    exact fun child id hc => Nat.lt_of_lt_of_le (h.child_lt child id hc) hsize
  root_lt := Nat.lt_of_lt_of_le h.root_lt hsize
  root_payload := hroot

/-- Changing the contents of an element changes no link. -/
theorem updateElement (h : Forest doc kids) (id : NodeId) (f : Element → Element) :
    Forest (doc.updateElement id f) kids := by
  have hpayload : ∀ x, (doc.updateElement id f).payload x =
      if x = id then (doc.payload x).mapElement f else doc.payload x := by
    intro x
    rw [Document.payload, node_updateElement]
  have hdocument : ∀ x, (doc.updateElement id f).payload x = .document ↔
      doc.payload x = .document := by
    intro x
    rw [hpayload]
    split <;> simp
  have hkind : ∀ x, ((doc.updateElement id f).payload x).mayHaveChildren =
      (doc.payload x).mayHaveChildren := by
    intro x
    rw [hpayload]
    split <;> simp
  exact h.of_sameLinks (sameLinks_updateElement doc id f)
    (fun x hx => h.document x ((hdocument x).mp hx))
    (fun x hx => h.leaf x ((hkind x).symm.trans hx))
    (Nat.le_of_eq (size_updateElement doc id f).symm) ((hdocument _).mpr h.root_payload)

/-- A new node is linked to no other. -/
theorem create (h : Forest doc kids) (payload : Payload) :
    Forest (doc.create payload).1 kids := by
  -- beyond the end of the store every link is missing already
  have hlinks : ∀ x, (doc.create payload).1.node x = { doc.node x with
      payload := if x = doc.size then payload else doc.payload x } := by
    intro x
    rw [node_create]
    split
    · rename_i hx
      rw [hx, node_of_size_le (Nat.le_refl doc.size)]
    · rfl
  have hpayload : ∀ x, x ≠ doc.size → (doc.create payload).1.payload x = doc.payload x := by
    intro x hx
    rw [Document.payload, hlinks, if_neg hx]
  refine h.of_sameLinks (.of_node hlinks) (fun x hx => ?_) (fun x hx => ?_) (by simp) ?_
  · by_cases hs : x = doc.size
    · rw [hs, Document.parent, node_of_size_le (Nat.le_refl doc.size)]
    · exact h.document x (hpayload x hs ▸ hx)
  · by_cases hs : x = doc.size
    · exact h.kids_of_size_le (Nat.le_of_eq hs.symm)
    · exact h.leaf x (hpayload x hs ▸ hx)
  · rw [hpayload _ (Nat.ne_of_lt h.root_lt), h.root_payload]

end Forest

end MarkupQuery.Tree
