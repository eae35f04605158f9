import MarkupQuery.Tree.Payload

namespace MarkupQuery.Tree

/-- The place of a node in its document, in the order of creation. -/
abbrev NodeId := Nat

def NodeId.number (id : NodeId) : Nat := id + 1

structure Node where
  payload : Payload
  parent : Option NodeId := none
  firstChild : Option NodeId := none
  lastChild : Option NodeId := none
  previous : Option NodeId := none
  next : Option NodeId := none
deriving DecidableEq, Repr, Inhabited

/-- A mutable tree of nodes. Nodes are never given up: one that is removed is only unlinked, so an
id stays valid for as long as the document exists. -/
structure Document where
  nodes : Array Node
deriving Repr

namespace Document

def empty : Document := ⟨#[{ payload := .document }]⟩

instance : Inhabited Document := ⟨empty⟩

def root : NodeId := 0

def size (doc : Document) : Nat := doc.nodes.size

def contains (doc : Document) (id : NodeId) : Bool := id < doc.size

def node (doc : Document) (id : NodeId) : Node := doc.nodes.getD id { payload := .document }

def payload (doc : Document) (id : NodeId) : Payload := (doc.node id).payload

def element? (doc : Document) (id : NodeId) : Option Element := (doc.payload id).element?

def isElement (doc : Document) (id : NodeId) : Bool := (doc.payload id).isElement

def parent (doc : Document) (id : NodeId) : Option NodeId := (doc.node id).parent

def firstChild (doc : Document) (id : NodeId) : Option NodeId := (doc.node id).firstChild

def lastChild (doc : Document) (id : NodeId) : Option NodeId := (doc.node id).lastChild

def previous (doc : Document) (id : NodeId) : Option NodeId := (doc.node id).previous

def next (doc : Document) (id : NodeId) : Option NodeId := (doc.node id).next

def update (doc : Document) (id : NodeId) (f : Node → Node) : Document :=
  ⟨doc.nodes.modify id f⟩

def updateElement (doc : Document) (id : NodeId) (f : Element → Element) : Document :=
  doc.update id fun n =>
    match n.payload with
    | .element e => { n with payload := .element (f e) }
    | _ => n

def create (doc : Document) (payload : Payload) : Document × NodeId :=
  (⟨doc.nodes.push { payload }⟩, doc.size)

@[simp] theorem size_update (doc : Document) (id : NodeId) (f : Node → Node) :
    (doc.update id f).size = doc.size := by
  simp [update, size]

theorem node_update (doc : Document) (id other : NodeId) (f : Node → Node)
    (h : id < doc.size) :
    (doc.update id f).node other = if other = id then f (doc.node id) else doc.node other := by
  simp only [update, node, Array.getD_eq_getD_getElem?, Array.getElem?_modify]
  split
  · rename_i hid
    subst hid
    have h' : id < doc.nodes.size := h
    simp [h']
  · rename_i hid
    simp [Ne.symm hid]

@[simp] theorem size_create (doc : Document) (payload : Payload) :
    (doc.create payload).1.size = doc.size + 1 := by
  simp [create, size]

end Document

end MarkupQuery.Tree
