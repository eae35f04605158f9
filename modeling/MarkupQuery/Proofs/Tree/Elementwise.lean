import MarkupQuery.Proofs.Tree.Growth

namespace MarkupQuery.Tree

def Document.mapElements (f : Element → Element) (doc : Document) : Document :=
  ⟨doc.nodes.map fun n => { n with payload := n.payload.mapElement f }⟩

mutual

def Subtree.mapElements (f : Element → Element) : Subtree → Subtree
  | .mk payload children => .mk (payload.mapElement f) (mapAllElements f children)

def Subtree.mapAllElements (f : Element → Element) : List Subtree → List Subtree
  | [] => []
  | tree :: rest => tree.mapElements f :: mapAllElements f rest

end

@[simp] theorem Subtree.mapElements_mk (f : Element → Element) (payload : Payload)
    (children : List Subtree) : (Subtree.mk payload children).mapElements f =
      .mk (payload.mapElement f) (children.map (mapElements f)) := by
  rw [mapElements]
  congr 1
  induction children with
  | nil => rfl
  | cons tree rest ih => rw [mapAllElements, ih, List.map_cons]

namespace Document

variable {f : Element → Element} {doc other : Document}

@[simp] theorem size_mapElements (f : Element → Element) (doc : Document) :
    (doc.mapElements f).size = doc.size := Array.size_map ..

theorem node_mapElements (f : Element → Element) (doc : Document) (id : NodeId) :
    (doc.mapElements f).node id =
      { doc.node id with payload := (doc.payload id).mapElement f } := by
  simp only [mapElements, payload, node, Array.getD_eq_getD_getElem?, Array.getElem?_map]
  cases doc.nodes[id]? <;> rfl

theorem payload_mapElements (f : Element → Element) (doc : Document) (id : NodeId) :
    (doc.mapElements f).payload id = (doc.payload id).mapElement f :=
  congrArg Node.payload (node_mapElements f doc id)

section Walks

theorem sameLinks_mapElements (f : Element → Element) (doc : Document) :
    doc.SameLinks (doc.mapElements f) := .of_node (node_mapElements f doc)

theorem parent_mapElements (f : Element → Element) (doc : Document) :
    (doc.mapElements f).parent = doc.parent := (sameLinks_mapElements f doc).parent_eq

theorem firstChild_mapElements (f : Element → Element) (doc : Document) :
    (doc.mapElements f).firstChild = doc.firstChild := (sameLinks_mapElements f doc).firstChild_eq

theorem lastChild_mapElements (f : Element → Element) (doc : Document) :
    (doc.mapElements f).lastChild = doc.lastChild := (sameLinks_mapElements f doc).lastChild_eq

theorem next_mapElements (f : Element → Element) (doc : Document) :
    (doc.mapElements f).next = doc.next := (sameLinks_mapElements f doc).next_eq

theorem isElement_mapElements (f : Element → Element) (doc : Document) :
    (doc.mapElements f).isElement = doc.isElement := by
  funext id
  rw [isElement, payload_mapElements, isElement, Payload.isElement_mapElement]

theorem children_mapElements (f : Element → Element) (doc : Document) :
    (doc.mapElements f).children = doc.children :=
  (sameLinks_mapElements f doc).children_eq (size_mapElements f doc)

theorem ancestors_mapElements (f : Element → Element) (doc : Document) :
    (doc.mapElements f).ancestors = doc.ancestors :=
  (sameLinks_mapElements f doc).ancestors_eq (size_mapElements f doc)

theorem afterSubtree_mapElements (f : Element → Element) (doc : Document) (top : NodeId)
    (fuel : Nat) : (doc.mapElements f).afterSubtree top fuel = doc.afterSubtree top fuel := by
  induction fuel with
  | zero => rfl
  | succ fuel ih =>
    funext id
    simp only [afterSubtree, next_mapElements, parent_mapElements, ih]

theorem descendants_mapElements (f : Element → Element) (doc : Document) :
    (doc.mapElements f).descendants = doc.descendants := by
  funext id
  have hnext : (doc.mapElements f).preorderNext id = doc.preorderNext id := by
    funext below
    simp only [preorderNext, firstChild_mapElements, size_mapElements, afterSubtree_mapElements]
  rw [descendants, descendants, hnext, firstChild_mapElements, size_mapElements]

theorem rootElement?_mapElements (f : Element → Element) (doc : Document) :
    (doc.mapElements f).rootElement? = doc.rootElement? := by
  rw [rootElement?, rootElement?, children_mapElements, isElement_mapElements]

end Walks

section Building

theorem mapElements_create (f : Element → Element) (doc : Document) (payload : Payload) :
    (doc.create payload).1.mapElements f =
      ((doc.mapElements f).create (payload.mapElement f)).1 := by
  simp [create, mapElements, Array.map_push]

/-- What only changes links does the same for other elements. -/
theorem mapElements_update {g : Node → Node}
    (hg : ∀ n p, { g n with payload := p } = g { n with payload := p })
    (hp : ∀ n, (g n).payload = n.payload) (f : Element → Element) (doc : Document) (id : NodeId) :
    (doc.update id g).mapElements f = (doc.mapElements f).update id g := by
  simp only [update, mapElements, mk.injEq]
  refine Array.ext_getElem? fun i => ?_
  simp only [Array.getElem?_map, Array.getElem?_modify]
  split <;> cases doc.nodes[i]? <;> simp [hp, hg]

theorem mapElements_linkLast (f : Element → Element) (doc : Document) (parent child : NodeId) :
    (doc.linkLast parent child).mapElements f = (doc.mapElements f).linkLast parent child := by
  unfold linkLast
  rw [lastChild_mapElements]
  dsimp only
  split
  all_goals
    rw [mapElements_update, mapElements_update, mapElements_update] <;> exact fun _ => by simp

mutual

theorem mapElements_graft (f : Element → Element) : ∀ (tree : Subtree) (doc : Document),
    (doc.graft tree).1.mapElements f = ((doc.mapElements f).graft (tree.mapElements f)).1 ∧
      ((doc.mapElements f).graft (tree.mapElements f)).2 = (doc.graft tree).2
  | .mk payload children, doc => by
    have hbelow := mapElements_graftBelow f children (doc.create payload).1 doc.size
    rw [mapElements_create] at hbelow
    rw [Subtree.mapElements_mk]
    exact ⟨by simpa [graft, create] using hbelow, size_mapElements f doc⟩

theorem mapElements_graftBelow (f : Element → Element) : ∀ (trees : List Subtree)
    (doc : Document) (parent : NodeId), (doc.graftBelow parent trees).mapElements f =
      (doc.mapElements f).graftBelow parent (trees.map (Subtree.mapElements f))
  | [], _, _ => rfl
  | tree :: rest, doc, parent => by
    obtain ⟨htree, hid⟩ := mapElements_graft f tree doc
    have hrest := mapElements_graftBelow f rest
      ((doc.graft tree).1.linkLast parent (doc.graft tree).2) parent
    rw [mapElements_linkLast, htree] at hrest
    simpa [graftBelow, hid] using hrest

end

theorem mapElements_ofSubtrees (f : Element → Element) (trees : List Subtree) :
    (ofSubtrees trees).mapElements f = ofSubtrees (trees.map (Subtree.mapElements f)) := by
  have hempty : empty.mapElements f = empty := by
    simp [empty, mapElements, Payload.mapElement]
  rw [ofSubtrees, ofSubtrees, mapElements_graftBelow, hempty]

end Building

end Document

/-!
Documents without prefixes and declarations. What is left are the links of all nodes and what names,
attributes and texts mean; a document that is built from trees has the nodes and links that their
shape gives it.
-/

def Attribute.bare (a : Attribute) : Attribute := { a with qualifier := none }

/-- An element without prefixes and declarations: its local name, its namespace, and local name,
namespace and value of each of its attributes. -/
def Element.bare (e : Element) : Element where
  name := e.name
  namespaceUri := e.namespaceUri
  attributes := e.attributes.map Attribute.bare

def Payload.bare (p : Payload) : Payload := p.mapElement Element.bare

def Node.bare (n : Node) : Node := { n with payload := n.payload.bare }

def Document.bare (doc : Document) : Document := ⟨doc.nodes.map Node.bare⟩

mutual

def Subtree.bare : Subtree → Subtree
  | .mk payload children => .mk payload.bare (bareAll children)

def Subtree.bareAll : List Subtree → List Subtree
  | [] => []
  | tree :: rest => tree.bare :: bareAll rest

end

theorem Document.bare_eq (doc : Document) : doc.bare = doc.mapElements Element.bare := rfl

mutual

theorem Subtree.bare_eq : ∀ tree : Subtree, tree.bare = tree.mapElements Element.bare
  | .mk payload children => by
    rw [bare, mapElements, bareAll_eq children]
    rfl

theorem Subtree.bareAll_eq : ∀ trees : List Subtree, bareAll trees = mapAllElements Element.bare trees
  | [] => rfl
  | tree :: rest => by rw [bareAll, mapAllElements, bare_eq tree, bareAll_eq rest]

end

@[simp] theorem Subtree.bare_mk (payload : Payload) (children : List Subtree) :
    (Subtree.mk payload children).bare = .mk payload.bare (children.map bare) := by
  rw [bare_eq, mapElements_mk, ← funext bare_eq]
  rfl

namespace Document

@[simp] theorem size_bare (doc : Document) : doc.bare.size = doc.size :=
  size_mapElements Element.bare doc

theorem payload_bare (doc : Document) (id : NodeId) :
    doc.bare.payload id = (doc.payload id).bare := payload_mapElements Element.bare doc id

theorem attributes_bare (doc : Document) (id : NodeId) :
    doc.bare.attributes id = (doc.attributes id).map Attribute.bare := by
  rw [attributes, attributes, element?, element?, payload_bare, Payload.bare,
    Payload.element?_mapElement]
  cases (doc.payload id).element? <;> rfl

/-- The shape of the trees and what their names mean make up the document that they are built into,
prefixes and declarations apart. -/
theorem bare_ofSubtrees (trees : List Subtree) :
    (ofSubtrees trees).bare = ofSubtrees (trees.map Subtree.bare) := by
  rw [bare_eq, mapElements_ofSubtrees, ← funext Subtree.bare_eq]

end Document

end MarkupQuery.Tree
