import MarkupQuery.Tree.Document

namespace MarkupQuery.Tree

def follow (link : NodeId → Option NodeId) : Nat → Option NodeId → List NodeId
  | 0, _ => []
  | _ + 1, none => []
  | fuel + 1, some id => id :: follow link fuel (link id)

namespace Document

def children (doc : Document) (id : NodeId) : List NodeId :=
  follow doc.next doc.size (doc.firstChild id)

def ancestors (doc : Document) (id : NodeId) : List NodeId :=
  follow doc.parent doc.size (some id)

/-- The next sibling of a node or of its nearest ancestor that has one, strictly below `top`. -/
def afterSubtree (doc : Document) (top : NodeId) : Nat → NodeId → Option NodeId
  | 0, _ => none
  | fuel + 1, id =>
    if id = top then none
    else match doc.next id with
      | some sibling => some sibling
      | none => (doc.parent id).bind (doc.afterSubtree top fuel)

def preorderNext (doc : Document) (top id : NodeId) : Option NodeId :=
  match doc.firstChild id with
  | some child => some child
  | none => doc.afterSubtree top (doc.size + 1) id

def descendants (doc : Document) (id : NodeId) : List NodeId :=
  follow (doc.preorderNext id) doc.size (doc.firstChild id)

def subtree (doc : Document) (id : NodeId) : List NodeId := id :: doc.descendants id

def isAttached (doc : Document) (id : NodeId) : Bool := (doc.ancestors id).contains root

def rootElement? (doc : Document) : Option NodeId :=
  (doc.children root).find? doc.isElement

/-- The rank of nodes that are not attached: after every other. -/
def detachedRank : Nat := 0xFFFFFFFF

def ranks (doc : Document) : Array Nat :=
  (doc.subtree root).zipIdx.foldl (fun ranks (id, position) => ranks.setIfInBounds id position)
    (Array.replicate doc.size detachedRank)

def rank (doc : Document) (id : NodeId) : Nat := doc.ranks.getD id detachedRank

end Document

end MarkupQuery.Tree
