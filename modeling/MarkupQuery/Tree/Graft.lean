import MarkupQuery.Tree.Mutation
import MarkupQuery.Tree.Undeclared

namespace MarkupQuery.Tree.Document

mutual

/-- Adds a tree by itself, unlinked, each parent created before its children. -/
def graft (doc : Document) : Subtree → Document × NodeId
  | .mk payload children =>
    let (doc, id) := doc.create payload
    (graftBelow doc id children, id)

def graftBelow (doc : Document) (parent : NodeId) : List Subtree → Document
  | [] => doc
  | tree :: rest =>
    let (doc, id) := doc.graft tree
    graftBelow (doc.linkLast parent id) parent rest

end

def subtreeUpTo (doc : Document) : Nat → NodeId → Subtree
  | 0, id => .mk (doc.payload id) []
  | depth + 1, id => .mk (doc.payload id) ((doc.children id).map (doc.subtreeUpTo depth))

def subtreeAt (doc : Document) (id : NodeId) : Subtree := doc.subtreeUpTo doc.size id

def ofSubtrees (trees : List Subtree) : Document := empty.graftBelow root trees

/-- The node to copy for `id`: for the document node the element below it. -/
def importTop (source : Document) (id : NodeId) : Except Error NodeId :=
  if !source.contains id then .error (.unknownNode id)
  else match source.payload id with
    | .document =>
      match source.rootElement? with
      | some top => .ok top
      | none => .error (.hierarchy .emptyImport)
    | _ => .ok id

def Subtree.declaring (more : List Declaration) : Subtree → Subtree
  | .mk (.element e) children =>
    .mk (.element { e with declarations := e.declarations ++ more }) children
  | tree => tree

/-- What is at `id` and below, with the declarations it needs to stand by itself. -/
def portableSubtree (source : Document) (id : NodeId) : Subtree :=
  Subtree.declaring (source.undeclared id) (source.subtreeAt id)

def importFrom (doc source : Document) (id : NodeId) : Except Error (Document × NodeId) := do
  let top ← source.importTop id
  pure (doc.graft (source.portableSubtree top))

end MarkupQuery.Tree.Document
