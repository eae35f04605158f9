import MarkupQuery.Tree.Error
import MarkupQuery.Tree.Names

namespace MarkupQuery.Tree.Document

/-!
Moving nodes. Every operation first checks that the result is a tree and then rewrites links, which
cannot fail.
-/

/-- Links `before` and `after` as neighbours below `parent`; a missing neighbour makes the other
one the first or last child. -/
def joinNeighbours (doc : Document) (parent : NodeId) (before after : Option NodeId) : Document :=
  let doc := match before with
    | some b => doc.update b fun n => { n with next := after }
    | none => doc.update parent fun n => { n with firstChild := after }
  match after with
  | some a => doc.update a fun n => { n with previous := before }
  | none => doc.update parent fun n => { n with lastChild := before }

/-- Unlinks a node from its parent and siblings; a node without parent stays as it is. -/
def detach (doc : Document) (id : NodeId) : Document :=
  match doc.parent id with
  | none => doc
  | some parent =>
    (doc.joinNeighbours parent (doc.previous id) (doc.next id)).update id fun n =>
      { n with parent := none, previous := none, next := none }

def linkLast (doc : Document) (parent child : NodeId) : Document :=
  let last := doc.lastChild parent
  let doc := doc.update child fun n => { n with parent := some parent, previous := last }
  let doc := match last with
    | some id => doc.update id fun n => { n with next := some child }
    | none => doc.update parent fun n => { n with firstChild := some child }
  doc.update parent fun n => { n with lastChild := some child }

def linkBefore (doc : Document) (parent reference child : NodeId) : Document :=
  let before := doc.previous reference
  let doc := doc.update child fun n =>
    { n with parent := some parent, previous := before, next := some reference }
  let doc := match before with
    | some id => doc.update id fun n => { n with next := some child }
    | none => doc.update parent fun n => { n with firstChild := some child }
  doc.update reference fun n => { n with previous := some child }

def checkInsertion (doc : Document) (parent child : NodeId) : Except Error Unit :=
  if !doc.contains parent then .error (.unknownNode parent)
  else if !doc.contains child then .error (.unknownNode child)
  else if !(doc.payload parent).mayHaveChildren then .error (.hierarchy (.childless parent))
  else if doc.payload child == .document then .error (.hierarchy .documentNode)
  else if (doc.ancestors parent).contains child then
    .error (.hierarchy (.ancestor child parent))
  else .ok ()

def requireParent (doc : Document) (id : NodeId) : Except Error NodeId :=
  match doc.parent id with
  | some parent => .ok parent
  | none => .error (.hierarchy (.noParent id))

def append (doc : Document) (parent child : NodeId) : Except Error Document := do
  doc.checkInsertion parent child
  pure ((doc.detach child).linkLast parent child)

def insertBefore (doc : Document) (reference child : NodeId) : Except Error Document :=
  if reference = child then .ok doc
  else do
    let parent ← doc.requireParent reference
    doc.checkInsertion parent child
    pure ((doc.detach child).linkBefore parent reference child)

def insertAfter (doc : Document) (reference child : NodeId) : Except Error Document :=
  match doc.next reference with
  | some sibling => doc.insertBefore sibling child
  | none => do
    let parent ← doc.requireParent reference
    doc.append parent child

def prepend (doc : Document) (parent child : NodeId) : Except Error Document :=
  match doc.firstChild parent with
  | some first => doc.insertBefore first child
  | none => doc.append parent child

def replace (doc : Document) (old child : NodeId) : Except Error Document :=
  if old = child then .ok doc
  else do
    let doc ← doc.insertBefore old child
    pure (doc.detach old)

def remove (doc : Document) (id : NodeId) : Except Error Document :=
  if !doc.contains id then .error (.unknownNode id)
  else do
    let _ ← doc.requireParent id
    pure (doc.detach id)

/-- Sets the value of the attribute of that name in no namespace, adding it if there is none. -/
def putAttribute (name value : String) : List Attribute → List Attribute
  | [] => [{ name, value }]
  | a :: rest =>
    if a.namespaceUri.isNone && a.name == name then { a with value } :: rest
    else a :: putAttribute name value rest

def putDeclaration (qualifier : Option String) (uri : String) :
    List Declaration → List Declaration
  | [] => [⟨qualifier, uri⟩]
  | d :: rest =>
    if d.qualifier = qualifier then { d with uri } :: rest
    else d :: putDeclaration qualifier uri rest

def requireElement (doc : Document) (id : NodeId) : Except Error Unit :=
  if doc.isElement id then .ok () else .error (.notAnElement id)

def setAttribute (doc : Document) (id : NodeId) (name value : String) :
    Except Error Document := do
  doc.requireElement id
  pure (doc.updateElement id fun e =>
    { e with attributes := putAttribute name value e.attributes })

def removeAttribute (doc : Document) (id : NodeId) (name : String) : Document × Bool :=
  let found := (doc.attributes id).any fun a => a.qualifiedName == name
  (doc.updateElement id fun e =>
    { e with attributes := e.attributes.filter fun a => a.qualifiedName != name }, found)

def declareNamespace (doc : Document) (id : NodeId) (qualifier : Option String) (uri : String) :
    Except Error Document := do
  doc.requireElement id
  pure (doc.updateElement id fun e =>
    { e with declarations := putDeclaration qualifier uri e.declarations })

end MarkupQuery.Tree.Document
