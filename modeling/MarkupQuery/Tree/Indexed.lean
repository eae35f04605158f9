import MarkupQuery.Tree.Graft
import MarkupQuery.Tree.NamespaceEdit

namespace MarkupQuery.Tree

/-- A document with the positions of its nodes, which are worked out when they are first asked for
and kept until the document is written to. -/
structure Indexed where
  document : Document
  positions : Option (Array Nat) := none

namespace Indexed

/-- For every node its position in 32 bits; a position beyond them is that of a detached node. -/
def positionsOf (doc : Document) : Array Nat := doc.ranks.map (min · Document.detachedRank)

def position (s : Indexed) (id : NodeId) : Nat × Indexed :=
  let table := s.positions.getD (positionsOf s.document)
  (table.getD id Document.detachedRank, { s with positions := some table })

/-!
Access to nodes. Whoever borrows a node to write to it gives the positions up, even if nothing is
written.
-/

def borrow (s : Indexed) : Indexed := { s with positions := none }

def write (s : Indexed) (id : NodeId) (f : Node → Node) : Indexed :=
  { s.borrow with document := s.document.update id f }

def writeElement (s : Indexed) (id : NodeId) (f : Element → Element) : Indexed :=
  s.write id fun n =>
    match n.payload with
    | .element e => { n with payload := .element (f e) }
    | _ => n

def create (s : Indexed) (payload : Payload) : Indexed × NodeId :=
  ({ s.borrow with document := (s.document.create payload).1 }, s.document.size)

/-! Links, written one after the other. -/

def joinNeighbours (s : Indexed) (parent : NodeId) (before after : Option NodeId) : Indexed :=
  let s := match before with
    | some b => s.write b fun n => { n with next := after }
    | none => s.write parent fun n => { n with firstChild := after }
  match after with
  | some a => s.write a fun n => { n with previous := before }
  | none => s.write parent fun n => { n with lastChild := before }

def detach (s : Indexed) (id : NodeId) : Indexed :=
  match s.document.parent id with
  | none => s
  | some parent =>
    (s.joinNeighbours parent (s.document.previous id) (s.document.next id)).write id fun n =>
      { n with parent := none, previous := none, next := none }

def linkLast (s : Indexed) (parent child : NodeId) : Indexed :=
  let last := s.document.lastChild parent
  let s := s.write child fun n => { n with parent := some parent, previous := last }
  let s := match last with
    | some id => s.write id fun n => { n with next := some child }
    | none => s.write parent fun n => { n with firstChild := some child }
  s.write parent fun n => { n with lastChild := some child }

def linkBefore (s : Indexed) (parent reference child : NodeId) : Indexed :=
  let before := s.document.previous reference
  let s := s.write child fun n =>
    { n with parent := some parent, previous := before, next := some reference }
  let s := match before with
    | some id => s.write id fun n => { n with next := some child }
    | none => s.write parent fun n => { n with firstChild := some child }
  s.write reference fun n => { n with previous := some child }

/-! Calls that may fail. What they did before stays done. -/

abbrev Outcome := Except Error Unit × Indexed

def after (s : Indexed) (check : Except Error Unit) (next : Indexed → Outcome) : Outcome :=
  match check with
  | .ok () => next s
  | .error e => (.error e, s)

def append (s : Indexed) (parent child : NodeId) : Outcome :=
  s.after (s.document.checkInsertion parent child) fun s =>
    (.ok (), (s.detach child).linkLast parent child)

def insertBefore (s : Indexed) (reference child : NodeId) : Outcome :=
  if reference = child then (.ok (), s)
  else match s.document.requireParent reference with
    | .error e => (.error e, s)
    | .ok parent =>
      s.after (s.document.checkInsertion parent child) fun s =>
        (.ok (), (s.detach child).linkBefore parent reference child)

def insertAfter (s : Indexed) (reference child : NodeId) : Outcome :=
  match s.document.next reference with
  | some sibling => s.insertBefore sibling child
  | none =>
    match s.document.requireParent reference with
    | .error e => (.error e, s)
    | .ok parent => s.append parent child

def prepend (s : Indexed) (parent child : NodeId) : Outcome :=
  match s.document.firstChild parent with
  | some first => s.insertBefore first child
  | none => s.append parent child

def replace (s : Indexed) (old child : NodeId) : Outcome :=
  if old = child then (.ok (), s)
  else
    let (inserted, s) := s.insertBefore old child
    s.after inserted fun s => (.ok (), s.detach old)

def remove (s : Indexed) (id : NodeId) : Outcome :=
  if !s.document.contains id then (.error (.unknownNode id), s)
  else s.after ((s.document.requireParent id).map fun _ => ()) fun s => (.ok (), s.detach id)

/-- Whether the node is an element is seen once it is borrowed. -/
def setAttribute (s : Indexed) (id : NodeId) (name value : String) : Outcome :=
  s.borrow.after (s.document.requireElement id) fun s =>
    (.ok (), s.writeElement id fun e =>
      { e with attributes := Document.putAttribute name value e.attributes })

def removeAttribute (s : Indexed) (id : NodeId) (name : String) : Indexed :=
  s.writeElement id fun e =>
    { e with attributes := e.attributes.filter fun a => a.qualifiedName != name }

def declareNamespace (s : Indexed) (id : NodeId) (qualifier : Option String) (uri : String) :
    Outcome :=
  s.borrow.after (s.document.requireElement id) fun s =>
    (.ok (), s.writeElement id fun e =>
      { e with declarations := Document.putDeclaration qualifier uri e.declarations })

def edit (s : Indexed) (edits : List NamespaceEdit) : Outcome :=
  s.after (edits.forM (NamespaceEdit.check s.document)) fun s =>
    (.ok (), edits.foldl (fun s edit => s.writeElement edit.element edit.onElement) s)

mutual

def graft (s : Indexed) : Subtree → Indexed × NodeId
  | .mk payload children =>
    let (s, id) := s.create payload
    (graftBelow s id children, id)

def graftBelow (s : Indexed) (parent : NodeId) : List Subtree → Indexed
  | [] => s
  | tree :: rest =>
    let (s, id) := s.graft tree
    graftBelow (s.linkLast parent id) parent rest

end

def importFrom (s : Indexed) (source : Document) (id : NodeId) : Outcome :=
  match source.importTop id with
  | .ok top => (.ok (), (s.graft (source.portableSubtree top)).1)
  | .error e => (.error e, s)

end Indexed

end MarkupQuery.Tree
