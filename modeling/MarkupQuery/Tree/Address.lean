import MarkupQuery.Tree.Names

namespace MarkupQuery.Tree

inductive SegmentTest where
  | element (qualifier : Option String) (name : String) (namespaceUri : Option String)
  | attribute (qualifier : Option String) (name : String) (namespaceUri : Option String)
  | text
  | comment
  | instruction (target : String)
deriving DecidableEq, Repr

/-- One step down the tree. The position, counted from 1, is there only if several siblings pass
the test. -/
structure Segment where
  test : SegmentTest
  position : Option Nat := none
deriving DecidableEq, Repr

def SegmentTest.namespaceUri : SegmentTest → Option String
  | .element _ _ uri | .attribute _ _ uri => uri
  | _ => none

def SegmentTest.qualifier : SegmentTest → Option String
  | .element qualifier _ _ | .attribute qualifier _ _ => qualifier
  | _ => none

def SegmentTest.withQualifier (qualifier : Option String) : SegmentTest → SegmentTest
  | .element _ name uri => .element qualifier name uri
  | .attribute _ name uri => .attribute qualifier name uri
  | test => test

def SegmentTest.render : SegmentTest → String
  | .element qualifier name _ => qualify qualifier name
  | .attribute qualifier name _ => "@" ++ qualify qualifier name
  | .text => "text()"
  | .comment => "comment()"
  | .instruction target => "processing-instruction('" ++ target ++ "')"

def Segment.render (segment : Segment) : String :=
  segment.test.render ++
    match segment.position with
    | some position => "[" ++ toString position ++ "]"
    | none => ""

/-- An address as a query; no segments stand for the document node. -/
def renderAddress (segments : List Segment) : String :=
  if segments.isEmpty then "/"
  else String.join (segments.map fun segment => "/" ++ segment.render)

namespace Document

def segmentTest? : Payload → Option SegmentTest
  | .document => none
  | .element e => some (.element e.qualifier e.name e.namespaceUri)
  | .text _ => some .text
  | .comment _ => some .comment
  | .instruction target _ => some (.instruction target)

def isAlike (a b : Payload) : Bool :=
  match segmentTest? a, segmentTest? b with
  | some s, some t => s.withQualifier none == t.withQualifier none
  | _, _ => false

/-- The position of a node among its siblings of the same test, if there are others. -/
def position? (doc : Document) (id : NodeId) : Option Nat := do
  let parent ← doc.parent id
  let alike := (doc.children parent).filter fun sibling =>
    isAlike (doc.payload id) (doc.payload sibling)
  if alike.length > 1 then (alike.idxOf? id).map (· + 1) else none

def segment? (doc : Document) (id : NodeId) : Option Segment :=
  (segmentTest? (doc.payload id)).map fun test => ⟨test, doc.position? id⟩

def attributeSegment? (doc : Document) (id : NodeId) (index : Nat) : Option Segment :=
  ((doc.attributes id)[index]?).map fun a =>
    { test := .attribute a.qualifier a.name a.namespaceUri }

def address (doc : Document) (id : NodeId) (index : Option Nat) : List Segment :=
  ((doc.ancestors id).filterMap doc.segment?).reverse ++
    (index.bind (doc.attributeSegment? id)).toList

def path (doc : Document) (id : NodeId) : String := renderAddress (doc.address id none)

end Document

end MarkupQuery.Tree
