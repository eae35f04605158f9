import MarkupQuery.Tree.Walk

namespace MarkupQuery.Tree.Document

/-- The local name of an element or the target of a processing instruction. -/
def localName? (doc : Document) (id : NodeId) : Option String :=
  match doc.payload id with
  | .element e => some e.name
  | .instruction target _ => some target
  | _ => none

def qualifier? (doc : Document) (id : NodeId) : Option String :=
  (doc.element? id).bind Element.qualifier

def namespaceUri? (doc : Document) (id : NodeId) : Option String :=
  (doc.element? id).bind Element.namespaceUri

def qualifiedName? (doc : Document) (id : NodeId) : Option String :=
  (doc.element? id).map Element.qualifiedName

def attributes (doc : Document) (id : NodeId) : List Attribute :=
  ((doc.element? id).map Element.attributes).getD []

def declarations (doc : Document) (id : NodeId) : List Declaration :=
  ((doc.element? id).map Element.declarations).getD []

def attribute? (doc : Document) (id : NodeId) (name : String) : Option String :=
  ((doc.attributes id).find? fun a => a.qualifiedName == name).map Attribute.value

def textOf : Payload → String
  | .text content => content
  | _ => ""

/-- All text below a node, or what a text, comment or processing instruction holds. -/
def textContent (doc : Document) (id : NodeId) : String :=
  match doc.payload id with
  | .text content | .comment content => content
  | .instruction _ data => data.getD ""
  | .element _ | .document =>
    String.join ((doc.descendants id).map fun below => textOf (doc.payload below))

def extendScope (scope : List Declaration) : List Declaration → List Declaration
  | [] => scope
  | d :: ds =>
    if scope.any fun known => known.qualifier == d.qualifier then extendScope scope ds
    else extendScope (scope ++ [d]) ds

/-- The declarations in force at a node, nearest first and one for each prefix. -/
def inScope (doc : Document) (id : NodeId) : List Declaration :=
  (doc.ancestors id).foldl (fun scope above => extendScope scope (doc.declarations above)) []

end MarkupQuery.Tree.Document
