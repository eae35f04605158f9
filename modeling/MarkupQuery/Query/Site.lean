import MarkupQuery.Tree.Names

namespace MarkupQuery.Query

open MarkupQuery.Tree

/-- A node of a document, or with an index the attribute of that node. -/
structure Site where
  id : NodeId
  index : Option Nat := none
deriving DecidableEq, Repr, Inhabited

inductive Kind where
  | root
  | element
  | attribute
  | text
  | comment
  | instruction
deriving DecidableEq, Repr

structure WrittenName where
  qualifier : Option String
  localName : String
deriving DecidableEq, Repr

def WrittenName.text (name : WrittenName) : String := qualify name.qualifier name.localName

namespace Site

def document : Site := ⟨Document.root, none⟩

def node (id : NodeId) : Site := ⟨id, none⟩

def kind (doc : Document) (site : Site) : Kind :=
  if site.index.isSome then .attribute
  else match doc.payload site.id with
    | .document => .root
    | .element _ => .element
    | .text _ => .text
    | .comment _ => .comment
    | .instruction _ _ => .instruction

def attribute? (doc : Document) (site : Site) : Option Attribute :=
  site.index.bind fun i => (doc.attributes site.id)[i]?

def name? (doc : Document) (site : Site) : Option WrittenName :=
  if site.index.isSome then (site.attribute? doc).map fun a => ⟨a.qualifier, a.name⟩
  else match doc.payload site.id with
    | .element e => some ⟨e.qualifier, e.name⟩
    | .instruction target _ => some ⟨none, target⟩
    | _ => none

def namespaceUri? (doc : Document) (site : Site) : Option String :=
  if site.index.isSome then (site.attribute? doc).bind Attribute.namespaceUri
  else doc.namespaceUri? site.id

def value (doc : Document) (site : Site) : String :=
  if site.index.isSome then ((site.attribute? doc).map Attribute.value).getD ""
  else doc.textContent site.id

def children (doc : Document) (site : Site) : List Site :=
  if site.index.isSome then [] else (doc.children site.id).map node

def attributes (doc : Document) (site : Site) : List Site :=
  if site.index.isSome then []
  else (List.range (doc.attributes site.id).length).map fun i => ⟨site.id, some i⟩

/-- The parent of an attribute is the element that has it. -/
def parent? (doc : Document) (site : Site) : Option Site :=
  if site.index.isSome then some (node site.id) else (doc.parent site.id).map node

def ancestors (doc : Document) (site : Site) : List Site :=
  let above := doc.ancestors site.id
  (if site.index.isSome then above else above.drop 1).map node

/-- Visits the site on top of a stack, then what is below it, then the rest of the stack. -/
def walk (doc : Document) : Nat → List Site → List Site
  | fuel + 1, top :: stack => top :: walk doc fuel (top.children doc ++ stack)
  | _, _ => []

def descendants (doc : Document) (site : Site) : List Site :=
  walk doc doc.size (site.children doc)

end Site

end MarkupQuery.Query
