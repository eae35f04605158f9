namespace MarkupQuery.Tree

def xmlNamespace : String := "http://www.w3.org/XML/1998/namespace"

structure Attribute where
  name : String
  value : String
  qualifier : Option String := none
  namespaceUri : Option String := none
deriving DecidableEq, Repr

/-- A namespace declaration; without a prefix it declares the default namespace. -/
structure Declaration where
  qualifier : Option String
  uri : String
deriving DecidableEq, Repr

structure Element where
  name : String
  qualifier : Option String := none
  namespaceUri : Option String := none
  attributes : List Attribute := []
  declarations : List Declaration := []
deriving DecidableEq, Repr

inductive Payload where
  | document
  | element (element : Element)
  | text (content : String)
  | comment (content : String)
  | instruction (target : String) (data : Option String)
deriving DecidableEq, Repr, Inhabited

/-- `qualifier:name`, or the name alone. -/
def qualify (qualifier : Option String) (name : String) : String :=
  match qualifier with
  | some q => q ++ ":" ++ name
  | none => name

def Attribute.qualifiedName (a : Attribute) : String := qualify a.qualifier a.name

def Element.qualifiedName (e : Element) : String := qualify e.qualifier e.name

def Payload.element? : Payload → Option Element
  | element e => some e
  | _ => none

def Payload.isElement (p : Payload) : Bool := p.element?.isSome

def Payload.mayHaveChildren : Payload → Bool
  | document | element _ => true
  | _ => false

inductive Subtree where
  | mk (payload : Payload) (children : List Subtree)

instance : Inhabited Subtree := ⟨.mk .document []⟩

def Subtree.payload : Subtree → Payload
  | mk payload _ => payload

end MarkupQuery.Tree
