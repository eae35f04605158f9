import MarkupQuery.Tree.Document

namespace MarkupQuery.Tree

inductive Hierarchy where
  | childless (parent : NodeId)
  | documentNode
  | ancestor (child parent : NodeId)
  | noParent (id : NodeId)
  | emptyImport
  | attributeImport
  | attributeInsertion
deriving DecidableEq, Repr

inductive InvalidEdit where
  | noAttribute (element : NodeId) (index : Nat)
  | attributeQualifier
  | xmlnsQualifier
  | noNamespace (qualifier : String)
  | emptyQualifier
deriving DecidableEq, Repr

inductive Error where
  | malformed
  | fragmentRoot (found : Nat)
  | unknownNode (id : NodeId)
  | notAnElement (id : NodeId)
  | hierarchy (reason : Hierarchy)
  | invalidEdit (reason : InvalidEdit)
deriving DecidableEq, Repr

def NodeId.label (id : NodeId) : String := "#" ++ toString (NodeId.number id)

def Hierarchy.message : Hierarchy → String
  | childless parent => "node " ++ NodeId.label parent ++ " cannot have children"
  | documentNode => "the document node cannot be inserted"
  | ancestor child parent =>
    "node " ++ NodeId.label child ++ " is an ancestor of " ++ NodeId.label parent
  | noParent id => "node " ++ NodeId.label id ++ " has no parent"
  | emptyImport => "cannot import an empty document"
  | attributeImport => "an attribute cannot be imported as a node"
  | attributeInsertion => "an attribute cannot be inserted as a node"

def InvalidEdit.message : InvalidEdit → String
  | noAttribute element index =>
    "element " ++ NodeId.label element ++ " has no attribute " ++ toString index
  | attributeQualifier => "a namespaced attribute needs a prefix"
  | xmlnsQualifier => "the xmlns prefix cannot be bound"
  | noNamespace qualifier => "prefix '" ++ qualifier ++ "' needs a namespace"
  | emptyQualifier => "empty prefix"

def Error.message : Error → String
  | malformed => "XML parsing error"
  | fragmentRoot found =>
    "Fragment must contain exactly one root element, found " ++ toString found
  | unknownNode id =>
    "Node " ++ toString (NodeId.number id) ++ " does not belong to this document"
  | notAnElement id => "Node " ++ toString (NodeId.number id) ++ " is not an element"
  | hierarchy reason => "Hierarchy error: " ++ reason.message
  | invalidEdit reason => "Invalid edit: " ++ reason.message

end MarkupQuery.Tree
