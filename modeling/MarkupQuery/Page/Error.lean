import MarkupQuery.Query.Error
import MarkupQuery.Selector.Error
import MarkupQuery.Tree.Error

namespace MarkupQuery.Page

open MarkupQuery.Tree (NodeId)

inductive ContextError where
  | noMatch (query : String)
  | emptyList
  | noRootElement
  | otherDocument (id : NodeId)
  | noSuchNode (id : NodeId)
  | emptySource
  | emptyContent
deriving DecidableEq, Repr

inductive Error where
  | selector (cause : Selector.Error)
  | query (query : String) (cause : Query.Error)
  | context (reason : ContextError)
  | missingQualifier (uri : String)
  | unknownQualifier (qualifier : String)
  | markup (cause : Tree.Error)
  | tree (cause : Tree.Error)
deriving DecidableEq, Repr

def ContextError.message : ContextError → String
  | noMatch query => "'" ++ query ++ "' matched no nodes"
  | emptyList => "the node list is empty"
  | noRootElement => "the document has no root element"
  | otherDocument id => "node " ++ NodeId.label id ++ " belongs to another document"
  | noSuchNode id => "node " ++ NodeId.label id ++ " does not exist"
  | emptySource => "cannot import an empty document"
  | emptyContent => "cannot insert an empty document"

def Error.message : Error → String
  | selector cause => "Invalid selector: " ++ cause.message
  | query text cause => "Query '" ++ text ++ "' was rejected: " ++ cause.message
  | context reason => "Context could not be resolved: " ++ reason.message
  | missingQualifier uri => "No prefix is registered for namespace '" ++ uri ++ "'"
  | unknownQualifier qualifier =>
    "Unknown namespace prefix '" ++ qualifier ++ "'. Register it first."
  | markup cause => "Markup could not be parsed: " ++ cause.message
  | tree cause => "Tree operation failed: " ++ cause.message

/-- Markup that cannot be read is told apart from what the tree refuses. -/
def Error.ofTree : Tree.Error → Error
  | .malformed => .markup .malformed
  | .fragmentRoot found => .markup (.fragmentRoot found)
  | cause => .tree cause

def ofTree {α : Type} (r : Except Tree.Error α) : Except Error α := r.mapError Error.ofTree

end MarkupQuery.Page
