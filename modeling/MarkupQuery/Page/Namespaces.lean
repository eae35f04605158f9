import MarkupQuery.Page.Action
import MarkupQuery.Tree.NamespaceEdit

namespace MarkupQuery.Page

open MarkupQuery.Tree (Document Element NodeId NamespaceEdit)

/-- The edits that take an element and its attributes out of a namespace and drop its declarations
of it. -/
def clearingEdits (uri : String) (id : NodeId) (e : Element) : List NamespaceEdit :=
  let declared := e.declarations.filter fun d => d.uri == uri
  let inside := e.attributes.zipIdx.filter fun (a, _) => a.namespaceUri == some uri
  declared.map (fun d => .undeclare id d.qualifier) ++
    (if e.namespaceUri == some uri then [.renameElement id none none] else []) ++
    inside.map fun (_, i) => .renameAttribute id i none none

def leavingEdits (document : Document) (uri : String) : List NamespaceEdit :=
  (document.descendants Document.root).flatMap fun id =>
    match document.element? id with
    | some e => clearingEdits uri id e
    | none => []

/-- Takes everything out of the namespace of a prefix and forgets the prefix. -/
def removeNamespace (qualifier : String) : Action Unit := do
  let page ← get
  match page.prefixes.remove qualifier with
  | .error e => throw e
  | .ok (uri, prefixes) =>
    match page.document.edit (leavingEdits page.document uri) with
    | .error e => throw (.ofTree e)
    | .ok (document, _) =>
      let left := prefixes.defaultNamespace.filter (· != uri)
      set { page with document, prefixes := { prefixes with defaultNamespace := left } }

def enteringEdits (document : Document) (id : NodeId) (qualifier uri : String) :
    List NamespaceEdit :=
  let elements := (document.subtree id).filter document.isElement
  .declare id (some qualifier) uri ::
    elements.map fun element => .renameElement element (some qualifier) (some uri)

/-- Puts an element and all elements below it into a namespace, and registers its prefix. -/
def changeNamespace (context : Context) (qualifier uri : String) : Action Handle := do
  let h ← target context
  let page ← get
  if h.site.index.isSome || !page.document.isElement h.site.id then
    throw (.tree (.notAnElement h.site.id))
  else
    match page.document.edit (enteringEdits page.document h.site.id qualifier uri) with
    | .error e => throw (.ofTree e)
    | .ok (document, _) =>
      set { page with document, prefixes := page.prefixes.register qualifier uri }
      pure h

end MarkupQuery.Page
