import MarkupQuery.Page.Action
import MarkupQuery.Tree.NamespaceEdit

namespace MarkupQuery.Page

open MarkupQuery.Query (Site)
open MarkupQuery.Tree (Document NodeId NamespaceEdit)

/-- Reads an element that may use the registered prefixes, and registers the namespaces declared on
it. The element is not attached. -/
def createElement (markup : String) : Action Handle := do
  let page ← get
  match Document.parseFragment markup page.prefixes.entries with
  | .error e => throw (.ofTree e)
  | .ok fragment =>
    let found := PrefixTable.empty.discover page.options.discovery fragment
    set { page with prefixes := page.prefixes.merge found }
    match fragment.rootElement? with
    | none => throw (.markup (.fragmentRoot 0))
    | some top =>
      match page.document.importFrom fragment top with
      | .error e => throw (.ofTree e)
      | .ok (document, copy) =>
        modify fun page => { page with document }
        pure (page.handle copy)

def contentHandle : Content → Action Handle
  | .markup text => createElement text
  | .node h => .read fun page => page.check h
  | .foreign source h => takeForeign source h
  | .page source =>
    match source.rootHandle? with
    | none => throw (.context .emptyContent)
    | some h => adopt source h

def content (c : Content) : Action NodeId := do
  let h ← contentHandle c
  if h.site.index.isSome then throw (.tree (.hierarchy .attributeInsertion)) else pure h.site.id

def place (move : Document → Except Tree.Error Document) (id : NodeId) : Action Handle := do
  Action.change move
  let page ← get
  pure (page.handle id)

def append (c : Content) (context : Context) : Action Handle := do
  let new ← content c
  let h ← target context
  place (fun document => document.append h.site.id new) new

def prepend (c : Content) (context : Context) : Action Handle := do
  let new ← content c
  let h ← target context
  place (fun document => document.prepend h.site.id new) new

def appendSibling (c : Content) (context : Context) : Action Handle := do
  let new ← content c
  let h ← target context
  place (fun document => document.insertAfter h.site.id new) new

def prependSibling (c : Content) (context : Context) : Action Handle := do
  let new ← content c
  let h ← target context
  place (fun document => document.insertBefore h.site.id new) new

/-- Puts the content where a context is. The context is resolved before the content. -/
def replace (context : Context) (c : Content) : Action Handle := do
  let h ← target context
  let new ← content c
  place (fun document => document.replace h.site.id new) new

def designated : Context → Action (List Handle)
  | .whole => pure []
  | .query text => do
    let found ← search text .whole
    pure (found.sites.map fun site => ⟨found.serial, site⟩)
  | .list found =>
    .read fun page => (found.sites.map fun site => ⟨found.serial, site⟩).mapM page.check
  | .node h | .foreign _ h => .read fun page => (page.check h).map ([·])

def attributeNames (document : Document) (sites : List Site) : List (NodeId × String) :=
  sites.filterMap fun site =>
    (site.attribute? document).map fun a => (site.id, a.qualifiedName)

/-- Removes attributes by name and counts how many times one was found. -/
def removeAttributes (document : Document) (names : List (NodeId × String)) : Document × Nat :=
  names.foldl (fun (document, count) (owner, name) =>
    let (document, found) := document.removeAttribute owner name
    (document, if found then count + 1 else count)) (document, 0)

def detachAll (document : Document) (ids : List NodeId) : Document × Nat :=
  ids.foldl (fun (document, count) id =>
    if (document.parent id).isSome then (document.detach id, count + 1) else (document, count))
    (document, 0)

/-- Removes sites: first the attributes, which are named before any of them is gone, then the
nodes. -/
def removeSites (document : Document) (sites : List Site) : Document × Nat :=
  let (document, attributes) := removeAttributes document (attributeNames document sites)
  let ids := (sites.filter fun site => site.index.isNone).map Site.id
  let (document, nodes) := detachAll document ids
  (document, attributes + nodes)

def remove (context : Context) : Action Nat := do
  let handles ← designated context
  let page ← get
  let (document, count) := removeSites page.document (handles.map Handle.site)
  set { page with document }
  pure count

end MarkupQuery.Page
