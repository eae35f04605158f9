import MarkupQuery.Page.Search
import MarkupQuery.Selector.Compile

namespace MarkupQuery.Page

open MarkupQuery.Query (Site)
open MarkupQuery.Tree (Document NodeId)

/-- An operation that may change a page. What it did before it fails stays done. -/
abbrev Action (α : Type) := ExceptT Error (StateM Page) α

namespace Action

def read {α : Type} (f : Page → Except Error α) : Action α := do
  match f (← get) with
  | .ok a => pure a
  | .error e => throw e

def change (f : Document → Except Tree.Error Document) : Action Unit := do
  let page ← get
  match f page.document with
  | .ok document => set { page with document }
  | .error e => throw (.ofTree e)

end Action

def copyInto (document : Document) (prefixes : PrefixTable) (source : Page) (h : Handle) :
    Except Error (Document × PrefixTable × NodeId) := do
  let h ← source.check h
  if h.site.index.isSome then .error (.tree (.hierarchy .attributeImport))
  else if h.site.kind source.document == .root && source.document.rootElement?.isNone then
    .error (.context .emptySource)
  else
    let (document, copy) ← ofTree (document.importFrom source.document h.site.id)
    pure (document, prefixes.merge source.prefixes, copy)

/-- A new page with a copy of a node as its root element, starting from the prefixes of the page that
the node is on. -/
def ofNode (serial : Nat) (source : Page) (h : Handle) (options : Options) :
    Except Error Page := do
  let (document, prefixes, copy) ← copyInto .empty source.prefixes source h
  let document ← ofTree (document.append Document.root copy)
  pure {
    serial, document, options
    prefixes := prefixes.discover options.discovery document }

def adopt (source : Page) (h : Handle) : Action Handle := do
  let page ← get
  match copyInto page.document page.prefixes source h with
  | .ok (document, prefixes, copy) =>
    set { page with document, prefixes }
    pure (page.handle copy)
  | .error e => throw e

def takeForeign (source : Page) (h : Handle) : Action Handle := do
  let page ← get
  if source.serial == page.serial then .read fun page => page.check h else adopt source h

def queryContext : Context → Action (Option Handle)
  | .foreign source h => some <$> takeForeign source h
  | context => .read fun page => page.resolve context

/-- The node to edit at, the root element standing for the whole page. -/
def target : Context → Action Handle
  | .foreign source h => takeForeign source h
  | context => .read fun page => page.resolveOrRoot context

/-- Runs a query. A context on another page is copied first. -/
def search (query : String) (context : Context) : Action Matches := do
  let h ← queryContext context
  .read fun page => page.execute query (h.map Handle.site)

def compiled (selector : String) (below : Bool) : Except Error String :=
  match Selector.compile (if below then .context else .document) selector with
  | .ok c => .ok c.query
  | .error e => .error (.selector e)

/-- Runs a selector. With a context only what is below it is found. -/
def selectElements (selector : String) (context : Context) : Action Matches := do
  let h ← queryContext context
  .read fun page => do
    let query ← compiled selector h.isSome
    page.execute query (h.map Handle.site)

end MarkupQuery.Page
