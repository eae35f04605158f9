import MarkupQuery.Page.PrefixTable
import MarkupQuery.Query.Site
import MarkupQuery.Tree.Parse

namespace MarkupQuery

open MarkupQuery.Query (Site)
open MarkupQuery.Tree (Document)

/-- A document with the prefixes that its queries use. The serial number tells pages apart. -/
structure Page where
  serial : Nat
  document : Document
  prefixes : PrefixTable := {}
  options : Options := {}
deriving Repr

/-- A node or attribute of a page. It stays valid when the node is taken out of its tree. -/
structure Handle where
  serial : Nat
  site : Site
deriving DecidableEq, Repr

/-- What a query found on a page, as it was at that time. -/
structure Matches where
  serial : Nat
  sites : List Site
deriving DecidableEq, Repr

inductive Context where
  | whole
  /-- The first node that a query selects. -/
  | query (text : String)
  | node (handle : Handle)
  | list (found : Matches)
  /-- A node that may be on another page. -/
  | foreign (page : Page) (handle : Handle)

inductive Content where
  | markup (text : String)
  | node (handle : Handle)
  | foreign (page : Page) (handle : Handle)
  /-- The root element of another page. -/
  | page (page : Page)

def Matches.item? (found : Matches) (i : Nat) : Option Handle :=
  found.sites[i]?.map fun site => ⟨found.serial, site⟩

def Matches.first? (found : Matches) : Option Handle := found.item? 0

namespace Page

def ofDocument (serial : Nat) (document : Document) (options : Options) : Page :=
  { serial, document, options, prefixes := PrefixTable.empty.discover options.discovery document }

/-- Reads a page from markup. Unless the options are strict, malformed markup gives an empty one. -/
def parse (serial : Nat) (markup : String) (options : Options) : Except Error Page :=
  match Document.parse markup with
  | .ok document => .ok (ofDocument serial document options)
  | .error e =>
    if options.strict then .error (.markup e) else .ok (ofDocument serial .empty options)

def empty (serial : Nat) : Page := ofDocument serial .empty {}

def handle (page : Page) (id : Tree.NodeId) : Handle := ⟨page.serial, .node id⟩

def owns (page : Page) (h : Handle) : Bool := h.serial == page.serial

def rootHandle? (page : Page) : Option Handle := page.document.rootElement?.map page.handle

def check (page : Page) (h : Handle) : Except Error Handle :=
  if !page.owns h then .error (.context (.otherDocument h.site.id))
  else if !page.document.contains h.site.id then .error (.context (.noSuchNode h.site.id))
  else .ok h

def value (page : Page) (h : Handle) : Except Error String := do
  let h ← page.check h
  pure (h.site.value page.document)

def name? (page : Page) (h : Handle) : Except Error (Option String) := do
  let h ← page.check h
  pure ((h.site.name? page.document).map Query.WrittenName.text)

def register (page : Page) (qualifier uri : String) : Page :=
  { page with prefixes := page.prefixes.register qualifier uri }

end Page

end MarkupQuery
