import MarkupQuery.Page.Basic
import MarkupQuery.Page.Scope
import MarkupQuery.Query.Evaluate
import MarkupQuery.Tree.Address

namespace MarkupQuery.Page

open MarkupQuery.Query (Ranked Setting Site)
open MarkupQuery.Tree (Segment SegmentTest renderAddress)

def usableQualifier (prefixes : PrefixTable) (test : SegmentTest) (uri : String) :
    Except Error (Option String) :=
  if (test.qualifier.bind prefixes.uri?) == some uri then .ok test.qualifier
  else match prefixes.qualifier? uri with
    | some qualifier => .ok (some qualifier)
    | none => .error (.missingQualifier uri)

def usableSegment (prefixes : PrefixTable) (segment : Segment) : Except Error Segment :=
  match segment.test.namespaceUri with
  | none => .ok segment
  | some uri =>
    (usableQualifier prefixes segment.test uri).map fun qualifier =>
      { segment with test := segment.test.withQualifier qualifier }

/-- The address of a site as a query that can be run on the page. The names in it may differ from
the written ones in their prefixes. -/
def contextPath (page : Page) (site : Site) : Except Error String :=
  ((page.document.address site.id site.index).mapM (usableSegment page.prefixes)).map renderAddress

def setting (page : Page) : Setting :=
  { source := Ranked.of page.document, bindings := page.prefixes.entries }

/-- The query to evaluate for a context, and the site to evaluate it at. An attached context is put
in front of the query as its address. A detached one, and one of a query that calls a function
first, is the site of evaluation itself. -/
def scopedQuery (page : Page) (query : String) : Option Site → Except Error (String × Site)
  | none => .ok (query, .document)
  | some site =>
    if site.kind page.document == .root then .ok (query, .document)
    -- the path cannot stand in front of a call
    else if callsFirst query then .ok (query, site)
    else if page.document.isAttached site.id then do
      let path ← page.contextPath site
      pure (scope path query, .document)
    else .ok (scope "." query, site)

def execute (page : Page) (query : String) (context : Option Site) : Except Error Matches := do
  let (query, site) ← page.scopedQuery query context
  let sites ← (Query.select page.setting site query).mapError (.query query)
  pure ⟨page.serial, sites⟩

def executeFirst (page : Page) (query : String) (context : Option Site) :
    Except Error (Option Handle) := do
  let found ← page.execute query context
  pure found.first?

/-- The node that a context stands for; there is none for the whole page, and none if a query or a
list has no first node. -/
def resolveLenient (page : Page) : Context → Except Error (Option Handle)
  | .whole => .ok none
  | .query text => page.executeFirst text none
  | .node h | .foreign _ h => (page.check h).map some
  | .list found =>
    match found.first? with
    | none => .ok none
    | some h => (page.check h).map some

def resolve (page : Page) (context : Context) : Except Error (Option Handle) := do
  match ← page.resolveLenient context, context with
  | some h, _ => pure (some h)
  | none, .whole => pure none
  | none, .query text => .error (.context (.noMatch text))
  | none, _ => .error (.context .emptyList)

/-- The node that a context stands for, the root element standing for the whole page. -/
def resolveOrRoot (page : Page) (context : Context) : Except Error Handle := do
  match ← page.resolve context with
  | some h => pure h
  | none =>
    match page.rootHandle? with
    | some h => pure h
    | none => .error (.context .noRootElement)

end MarkupQuery.Page
