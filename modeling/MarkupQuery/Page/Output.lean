import MarkupQuery.Page.Action
import MarkupQuery.Tree.Markup

namespace MarkupQuery

open MarkupQuery.Tree (Document NodeId)

inductive RawMarkup where
  | omitted
  | whole
  | inside
deriving DecidableEq, Repr

namespace Page

def reading (page : Page) : Context → Page × Context
  | .foreign source h =>
    if source.serial == page.serial then (page, .foreign source h) else (source, .node h)
  | context => (page, context)

/-- The node that a context stands for in output: the root element for the whole page. -/
def shown (page : Page) : Context → Except Error (Option Handle)
  | .whole => .ok page.rootHandle?
  | context => page.resolveLenient context

/-- The markup of a context, or the value if it is an attribute; nothing if a query or a list has no
first node. -/
def markup (page : Page) (context : Context) : Except Error String := do
  let (page, context) := page.reading context
  match ← page.shown context with
  | none => pure ""
  | some h =>
    if h.site.index.isSome then pure (h.site.value page.document)
    else pure (page.document.markup page.options.voidElements h.site.id)

def innerMarkup (page : Page) (context : Context) : Except Error String := do
  let (page, context) := page.reading context
  match ← page.shown context with
  | none => pure ""
  | some h =>
    if h.site.index.isSome then pure ""
    else pure (page.document.innerMarkup page.options.voidElements h.site.id)

def text (page : Page) : String :=
  match page.document.rootElement? with
  | some top => page.document.markup page.options.voidElements top
  | none => ""

def fullMarkup (page : Page) : String :=
  page.document.markup page.options.voidElements Document.root

def rawMembers (page : Page) (raw : RawMarkup) (id : NodeId) : Json.Members :=
  let void := page.options.voidElements
  match raw with
  | .omitted => []
  | .whole => [("#raw", .text (page.document.markup void id))]
  | .inside => [("#raw", .text (page.document.innerMarkup void id))]

def addAttributes (page : Page) (id : NodeId) (members : Json.Members) : Json.Members :=
  (page.document.attributes id).foldl
    (fun members a => Json.insert ("@" ++ a.qualifiedName) (.text a.value) members) members

def onlyText? (document : Document) (id : NodeId) : Option String :=
  match (document.children id).map document.payload with
  | [.text content] => some content
  | _ => none

def addChildren (page : Page) (form : NodeId → Json) (id : NodeId) (members : Json.Members) :
    Json.Members :=
  (page.document.children id).foldl (fun members child =>
    match page.document.qualifiedName? child with
    | some name => Json.push name (form child) members
    | none => members) members

def elementJsonUpTo (page : Page) (raw : RawMarkup) : Nat → NodeId → Json
  | 0, _ => .object []
  | depth + 1, id =>
    let members := page.addAttributes id (page.rawMembers raw id)
    match onlyText? page.document id with
    | some content => .object (Json.insert "#text" (.text content) members)
    | none => .object (page.addChildren (page.elementJsonUpTo raw depth) id members)

/-- The JSON form of an element. Attributes are members with names that start with `@`, child elements
are in arrays by name, and a text that is the only child is the member `#text`. -/
def elementJson (page : Page) (raw : RawMarkup) (id : NodeId) : Json :=
  page.elementJsonUpTo raw (page.document.size + 1) id

/-- The JSON form of a context, or of everything on the page; null if a query or a list has no first
node. -/
def toJson (page : Page) (context : Context) (raw : RawMarkup) : Except Error Json := do
  let (page, context) := page.reading context
  match context with
  | .whole => pure (.object (page.addChildren (page.elementJson raw) Document.root []))
  | context =>
    match ← page.resolveLenient context with
    | none => pure .null
    | some h =>
      if h.site.index.isSome then pure (.text (h.site.value page.document))
      else pure (page.elementJson raw h.site.id)

def extract (serial : Nat) (page : Page) (context : Context) : Except Error Page := do
  let options := { page.options with strict := false }
  let (source, context) := page.reading context
  match ← source.shown context with
  | some h => ofNode serial source h options
  | none => pure { serial, document := .empty, prefixes := page.prefixes, options }

end Page

end MarkupQuery
