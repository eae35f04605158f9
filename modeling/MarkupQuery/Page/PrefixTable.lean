import MarkupQuery.Page.Error
import MarkupQuery.Page.Options
import MarkupQuery.Tree.Names

namespace MarkupQuery

open MarkupQuery.Tree

/-- The prefixes that queries may use, in the order of registration, and the default namespace found
on the root element. -/
structure PrefixTable where
  entries : List (String × String) := []
  defaultNamespace : Option String := none
deriving DecidableEq, Repr

namespace PrefixTable

def empty : PrefixTable := {}

def size (table : PrefixTable) : Nat := table.entries.length

def isEmpty (table : PrefixTable) : Bool := table.entries.isEmpty

def uri? (table : PrefixTable) (qualifier : String) : Option String :=
  table.entries.lookup qualifier

/-- The prefix that was first registered for a namespace. -/
def qualifier? (table : PrefixTable) (uri : String) : Option String :=
  (table.entries.find? fun entry => entry.2 == uri).map Prod.fst

def contains (table : PrefixTable) (qualifier : String) : Bool := (table.uri? qualifier).isSome

/-- Binds a prefix in a list of entries; one that is bound already keeps its place. -/
def bind (qualifier uri : String) : List (String × String) → List (String × String)
  | [] => [(qualifier, uri)]
  | (q, u) :: rest =>
    if q == qualifier then (q, uri) :: rest else (q, u) :: bind qualifier uri rest

def register (table : PrefixTable) (qualifier uri : String) : PrefixTable :=
  { table with entries := bind qualifier uri table.entries }

def remove (table : PrefixTable) (qualifier : String) :
    Except Page.Error (String × PrefixTable) :=
  match table.uri? qualifier with
  | none => .error (.unknownQualifier qualifier)
  | some uri =>
    .ok (uri, { table with entries := table.entries.eraseP fun entry => entry.1 == qualifier })

def setDefault (table : PrefixTable) (uri : Option String) : PrefixTable :=
  { table with defaultNamespace := uri }

/-- The entries collected into a map, where a later entry for a prefix replaces an earlier one. -/
def bindings (table : PrefixTable) : String → Option String :=
  table.entries.foldl (fun bound (qualifier, uri) q => if q == qualifier then some uri else bound q)
    fun _ => none

def merge (table other : PrefixTable) : PrefixTable :=
  other.entries.foldl (fun table (qualifier, uri) => table.register qualifier uri) table

def registerDefault (table : PrefixTable) (mode : Discovery) (name uri : String) : PrefixTable :=
  let table := { table with defaultNamespace := some uri }
  match mode with
  | .defaultAs qualifier => table.register qualifier uri
  | _ => if table.contains name then table else table.register name uri

def discoverable (doc : Document) (id : NodeId) : List Declaration :=
  (doc.declarations id).filter fun d => !d.uri.isEmpty && d.uri != xmlNamespace

def registerDeclared (table : PrefixTable) (d : Declaration) : PrefixTable :=
  match d.qualifier with
  | some qualifier => table.register qualifier d.uri
  | none => table

/-- Registers the namespaces declared on the root element, the default one after all others. -/
def discover (table : PrefixTable) (mode : Discovery) (doc : Document) : PrefixTable :=
  match mode, doc.rootElement? with
  | .off, _ | _, none => table
  | _, some top =>
    let declared := discoverable doc top
    let table := declared.foldl registerDeclared table
    match declared.find? fun d => d.qualifier.isNone with
    | some d => table.registerDefault mode ((doc.localName? top).getD "") d.uri
    | none => table

end PrefixTable

end MarkupQuery
