import MarkupQuery.Text.Blank
import MarkupQuery.Tree.Names
import MarkupQuery.Xml.Event

namespace MarkupQuery.Tree

open MarkupQuery.Xml

/-!
The names of markup, resolved by the namespace declarations in scope. Resolution fails where the
rules for namespaces are broken.
-/

def xmlnsNamespace : String := "http://www.w3.org/2000/xmlns/"

/-- The prefix that an attribute declares, the outer option telling whether it declares one. -/
def declaredQualifier? (a : Written) : Option (Option String) :=
  if a.name.qualifier == "xmlns" then some (some a.name.localName)
  else if a.name.localName == "xmlns" then some none
  else none

/-- Only the prefix xml stands for its namespace, and nothing stands for that of declarations. -/
def mayDeclare (qualifier : Option String) (uri : String) : Bool :=
  uri != xmlnsNamespace && (qualifier == some "xml") == (uri == xmlNamespace)

/-- The declarations among the attributes of an element, in their order. The prefix xml needs none;
no other prefix is declared twice. -/
def ownDeclarations? (own : List Declaration) : List Written → Option (List Declaration)
  | [] => some own
  | a :: rest =>
    match declaredQualifier? a with
    | none => ownDeclarations? own rest
    | some qualifier =>
      if !mayDeclare qualifier a.value then none
      else if qualifier.isSome && own.any fun d => d.qualifier == qualifier then none
      else if qualifier == some "xml" then ownDeclarations? own rest
      else ownDeclarations? (own ++ [⟨qualifier, a.value⟩]) rest

def innerScope (own outer : List Declaration) : List Declaration :=
  if own.isEmpty then outer else Document.extendScope own outer

/-- The namespace that a prefix stands for; the outer option is `none` if it stands for nothing.
The empty prefix means the default namespace. -/
def lookup? (scope : List Declaration) (qualifier : String) : Option (Option String) :=
  if qualifier.isEmpty then
    some ((scope.find? fun d => d.qualifier.isNone).map Declaration.uri)
  else (scope.find? fun d => d.qualifier == some qualifier).map fun d => some d.uri

def attributeNamespace? (scope : List Declaration) (qualifier : String) :
    Option (Option String) :=
  if qualifier == "xml" then some (some xmlNamespace)
  else if qualifier.isEmpty then some none
  else lookup? scope qualifier

def attributeQualifier (scope : List Declaration) (uri : String) : Option String :=
  if uri == xmlNamespace then some "xml"
  else (scope.find? fun d => d.uri == uri && d.qualifier.isSome).bind Declaration.qualifier

/-- Attributes that declare nothing; no two of them may have the same expanded name. -/
def resolvedAttributes? (scope : List Declaration) (done : List Attribute) :
    List Written → Option (List Attribute)
  | [] => some done
  | a :: rest =>
    match attributeNamespace? scope a.name.qualifier with
    | none => none
    | some uri =>
      let isSame := fun (b : Attribute) => b.namespaceUri == uri && b.name == a.name.localName
      let qualifier := uri.bind (attributeQualifier scope)
      if done.any isSame then none
      else resolvedAttributes? scope
        (done ++ [⟨a.name.localName, a.value, qualifier, uri⟩]) rest

/-- The prefix that an element keeps: the written one, as far as it is a word. -/
def keptQualifier (name : QName) : Option String :=
  name.written.filter fun qualifier => !qualifier.toList.any Text.isBlank

def resolvedElement? (outer own : List Declaration) (name : QName) (attributes : List Written) :
    Option (Element × List Declaration) := do
  let scope := innerScope own outer
  let attributes ← resolvedAttributes? scope [] attributes
  let found ← lookup? scope name.qualifier
  -- an empty default namespace is none
  let uri := found.filter fun uri => !uri.isEmpty
  pure ({
    name := name.localName
    qualifier := uri.bind fun _ => keptQualifier name
    namespaceUri := uri
    attributes
    declarations := scope.filter fun d => !outer.contains d }, scope)

end MarkupQuery.Tree
