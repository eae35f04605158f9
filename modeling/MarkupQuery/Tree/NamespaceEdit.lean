import MarkupQuery.Tree.Mutation

namespace MarkupQuery.Tree

inductive NamespaceEdit where
  | renameElement (element : NodeId) (qualifier namespaceUri : Option String)
  | renameAttribute (element : NodeId) (index : Nat) (qualifier namespaceUri : Option String)
  | declare (element : NodeId) (qualifier : Option String) (uri : String)
  | undeclare (element : NodeId) (qualifier : Option String)
deriving DecidableEq, Repr

namespace NamespaceEdit

def element : NamespaceEdit → NodeId
  | renameElement element _ _ | renameAttribute element _ _ _ | declare element _ _
  | undeclare element _ => element

/-- A prefix stands for a namespace, is not empty and is not xmlns. -/
def checkBinding (qualifier namespaceUri : Option String) : Except InvalidEdit Unit :=
  match qualifier, namespaceUri with
  | none, _ => .ok ()
  | some "xmlns", _ => .error .xmlnsQualifier
  | some q, none => .error (.noNamespace q)
  | some "", some _ => .error .emptyQualifier
  | some _, some _ => .ok ()

def checkOn (target : Element) : NamespaceEdit → Except InvalidEdit Unit
  | renameElement _ qualifier uri => checkBinding qualifier uri
  | renameAttribute element index qualifier uri =>
    if target.attributes.length ≤ index then .error (.noAttribute element index)
    else if uri.isSome && qualifier.isNone then .error .attributeQualifier
    else checkBinding qualifier uri
  | declare _ qualifier uri => checkBinding qualifier (some uri)
  | undeclare _ _ => .ok ()

def check (doc : Document) (edit : NamespaceEdit) : Except Error Unit :=
  if !doc.contains edit.element then .error (.unknownNode edit.element)
  else match doc.element? edit.element with
    | none => .error (.notAnElement edit.element)
    | some target => (edit.checkOn target).mapError .invalidEdit

def withoutDeclaration (qualifier : Option String) (declarations : List Declaration) :
    List Declaration :=
  declarations.filter fun d => d.qualifier != qualifier

def onElement : NamespaceEdit → Element → Element
  | renameElement _ qualifier namespaceUri, e => { e with qualifier, namespaceUri }
  | renameAttribute _ index qualifier namespaceUri, e =>
    { e with attributes := e.attributes.modify index fun a => { a with qualifier, namespaceUri } }
  | declare _ qualifier uri, e =>
    { e with declarations := withoutDeclaration qualifier e.declarations ++ [⟨qualifier, uri⟩] }
  | undeclare _ qualifier, e =>
    { e with declarations := withoutDeclaration qualifier e.declarations }

def perform (doc : Document) (edit : NamespaceEdit) : Document :=
  doc.updateElement edit.element edit.onElement

end NamespaceEdit

/-- Makes all edits in their order and tells how many, or makes none if one of them cannot be made
in the document as it is. -/
def Document.edit (doc : Document) (edits : List NamespaceEdit) :
    Except Error (Document × Nat) := do
  edits.forM (NamespaceEdit.check doc)
  pure (edits.foldl NamespaceEdit.perform doc, edits.length)

end MarkupQuery.Tree
