import MarkupQuery.Tree.Names

/-!
What a subtree has to declare so that it can stand by itself.
-/

namespace MarkupQuery.Tree

/-- The declaration that a written name relies on; the prefix xml relies on none. -/
def neededDeclaration (qualifier uri : Option String) : Option Declaration :=
  match qualifier, uri with
  | some q, some uri => if q == "xml" then none else some ⟨some q, uri⟩
  | _, _ => none

def Element.needed (e : Element) : List Declaration :=
  (neededDeclaration e.qualifier e.namespaceUri).toList ++
    e.attributes.filterMap fun a => neededDeclaration a.qualifier a.namespaceUri

namespace Document

def defaultWithin (doc : Document) (top id : NodeId) : Option String :=
  let upToTop := (doc.ancestors id).takeWhile (· != top) ++ [top]
  upToTop.findSome? fun above =>
    ((doc.declarations above).find? fun d => d.qualifier.isNone).map Declaration.uri

def addMissing (declared missing : List Declaration) : List Declaration → List Declaration
  | [] => missing
  | d :: ds =>
    if declared.contains d || missing.contains d then addMissing declared missing ds
    else addMissing declared (missing ++ [d]) ds

/-- The default namespace that the first unprefixed element without a default declared inside the
subtree asks for. -/
def wantedDefault (doc : Document) (id : NodeId) : Option String :=
  (doc.subtree id).findSome? fun node =>
    match doc.element? node with
    | some e =>
      if e.qualifier.isNone && (doc.defaultWithin id node).isNone then
        some (e.namespaceUri.getD "")
      else none
    | none => none

def inheritsDefault (doc : Document) (id : NodeId) : Bool :=
  match doc.parent id with
  | none => false
  | some parent =>
    ((doc.inScope parent).find? fun d => d.qualifier.isNone).any fun d => !d.uri.isEmpty

def missingDefault (doc : Document) (id : NodeId) : List Declaration :=
  match doc.wantedDefault id with
  | none => []
  | some uri => if uri.isEmpty && !doc.inheritsDefault id then [] else [⟨none, uri⟩]

/-- The declarations that a subtree relies on and does not hold, a default one first. -/
def undeclared (doc : Document) (id : NodeId) : List Declaration :=
  let below := doc.subtree id
  let declared := below.flatMap doc.declarations
  let needed := below.flatMap fun node => ((doc.element? node).map Element.needed).getD []
  doc.missingDefault id ++ addMissing declared [] needed

end Document

end MarkupQuery.Tree
