import MarkupQuery.Query.Error
import MarkupQuery.Query.Expr
import MarkupQuery.Query.Site

namespace MarkupQuery.Query

open MarkupQuery.Tree

/-- What prefixes stand for; the first binding of a prefix counts. -/
abbrev Bindings := List (String × String)

inductive ResolvedTest where
  | name (namespaceUri : Option String) (localName : String)
  | anyIn (namespaceUri : String)
  | any
  | type (type : NodeType)
deriving DecidableEq, Repr

/-- The namespace that a prefix is bound to; xml is bound even if the bindings do not say so. -/
def resolveQualifier (bindings : Bindings) (qualifier : String) : Except Error String :=
  match bindings.lookup qualifier with
  | some uri => .ok uri
  | none => if qualifier == "xml" then .ok xmlNamespace else .error (.unboundQualifier qualifier)

/-- Resolves the prefix of a test. A name without prefix is in no namespace. -/
def NodeTest.resolve (bindings : Bindings) : NodeTest → Except Error ResolvedTest
  | .name none localName => .ok (.name none localName)
  | .name (some qualifier) localName =>
    (resolveQualifier bindings qualifier).map fun uri => .name (some uri) localName
  | .anyIn qualifier => (resolveQualifier bindings qualifier).map .anyIn
  | .any => .ok .any
  | .type wanted => .ok (.type wanted)

def Axis.principal : Axis → Kind
  | .attribute => .attribute
  | _ => .element

def NodeType.admits : NodeType → Kind → Bool
  | .node, _ => true
  | .text, kind => kind == .text
  | .comment, kind => kind == .comment
  | .instruction, kind => kind == .instruction

def ResolvedTest.admits (doc : Document) (axis : Axis) (site : Site) : ResolvedTest → Bool
  | .name uri localName =>
    site.kind doc == axis.principal && site.namespaceUri? doc == uri &&
      (site.name? doc).any fun name => name.localName == localName
  | .anyIn uri => site.kind doc == axis.principal && site.namespaceUri? doc == some uri
  | .any => site.kind doc == axis.principal
  | .type wanted => wanted.admits (site.kind doc)

end MarkupQuery.Query
