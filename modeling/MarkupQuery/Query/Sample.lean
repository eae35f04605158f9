import MarkupQuery.Query.Site
import MarkupQuery.Tree.Graft

namespace MarkupQuery.Query.Sample

open MarkupQuery.Tree

/-!
A small document to try queries on, with one node of every kind.
-/

def exampleNamespace : String := "http://example.com/ns"

private def leaf (payload : Payload) : Subtree := .mk payload []

private def paragraph (attributes : List Attribute) (content : String) : Subtree :=
  .mk (.element { name := "para", attributes }) [leaf (.text content)]

def tree : Subtree :=
  .mk (.element { name := "doc" }) [
    paragraph [
      { name := "id", value := "p1" },
      { name := "lang", value := "en", qualifier := some "xml",
        namespaceUri := some xmlNamespace }] "Hello",
    leaf (.comment " comment node "),
    .mk (.element {
        name := "item", qualifier := some "ex", namespaceUri := some exampleNamespace,
        attributes := [{ name := "class", value := "a b" }] })
      [leaf (.text "World")],
    leaf (.instruction "pi-target" (some "pi-value")),
    paragraph [] "Again"]

def document : Document := .ofSubtrees [tree]

def sites : List Site :=
  (document.subtree Document.root).flatMap fun id => Site.node id :: (Site.node id).attributes document

end MarkupQuery.Query.Sample
