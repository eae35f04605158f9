import MarkupQuery.Tree.Assembly
import MarkupQuery.Tree.Graft
import MarkupQuery.Xml.Document
import MarkupQuery.Xml.Escape

namespace MarkupQuery.Tree.Document

open MarkupQuery.Text

def parse (markup : String) : Except Error Document :=
  match (Xml.read? markup.toList).bind assembled? with
  | some trees => .ok (ofSubtrees trees)
  | none => .error .malformed

def holderName : String := "domq-fragment"

/-- The text after an XML declaration, if it starts with one. -/
def withoutDeclaration (s : List Char) : List Char :=
  let body := trimStart s
  if "<?xml ".toList.isPrefixOf body || "<?xml?".toList.isPrefixOf body then
    match cutAt "?>".toList body with
    | some (_, after) => after
    | none => s
  else s

def isHint (qualifier : String) : Bool :=
  !qualifier.isEmpty && qualifier != "xml" && qualifier != "xmlns" && !qualifier.toList.contains ':'

def wrapped (fragment : String) (hints : List (String × String)) : String :=
  let declared := hints.filter fun (qualifier, _) => isHint qualifier
  let written := declared.map fun (qualifier, uri) =>
    " xmlns:" ++ qualifier ++ "=\"" ++ Xml.quotedText uri ++ "\""
  "<" ++ holderName ++ String.join written ++ ">" ++
    String.ofList (withoutDeclaration fragment.toList) ++ "</" ++ holderName ++ ">"

/-- Reads markup with one root element, which may use the prefixes of `hints` undeclared. What it
uses is declared on it. -/
def parseFragment (fragment : String) (hints : List (String × String)) :
    Except Error Document := do
  let holder ← parse (wrapped fragment hints)
  match holder.rootElement? with
  | none => .error (.fragmentRoot 0)
  | some top =>
    match (holder.children top).filter holder.isElement with
    | [element] =>
      let (doc, copy) ← empty.importFrom holder element
      doc.append root copy
    | elements => .error (.fragmentRoot elements.length)

end MarkupQuery.Tree.Document
