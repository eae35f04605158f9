import MarkupQuery.Tree.Undeclared
import MarkupQuery.Xml.Escape

namespace MarkupQuery.Tree

def xhtmlNamespace : String := "http://www.w3.org/1999/xhtml"

def voidElements : List String := [
  "area", "base", "br", "col", "command", "embed", "hr", "img", "input", "keygen", "link",
  "meta", "param", "source", "track", "wbr"]

def asciiLower (s : String) : String := String.ofList (s.toList.map Char.toLower)

def isVoidElement (name : String) : Bool := voidElements.contains (asciiLower name)

def Declaration.markup (d : Declaration) : String :=
  " " ++ (match d.qualifier with
    | some q => "xmlns:" ++ q
    | none => "xmlns") ++ "=\"" ++ Xml.quotedText d.uri ++ "\""

def Attribute.markup (a : Attribute) : String :=
  " " ++ a.qualifiedName ++ "=\"" ++ Xml.quotedText a.value ++ "\""

/-- The default namespace that has to be in force at an element which adds `more` declarations to
its own. An unprefixed element takes its own namespace from it. -/
def Element.defaultNamespace (e : Element) (more : List Declaration) (around : String) : String :=
  match e.qualifier with
  | none => e.namespaceUri.getD ""
  | some _ =>
    (((e.declarations ++ more).find? fun d => d.qualifier.isNone).map Declaration.uri).getD around

/-- The inside of a start tag. A default namespace is declared only where it changes. -/
def Element.startMarkup (e : Element) (more : List Declaration) (around : String) : String :=
  let default := e.defaultNamespace more around
  let prefixed := (e.declarations ++ more).filter fun d => d.qualifier.isSome
  e.qualifiedName ++ (if default = around then "" else Declaration.markup ⟨none, default⟩) ++
    String.join (prefixed.map Declaration.markup) ++
    String.join (e.attributes.map Attribute.markup)

namespace Document

/-- Whether the root element is called html or declares the XHTML namespace as default. -/
def isHtml (doc : Document) : Bool :=
  match doc.rootElement? with
  | none => false
  | some top =>
    ((doc.localName? top).any fun name => asciiLower name == "html") ||
      (doc.declarations top).any fun d => d.qualifier.isNone && d.uri == xhtmlNamespace

/-- The markup of a node, down to `depth` levels. `more` are declarations to add to it, `around` is
the default namespace in force around it. -/
def markupUpTo (doc : Document) (void : Bool) :
    Nat → List Declaration → String → NodeId → String
  | 0, _, _, _ => ""
  | depth + 1, more, around, id =>
    match doc.payload id with
    | .document => String.join ((doc.children id).map (doc.markupUpTo void depth [] around))
    | .text content => Xml.contentText content
    | .comment content => "<!--" ++ content ++ "-->"
    | .instruction target none => "<?" ++ target ++ "?>"
    | .instruction target (some data) => "<?" ++ target ++ " " ++ data ++ "?>"
    | .element e =>
      let start := "<" ++ e.startMarkup more around
      if (doc.firstChild id).isNone && void && isVoidElement e.name then start ++ "/>"
      else
        let inner := doc.markupUpTo void depth [] (e.defaultNamespace more around)
        start ++ ">" ++ String.join ((doc.children id).map inner) ++
          "</" ++ e.qualifiedName ++ ">"

def standaloneMarkup (doc : Document) (void : Bool) (id : NodeId) : String :=
  let more := if doc.isElement id then doc.undeclared id else []
  doc.markupUpTo void (doc.size + 1) more "" id

/-- The markup of a node. With `void` set, the void elements of an HTML document have no end
tag. -/
def markup (doc : Document) (void : Bool) (id : NodeId) : String :=
  let void := void && doc.isHtml
  match doc.payload id with
  -- every child of the document node is written as if it stood alone
  | .document => String.join ((doc.children id).map (doc.standaloneMarkup void))
  | _ => doc.standaloneMarkup void id

def innerMarkup (doc : Document) (void : Bool) (id : NodeId) : String :=
  String.join ((doc.children id).map (doc.markup void))

end Document

end MarkupQuery.Tree
