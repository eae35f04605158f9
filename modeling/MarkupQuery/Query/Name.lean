import MarkupQuery.Query.Expr
import MarkupQuery.Query.Reader
import MarkupQuery.Text.Letter

namespace MarkupQuery.Query

open MarkupQuery.Text

def isNameStart (c : Char) : Bool := isLetter c || c == '_'

def isNameChar (c : Char) : Bool := isLetterOrNumeral c || c == '_' || c == '-' || c == '.'

def plainName : Reader String
  | [] => none
  | c :: cs =>
    if isNameStart c then
      some (String.ofList (c :: cs.takeWhile isNameChar), cs.dropWhile isNameChar)
    else none

def qualifiedName : Reader (Option String × String) := fun s => do
  let (first, rest) ← plainName s
  match rest with
  | ':' :: more =>
    match plainName more with
    | some (second, after) => some ((some first, second), after)
    | none => some ((none, first), rest)
  | _ => some ((none, first), rest)

/-- A word that is not the start of a longer name. -/
def wholeWord (text : String) : Reader Unit := fun s =>
  match Reader.word text s with
  | some (_, c :: rest) => if isNameChar c then none else some ((), c :: rest)
  | found => found

def nodeTypeNames : List (NodeType × String) := [
  (.text, "text"),
  (.node, "node"),
  (.comment, "comment"),
  (.instruction, "processing-instruction")]

def isNodeTypeName (name : String) : Bool := nodeTypeNames.any fun entry => entry.2 == name

def nodeType : Reader NodeType := fun s =>
  nodeTypeNames.findSome? fun (type, name) => Reader.map (fun _ => type) (.word name) s

def typeTest : Reader NodeTest :=
  .map (fun (type, _) => .type type) <|
    .both nodeType (.both (.spaced (.char '(')) (.spaced (.char ')')))

def anyInTest : Reader NodeTest :=
  .map (fun (qualifier, _) => .anyIn qualifier) (.both plainName (.word ":*"))

def nodeTest : Reader NodeTest :=
  .orElse (.map (fun _ => .any) (.char '*')) <|
  .orElse typeTest <|
  .orElse anyInTest <|
  .map (fun (qualifier, localName) => .name qualifier localName) qualifiedName

/-- The axes with their names, a longer name before one that it starts with. -/
def axisNames : List (Axis × String) := [
  (.child, "child"),
  (.descendantOrSelf, "descendant-or-self"),
  (.descendant, "descendant"),
  (.attribute, "attribute"),
  (.parent, "parent"),
  (.ancestorOrSelf, "ancestor-or-self"),
  (.ancestor, "ancestor"),
  (.self, "self"),
  (.followingSibling, "following-sibling"),
  (.precedingSibling, "preceding-sibling"),
  (.following, "following"),
  (.preceding, "preceding")]

def axisName : Reader Axis := fun s =>
  axisNames.findSome? fun (axis, name) => Reader.map (fun _ => axis) (.word name) s

def axis : Reader Axis := .map Prod.fst (.both axisName (.word "::"))

end MarkupQuery.Query
