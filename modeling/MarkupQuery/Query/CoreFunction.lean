import MarkupQuery.Number.Binary
import MarkupQuery.Query.Error
import MarkupQuery.Query.Order
import MarkupQuery.Query.Value
import MarkupQuery.Text.LetterCase
import MarkupQuery.Text.Search

namespace MarkupQuery.Query

open MarkupQuery.Text MarkupQuery.Tree

/-- Where an expression is evaluated: a site and its place in the list it was taken from. -/
structure Focus where
  site : Site
  position : Nat := 1
  size : Nat := 1

inductive CoreFunction where
  | last
  | position
  | count
  | byId
  | localName
  | namespaceUri
  | name
  | string
  | concat
  | startsWith
  | contains
  | substringBefore
  | substringAfter
  | substring
  | stringLength
  | normalizeSpace
  | translate
  | boolean
  | not
  | always
  | never
  | lang
  | number
  | sum
  | floor
  | ceiling
  | round
deriving DecidableEq, Repr

namespace CoreFunction

def table : List (CoreFunction × String × Arity) := [
  (.last, "last", .exactly 0),
  (.position, "position", .exactly 0),
  (.count, "count", .exactly 1),
  (.byId, "id", .exactly 1),
  (.localName, "local-name", .between 0 1),
  (.namespaceUri, "namespace-uri", .between 0 1),
  (.name, "name", .between 0 1),
  (.string, "string", .between 0 1),
  (.concat, "concat", .atLeast 2),
  (.startsWith, "starts-with", .exactly 2),
  (.contains, "contains", .exactly 2),
  (.substringBefore, "substring-before", .exactly 2),
  (.substringAfter, "substring-after", .exactly 2),
  (.substring, "substring", .between 2 3),
  (.stringLength, "string-length", .between 0 1),
  (.normalizeSpace, "normalize-space", .between 0 1),
  (.translate, "translate", .exactly 3),
  (.boolean, "boolean", .exactly 1),
  (.not, "not", .exactly 1),
  (.always, "true", .exactly 0),
  (.never, "false", .exactly 0),
  (.lang, "lang", .exactly 1),
  (.number, "number", .between 0 1),
  (.sum, "sum", .exactly 1),
  (.floor, "floor", .exactly 1),
  (.ceiling, "ceiling", .exactly 1),
  (.round, "round", .exactly 1)]

end CoreFunction

def requireNodes (function : String) : Value → Except Error (List Site)
  | .nodes sites => .ok sites
  | .scalar value => .error (.notNodes function value.shown)

def nodeArgument (source : Ranked) (focus : Focus) (function : String) :
    List Value → Except Error (Option Site)
  | [] => .ok (some focus.site)
  | value :: _ => (requireNodes function value).map source.first?

def textArgument (doc : Document) (focus : Focus) : List Value → String
  | [] => focus.site.value doc
  | value :: _ => value.toText doc

/-- Whether an element has an attribute `id` or `xml:id` with one of the values. -/
def hasId (doc : Document) (wanted : List (List Char)) (site : Site) : Bool :=
  (doc.attributes site.id).any fun a =>
    a.name == "id" && (a.namespaceUri == none || a.namespaceUri == some xmlNamespace) &&
      wanted.contains (trim a.value.toList)

def elementsById (source : Ranked) (root : Site) (value : Value) : List Site :=
  let doc := source.document
  let wanted := match value with
    | .nodes sites => sites.flatMap fun site => words (site.value doc).toList
    | .scalar value => words value.toText.toList
  source.ordered ((root.descendants doc).filter (hasId doc wanted))

/-- The characters whose positions, counted from 1, are at least `first` and less than `last`. -/
def charsBetween (first last : Float) (s : List Char) : List Char :=
  (s.zipIdx 1).filterMap fun (c, i) =>
    let position := Float.ofNat i
    if first ≤ position && position < last then some c else none

/-- Replaces each character of `replaced` by the one at its place in `replacements`, or by
nothing. -/
def translated (replaced replacements s : List Char) : List Char :=
  s.filterMap fun c =>
    match replaced.idxOf? c with
    | some i => replacements[i]?
    | none => some c

def declaredLanguage? (doc : Document) (site : Site) : Option String :=
  let start := if site.kind doc == .element then some site else site.parent? doc
  match start with
  | none => none
  | some site =>
    (site :: site.ancestors doc).findSome? fun above =>
      ((doc.attributes above.id).find? fun a =>
        a.namespaceUri == some xmlNamespace && a.name == "lang").map Attribute.value

/-- Whether a language is the wanted one or a variety of it; case does not matter. -/
def isLanguage (wanted declared : List Char) : Bool :=
  let wanted := lower wanted
  let declared := lower declared
  declared == wanted || (wanted ++ ['-']).isPrefixOf declared

/-- The sum of the numbers that sites hold; that of none is the neutral element, minus zero. -/
def sumOf (doc : Document) (sites : List Site) : Float :=
  sites.foldl (fun sum site => sum + Number.ofText (site.value doc).toList) (-0.0)

/-- The text before or after the first occurrence of a part, as `side` chooses. -/
def besides (side : List Char × List Char → List Char) (part s : List Char) : Value :=
  .text (String.ofList (((cutAt part s).map side).getD []))

def CoreFunction.apply (source : Ranked) (root : Site) (focus : Focus) (name : String)
    (arity : Arity) (function : CoreFunction) (arguments : List Value) : Except Error Value :=
  let doc := source.document
  let chars := fun (value : Value) => (value.toText doc).toList
  let named := fun (f : Site → Option String) =>
    (nodeArgument source focus name arguments).map fun site => .text ((site.bind f).getD "")
  let own := (textArgument doc focus arguments).toList
  match function, arguments with
  | .last, [] => .ok (.number (Float.ofNat focus.size))
  | .position, [] => .ok (.number (Float.ofNat focus.position))
  | .count, [nodes] =>
    (requireNodes name nodes).map fun sites => .number (Float.ofNat sites.length)
  | .byId, [value] => .ok (.nodes (elementsById source root value))
  | .localName, [] | .localName, [_] =>
    named fun site => (site.name? doc).map WrittenName.localName
  | .namespaceUri, [] | .namespaceUri, [_] => named (Site.namespaceUri? doc)
  | .name, [] | .name, [_] => named fun site => (site.name? doc).map WrittenName.text
  | .string, [] | .string, [_] => .ok (.text (String.ofList own))
  | .concat, first :: second :: more =>
    .ok (.text (String.join ((first :: second :: more).map (Value.toText doc))))
  | .startsWith, [s, start] => .ok (.boolean ((chars start).isPrefixOf (chars s)))
  | .contains, [s, part] => .ok (.boolean (Text.contains (chars s) (chars part)))
  | .substringBefore, [s, part] => .ok (besides Prod.fst (chars part) (chars s))
  | .substringAfter, [s, part] => .ok (besides Prod.snd (chars part) (chars s))
  | .substring, [s, start] =>
    let first := Number.round (start.toNumber doc)
    .ok (.text (String.ofList (charsBetween first Number.infinity (chars s))))
  | .substring, [s, start, length] =>
    let first := Number.round (start.toNumber doc)
    let last := first + Number.round (length.toNumber doc)
    .ok (.text (String.ofList (charsBetween first last (chars s))))
  | .stringLength, [] | .stringLength, [_] => .ok (.number (Float.ofNat own.length))
  | .normalizeSpace, [] | .normalizeSpace, [_] =>
    .ok (.text (String.ofList (joinWith [' '] (words own))))
  | .translate, [s, replaced, replacements] =>
    .ok (.text (String.ofList (translated (chars replaced) (chars replacements) (chars s))))
  | .boolean, [value] => .ok (.boolean value.toBool)
  | .not, [value] => .ok (.boolean (!value.toBool))
  | .always, [] => .ok (.boolean true)
  | .never, [] => .ok (.boolean false)
  | .lang, [wanted] =>
    .ok (.boolean ((declaredLanguage? doc focus.site).any fun declared =>
      isLanguage (chars wanted) declared.toList))
  | .number, [] => .ok (.number (Number.ofText own))
  | .number, [value] => .ok (.number (value.toNumber doc))
  | .sum, [nodes] => (requireNodes name nodes).map fun sites => .number (sumOf doc sites)
  | .floor, [value] => .ok (.number (Number.floor (value.toNumber doc)))
  | .ceiling, [value] => .ok (.number (Number.ceiling (value.toNumber doc)))
  | .round, [value] => .ok (.number (Number.round (value.toNumber doc)))
  | _, _ => .error (.wrongArity name arity arguments.length)

def callFunction (source : Ranked) (root : Site) (focus : Focus) (name : String)
    (arguments : List Value) : Except Error Value :=
  match CoreFunction.table.find? fun (_, found, _) => found == name with
  | some (function, _, arity) => function.apply source root focus name arity arguments
  | none => .error (.unknownFunction name)

end MarkupQuery.Query
