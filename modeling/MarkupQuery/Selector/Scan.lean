import MarkupQuery.Selector.Error
import MarkupQuery.Selector.Token
import MarkupQuery.Text.Blank
import MarkupQuery.Text.Letter
import MarkupQuery.Text.Search

namespace MarkupQuery.Selector

open MarkupQuery.Text

/-- Any character outside ASCII may stand in a selector name, also at its start. -/
def isNameStart (c : Char) : Bool :=
  isLetter c || c == '_' || c == '-' || 128 ≤ c.toNat

def isNameChar (c : Char) : Bool :=
  isLetterOrNumeral c || c == '_' || c == '-' || 128 ≤ c.toNat

def identifier? : List Char → Option (String × List Char)
  | [] => none
  | c :: cs =>
    if isNameStart c then
      some (String.ofList (c :: cs.takeWhile isNameChar), cs.dropWhile isNameChar)
    else none

def nameOrStar? : List Char → Option (String × List Char)
  | '*' :: cs => some ("*", cs)
  | s => identifier? s

def qualifiedName? (s : List Char) : Option (Name × List Char) := do
  let (first, rest) ← nameOrStar? s
  match rest with
  | '|' :: more =>
    match nameOrStar? more with
    | some (second, after) => some (⟨some first, second⟩, after)
    -- a bar with no name behind it is not part of the name
    | none => some (⟨none, first⟩, rest)
  | _ => some (⟨none, first⟩, rest)

def quoted? (quote : Char) (s : List Char) : Option (String × List Char) :=
  match s.dropWhile (· != quote) with
  | [] => none
  | _ :: rest => some (String.ofList (s.takeWhile (· != quote)), rest)

def attributeValue? : List Char → Option (String × List Char)
  | '"' :: cs => quoted? '"' cs
  | '\'' :: cs => quoted? '\'' cs
  | s => identifier? s

def comparison? : List Char → Option (Comparison × List Char)
  | '=' :: cs => some (.equals, cs)
  | '~' :: '=' :: cs => some (.includes, cs)
  | '*' :: '=' :: cs => some (.contains, cs)
  | _ => none

def attributeTest? (s : List Char) : Option (Token × List Char) := do
  let (name, rest) ← qualifiedName? (skipSpace s)
  let (comparison, rest) ← comparison? (skipSpace rest)
  let (value, rest) ← attributeValue? (skipSpace rest)
  match skipSpace rest with
  | ']' :: after => some (.attribute name comparison value, after)
  | _ => none

def simpleToken? : List Char → Option (Token × List Char)
  | '#' :: cs => (identifier? cs).map fun (name, rest) => (.id name, rest)
  | '.' :: cs => (identifier? cs).map fun (name, rest) => (.className name, rest)
  | '[' :: cs => attributeTest? cs
  | s => (qualifiedName? s).map fun (name, rest) => (.element name, rest)

/-- The token at the start of a text. White space belongs to a `>` or `,` next to it and is the
descendant combinator otherwise. -/
def token? (s : List Char) : Option (Token × List Char) :=
  match skipSpace s with
  | '>' :: cs => some (.child, skipSpace cs)
  | ',' :: cs => some (.comma, skipSpace cs)
  | rest => if rest.length < s.length then some (.descendant, rest) else simpleToken? s

def unsupportedOperator? (inner : List Char) : Option Nat :=
  ["^=", "$=", "|="].findSome? fun operator =>
    (cutAt operator.toList inner).map fun (before, _) => byteLength before

def isOddCount (c : Char) (s : List Char) : Bool := s.count c % 2 == 1

def attributeProblem (selector : String) (offset : Nat) (s : List Char) : Error :=
  if !s.contains ']' then .malformed selector offset .unclosedBracket
  else
    let inner := s.takeWhile (· != ']')
    match unsupportedOperator? inner with
    | some place => .unsupported selector (offset + 1 + place) .attributeOperator
    | none =>
      if !inner.contains '=' then .unsupported selector offset .attributePresence
      else if isOddCount '"' inner || isOddCount '\'' inner then
        .malformed selector offset .unclosedString
      else .malformed selector offset .attributeTest

def tokenProblem (selector : String) (offset : Nat) (c : Char) (rest : List Char) : Error :=
  if c == ':' then .unsupported selector offset .pseudoClass
  else if c == '+' || c == '~' then .unsupported selector offset .siblingCombinator
  else if c == '[' then attributeProblem selector offset rest
  else if c == ']' then .malformed selector offset .unopenedBracket
  else if c == '"' || c == '\'' then .malformed selector offset .strayString
  else if c == '#' || c == '.' then .malformed selector offset (.nameExpected c)
  else .malformed selector offset (.unexpected c)

def isAnyNamespace : Token → Bool
  | .element ⟨some "*", _⟩ => true
  | _ => false

/-- The tokens of a text that starts at `offset`; `fuel` bounds their number. -/
def tokensFrom (selector : String) : Nat → Nat → List Char → Except Error (List Placed)
  | _, _, [] => .ok []
  | 0, _, _ :: _ => .ok []
  | fuel + 1, offset, c :: cs =>
    match token? (c :: cs) with
    | none => .error (tokenProblem selector offset c cs)
    | some (token, rest) =>
      if isAnyNamespace token then .error (.unsupported selector offset .anyNamespace)
      else do
        let next := offset + (byteLength (c :: cs) - byteLength rest)
        let tokens ← tokensFrom selector fuel next rest
        pure (⟨token, offset⟩ :: tokens)

def tokenize (selector : String) : Except Error (List Placed) :=
  let body := trimEnd selector.toList
  let start := trimStart body
  tokensFrom selector start.length (byteLength body - byteLength start) start

end MarkupQuery.Selector
