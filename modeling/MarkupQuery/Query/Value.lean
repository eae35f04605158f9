import MarkupQuery.Number.Numeral
import MarkupQuery.Number.Text
import MarkupQuery.Query.Site
import MarkupQuery.Text.Printable

namespace MarkupQuery.Query

open MarkupQuery.Text
open MarkupQuery.Tree (Document)

inductive Scalar where
  | text (value : String)
  | number (value : Float)
  | boolean (value : Bool)

inductive Value where
  | nodes (sites : List Site)
  | scalar (value : Scalar)

instance : Inhabited Value := ⟨.nodes []⟩

namespace Scalar

def toBool : Scalar → Bool
  | text value => !value.isEmpty
  | number value => value != 0.0 && !value.isNaN
  | boolean value => value

def toNumber : Scalar → Float
  | text value => Number.ofText value.toList
  | number value => value
  | boolean value => if value then 1.0 else 0.0

def toText : Scalar → String
  | text value => value
  | number value => String.ofList (Number.text value)
  | boolean value => if value then "true" else "false"

def shownChar (c : Char) : List Char :=
  if c == '"' then ['\\', '"']
  else if c == '\\' then ['\\', '\\']
  else if c == '\n' then ['\\', 'n']
  else if c == '\t' then ['\\', 't']
  else if c == '\r' then ['\\', 'r']
  else if c.toNat == 0 then ['\\', '0']
  else if isPrintable c then [c]
  else "\\u\x7b".toList ++ Nat.toDigits 16 c.toNat ++ ['\x7d']

def shown : Scalar → String
  | text value => "String(\"" ++ String.ofList (value.toList.flatMap shownChar) ++ "\")"
  | number value => "Number(" ++ String.ofList (Number.messageText value) ++ ")"
  | boolean value => "Boolean(" ++ (if value then "true" else "false") ++ ")"

end Scalar

namespace Value

def text (value : String) : Value := .scalar (.text value)

def number (value : Float) : Value := .scalar (.number value)

def boolean (value : Bool) : Value := .scalar (.boolean value)

def toBool : Value → Bool
  | nodes sites => !sites.isEmpty
  | scalar value => value.toBool

/-- The string value of the first node stands for a node-set. -/
def toText (doc : Document) : Value → String
  | nodes sites => (sites.head?.map (Site.value doc)).getD ""
  | scalar value => value.toText

def toNumber (doc : Document) : Value → Float
  | nodes sites =>
    (sites.head?.map fun site => Number.ofText (site.value doc).toList).getD Number.notANumber
  | scalar value => value.toNumber

end Value

end MarkupQuery.Query
