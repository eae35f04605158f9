import MarkupQuery.Text.Blank
import MarkupQuery.Text.Search
import MarkupQuery.Xml.Event

namespace MarkupQuery.Xml

open MarkupQuery.Text

def isChar (c : Char) : Bool :=
  let n := c.toNat
  if n < 32 then n == 9 || n == 10 || n == 13 else n != 0xFFFE && n != 0xFFFF

/-- A character that may start a name, the colon apart. -/
def isNameStart (c : Char) : Bool :=
  let n := c.toNat
  if n < 128 then c.isAlpha || c == '_'
  else
    (0xC0 ≤ n && n ≤ 0xD6) || (0xD8 ≤ n && n ≤ 0xF6) || (0xF8 ≤ n && n ≤ 0x2FF) ||
    (0x370 ≤ n && n ≤ 0x37D) || (0x37F ≤ n && n ≤ 0x1FFF) || (0x200C ≤ n && n ≤ 0x200D) ||
    (0x2070 ≤ n && n ≤ 0x218F) || (0x2C00 ≤ n && n ≤ 0x2FEF) || (0x3001 ≤ n && n ≤ 0xD7FF) ||
    (0xF900 ≤ n && n ≤ 0xFDCF) || (0xFDF0 ≤ n && n ≤ 0xFFFD) || (0x10000 ≤ n && n ≤ 0xEFFFF)

def isNameChar (c : Char) : Bool :=
  let n := c.toNat
  isNameStart c || c.isDigit || c == '-' || c == '.' || n == 0xB7 ||
    (0x300 ≤ n && n ≤ 0x36F) || (0x203F ≤ n && n ≤ 0x2040)

def name? : List Char → Option (String × List Char)
  | [] => none
  | c :: cs =>
    let continues := fun c => isNameChar c || c == ':'
    if isNameStart c || c == ':' then
      some (String.ofList (c :: cs.takeWhile continues), cs.dropWhile continues)
    else none

def startsName : List Char → Bool
  | [] => false
  | c :: _ => isNameStart c

/-- A name with at most one colon; both parts of it have to start like names, but the part before
the colon may be empty. -/
def qualifiedName? (s : List Char) : Option (QName × List Char) :=
  let first := s.takeWhile isNameChar
  match s.dropWhile isNameChar with
  | ':' :: more =>
    let second := more.takeWhile isNameChar
    if (first.isEmpty || startsName first) && startsName second then
      some (⟨some (String.ofList first), String.ofList second⟩, more.dropWhile isNameChar)
    else none
  | rest => if startsName first then some (⟨none, String.ofList first⟩, rest) else none

def spaces? : List Char → Option (List Char)
  | [] => none
  | c :: cs => if isSpace c then some (skipSpace cs) else none

/-- The characters up to the end mark, all of them allowed in markup, and what follows the mark. -/
def upTo? (mark : String) (s : List Char) : Option (List Char × List Char) := do
  let (inside, after) ← cutAt mark.toList s
  if inside.all isChar then some (inside, after) else none

def quoted? (p : Char → Bool) : List Char → Option (List Char × List Char)
  | [] => none
  | q :: s =>
    if q == '"' || q == '\'' then
      let inside := s.takeWhile fun c => c != q && p c
      match s.dropWhile fun c => c != q && p c with
      | [] => none
      | c :: rest => if c == q then some (inside, rest) else none
    else none

def attribute? (s : List Char) : Option (QName × List Char × List Char) := do
  let (name, rest) ← qualifiedName? s
  match skipSpace rest with
  | '=' :: more =>
    let (value, after) ← quoted? (fun c => isChar c && c != '<') (skipSpace more)
    pure (name, value, after)
  | _ => none

end MarkupQuery.Xml
