import MarkupQuery.Xml.Name

namespace MarkupQuery.Xml

/-- A piece of character data: a character that stands for itself, one given by a reference, or a
reference to an entity. -/
inductive Piece where
  | literal (c : Char)
  | referenced (c : Char)
  | entity (name : String)
deriving DecidableEq, Repr

def isHexDigit (c : Char) : Bool :=
  c.isDigit || ('a' ≤ c && c ≤ 'f') || ('A' ≤ c && c ≤ 'F')

def hexDigitValue (c : Char) : Nat :=
  if c.isDigit then c.toNat - '0'.toNat
  else if 'a' ≤ c then c.toNat - 'a'.toNat + 10
  else c.toNat - 'A'.toNat + 10

/-- The character with the given code; codes that stand for no character give U+FFFD. -/
def codedChar? (digits : List Char) (base : Nat) : Option Char :=
  let code := digits.foldl (fun n c => base * n + hexDigitValue c) 0
  let c := if code.isValidChar then Char.ofNat code else Char.ofNat 0xFFFD
  if digits.isEmpty || 0xFFFFFFFF < code || !isChar c then none else some c

def endReference? (piece : Piece) : List Char → Option (Piece × List Char)
  | ';' :: rest => some (piece, rest)
  | _ => none

def codedReference? (isDigit : Char → Bool) (base : Nat) (s : List Char) :
    Option (Piece × List Char) := do
  let c ← codedChar? (s.takeWhile isDigit) base
  endReference? (.referenced c) (s.dropWhile isDigit)

def predefined? : String → Option Char
  | "quot" => some '"'
  | "amp" => some '&'
  | "apos" => some '\''
  | "lt" => some '<'
  | "gt" => some '>'
  | _ => none

def reference? : List Char → Option (Piece × List Char)
  | '#' :: 'x' :: s => codedReference? isHexDigit 16 s
  | '#' :: s => codedReference? Char.isDigit 10 s
  | s => do
    let (name, rest) ← name? s
    match predefined? name with
    | some c => endReference? (.referenced c) rest
    | none => endReference? (.entity name) rest

def piecesUpTo : Nat → List Char → Option (List Piece)
  | _, [] => some []
  | 0, _ :: _ => none
  | fuel + 1, '&' :: s => do
    let (piece, rest) ← reference? s
    let more ← piecesUpTo fuel rest
    pure (piece :: more)
  | fuel + 1, c :: s => (piecesUpTo fuel s).map (.literal c :: ·)

def pieces? (s : List Char) : Option (List Piece) := piecesUpTo s.length s

end MarkupQuery.Xml
