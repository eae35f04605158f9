import MarkupQuery.Number.Binary
import MarkupQuery.Text.Blank

namespace MarkupQuery.Number

open MarkupQuery.Text

def digitValue (c : Char) : Nat := c.toNat - '0'.toNat

def digitsValue (digits : List Char) : Nat :=
  digits.foldl (fun n c => 10 * n + digitValue c) 0

def ofDigits (whole fraction : List Char) : Float :=
  nearest (digitsValue (whole ++ fraction)) (powerOfTen fraction.length)

/-- Reads `Digits ('.' Digits?)? | '.' Digits` as far as it goes. A fraction after other digits
that runs to the end of the text does not count. -/
def numeral? (s : List Char) : Option (Float × List Char) :=
  let whole := s.takeWhile Char.isDigit
  let rest := s.dropWhile Char.isDigit
  match rest with
  | '.' :: more =>
    let fraction := more.takeWhile Char.isDigit
    let after := more.dropWhile Char.isDigit
    if whole.isEmpty then
      if fraction.isEmpty then none else some (ofDigits [] fraction, after)
    else some (ofDigits whole (if after.isEmpty then [] else fraction), after)
  | _ => if whole.isEmpty then none else some (ofDigits whole [], rest)

/-- Reads a string as a number: blanks around it, an optional minus sign, digits with at most one
point among them. Anything else is not a number. -/
def ofText (s : List Char) : Float :=
  let body := trim s
  let negative := body.head? == some '-'
  let digits := if negative then body.drop 1 else body
  let whole := digits.takeWhile Char.isDigit
  let fraction? := match digits.dropWhile Char.isDigit with
    | [] => some []
    | '.' :: more => if more.all Char.isDigit then some more else none
    | _ => none
  match fraction? with
  | none => notANumber
  | some fraction =>
    if whole.isEmpty && fraction.isEmpty then notANumber
    else withSign negative (ofDigits whole fraction)

end MarkupQuery.Number
