import MarkupQuery.Number.Shortest

namespace MarkupQuery.Number

def digitChars (n : Nat) : List Char := Nat.toDigits 10 n

def Decimal.positional (d : Decimal) : List Char :=
  let digits := digitChars d.digits
  if 0 ≤ d.exponent then digits ++ List.replicate d.exponent.toNat '0'
  else
    let places := (-d.exponent).toNat
    if digits.length ≤ places then
      '0' :: '.' :: List.replicate (places - digits.length) '0' ++ digits
    else
      digits.take (digits.length - places) ++ '.' :: digits.drop (digits.length - places)

def Decimal.exponential (d : Decimal) : List Char :=
  let digits := digitChars d.digits
  let power := d.exponent + digits.length - 1
  let sign := if power < 0 then ['-'] else []
  let tail := if digits.length ≤ 1 then [] else '.' :: digits.drop 1
  digits.take 1 ++ tail ++ 'e' :: sign ++ digitChars power.natAbs

def signOf (x : Float) : List Char := if isNegative x then ['-'] else []

/-- The text of a number as a string value: a whole number below 10^15 has no point, any other
finite one has the fewest digits that read back, always positional. -/
def text (x : Float) : List Char :=
  if x.isNaN then "NaN".toList
  else if !isFinite x then signOf x ++ "Infinity".toList
  else if x == 0.0 then ['0']
  else
    let (n, more) := scaled (magnitude x).significand (magnitude x).exponent |> fun (n, d) =>
      (n / d, n % d != 0)
    if !more && n < powerOfTen 15 then signOf x ++ digitChars n
    else signOf x ++ (shortest (magnitude x)).positional

/-- The text of a number inside a message: a fraction is always shown, and from 10^16 on or below
10^-4 an exponent. -/
def messageText (x : Float) : List Char :=
  if x.isNaN then "NaN".toList
  else if !isFinite x then signOf x ++ "inf".toList
  else if x == 0.0 then signOf x ++ "0.0".toList
  else
    let d := shortest (magnitude x)
    let power := d.exponent + (digitChars d.digits).length - 1
    if 16 ≤ power || power < -4 then signOf x ++ d.exponential
    else
      let shown := d.positional
      signOf x ++ (if 0 ≤ d.exponent then shown ++ ['.', '0'] else shown)

end MarkupQuery.Number
