namespace MarkupQuery.Number

/-- The magnitude `significand * 2 ^ exponent` of a finite double. -/
structure Binary where
  significand : Nat
  exponent : Int
deriving DecidableEq, Repr

def powerOfTwo (n : Nat) : Nat := Nat.pow 2 n

def powerOfTen (n : Nat) : Nat := Nat.pow 10 n

def isNegative (x : Float) : Bool := x.toBits.toNat ≥ powerOfTwo 63

def magnitude (x : Float) : Binary :=
  let bits : Nat := x.toBits.toNat % powerOfTwo 63
  let scale : Nat := bits / powerOfTwo 52
  if scale = 0 then ⟨bits, -1074⟩
  else ⟨powerOfTwo 52 + bits % powerOfTwo 52, (scale : Int) - 1075⟩

def scaled (n : Nat) (e : Int) : Nat × Nat :=
  if 0 ≤ e then (n * powerOfTwo e.toNat, 1) else (n, powerOfTwo (-e).toNat)

def roundHalfEven (num den : Nat) : Nat :=
  let q := num / den
  let twice := 2 * (num % den)
  if twice < den then q
  else if den < twice then q + 1
  else q + q % 2

/-- The exponent at which the significand of `num / den` has 53 bits, or the least one. -/
def exponentOf (num den : Nat) : Int :=
  let e : Int := (num.log2 : Int) - den.log2 - 52
  let (a, b) := scaled den e
  let e := if num * b < powerOfTwo 52 * a then e - 1 else e
  max e (-1074)

/-- The double nearest to `num / den`; too large a quotient gives infinity. -/
def nearest (num den : Nat) : Float :=
  if num = 0 then 0.0
  else
    let e := exponentOf num den
    let (a, b) := scaled den e
    let bits := (e + 1074).toNat * powerOfTwo 52 + roundHalfEven (num * b) a
    Float.ofBits (UInt64.ofNat (min bits (2047 * powerOfTwo 52)))

def withSign (negative : Bool) (x : Float) : Float := if negative then -x else x

def isFinite (x : Float) : Bool := x.toBits.toNat / powerOfTwo 52 % 2048 != 2047

def notANumber : Float := 0.0 / 0.0

def infinity : Float := 1.0 / 0.0

def Binary.whole (b : Binary) : Nat × Bool :=
  let (n, d) := scaled b.significand b.exponent
  (n / d, n % d != 0)

def floor (x : Float) : Float :=
  if !isFinite x then x
  else
    let (n, more) := (magnitude x).whole
    if isNegative x then -(nearest (if more then n + 1 else n) 1) else nearest n 1

def ceiling (x : Float) : Float :=
  if !isFinite x then x
  else
    let (n, more) := (magnitude x).whole
    if isNegative x then -(nearest n 1) else nearest (if more then n + 1 else n) 1

/-- The nearest integer, halves going up. -/
def round (x : Float) : Float :=
  if !isFinite x || x == 0.0 then x else floor (x + 0.5)

/-- The remainder of the division truncated toward zero, with the sign of the dividend. -/
def remainder (x y : Float) : Float :=
  if x.isNaN || y.isNaN || !isFinite x || y == 0.0 then notANumber
  else if !isFinite y then x
  else
    let a := magnitude x
    let b := magnitude y
    let e := min a.exponent b.exponent
    let left := a.significand * powerOfTwo (a.exponent - e).toNat
    let right := b.significand * powerOfTwo (b.exponent - e).toNat
    let (num, den) := scaled (left % right) e
    withSign (isNegative x) (nearest num den)

end MarkupQuery.Number
