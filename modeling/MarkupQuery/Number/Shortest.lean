import MarkupQuery.Number.Binary

namespace MarkupQuery.Number

structure Decimal where
  digits : Nat
  exponent : Int
deriving DecidableEq, Repr

/-- The numbers that round to one double, in quarters of its last place. -/
structure Interval where
  low : Nat
  value : Nat
  high : Nat
  exponent : Int
  closed : Bool
deriving Repr

/-- Halfway to the neighbours of a double; the ends belong to it when its significand is even. -/
def Binary.interval (b : Binary) : Interval :=
  let m := b.significand
  -- below a power of two the doubles lie twice as close
  let gap := if m = powerOfTwo 52 ∧ b.exponent ≠ -1074 then 1 else 2
  ⟨4 * m - gap, 4 * m, 4 * m + 2, b.exponent - 2, m % 2 = 0⟩

def tenfold (n : Nat) (p : Int) : Nat × Nat :=
  if 0 ≤ p then (n * powerOfTen p.toNat, 1) else (n, powerOfTen (-p).toNat)

def Interval.holds (i : Interval) (digits : Nat) (p : Int) : Bool :=
  let (n, d) := tenfold digits p
  let (unit, unitDen) := scaled 1 i.exponent
  let point := n * unitDen
  let low := i.low * unit * d
  let high := i.high * unit * d
  if i.closed then low ≤ point && point ≤ high else low < point && point < high

/-- The better of the two multiples of `10 ^ p` around the value, if one lies in the interval;
midway between them the greater one is taken. -/
def Interval.candidate? (i : Interval) (p : Int) : Option Nat :=
  let (value, valueDen) := scaled i.value i.exponent
  let (ten, tenDen) := tenfold 1 p
  let num := value * tenDen
  let den := valueDen * ten
  let below := num / den
  let left := num % den
  let lowFits := i.holds below p
  let highFits := i.holds (below + 1) p
  if lowFits && (left = 0 || !highFits || 2 * left < den) then some below
  else if highFits then some (below + 1)
  else none

def digitCount (n : Nat) : Nat := (Nat.toDigits 10 n).length

def leadingPower (num den : Nat) : Int :=
  if den ≤ num then (digitCount (num / den) : Int) - 1
  else
    let guess : Int := -(digitCount (den / num) : Int)
    let (n, d) := tenfold 1 guess
    if n * den ≤ num * d then guess else guess - 1

def Interval.search (i : Interval) (p : Int) : Nat → Decimal
  | 0 => ⟨0, 0⟩
  | fuel + 1 =>
    match i.candidate? p with
    | some digits => ⟨digits, p⟩
    | none => i.search (p - 1) fuel

def Decimal.trimmed (d : Decimal) : Nat → Decimal
  | 0 => d
  | fuel + 1 =>
    if d.digits ≠ 0 ∧ d.digits % 10 = 0 then
      Decimal.trimmed ⟨d.digits / 10, d.exponent + 1⟩ fuel
    else d

/-- The fewest digits that read back as the double, and of those the nearest to it. -/
def shortest (b : Binary) : Decimal :=
  let (num, den) := scaled b.significand b.exponent
  -- seventeen digits tell any two doubles apart
  let d := b.interval.search (leadingPower num den) 18
  d.trimmed (digitCount d.digits)

end MarkupQuery.Number
