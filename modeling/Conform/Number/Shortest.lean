import Conform.Number.Binary64

namespace Conform.Number

-- Powers are those of the core library, also where more instances are in scope.
attribute [local instance (high)] instPowNat

structure Decimal where
  digits : Nat
  exponent : Int
  deriving DecidableEq

def decimalLength (n : Nat) : Nat :=
  (Nat.toDigits 10 n).length

namespace Decimal

def scientificExponent (d : Decimal) : Int :=
  d.exponent + decimalLength d.digits - 1

/-- The same decimal without zeros at the end of its digits, of which at most `fuel` are
removed. -/
def trimmed (fuel : Nat) (d : Decimal) : Decimal :=
  match fuel with
  | 0 => d
  | fuel + 1 =>
    if d.digits % 10 = 0 && d.digits != 0 then trimmed fuel ⟨d.digits / 10, d.exponent + 1⟩ else d

end Decimal

/-- Which of two decimals at the same distance is taken. -/
inductive Tie where
  | up
  | toEven

/-- The positive numbers that round to one number of a format, as quarters of a unit:
`low / den` to `high / den` around `mid / den`. -/
structure RoundingInterval where
  low : Nat
  mid : Nat
  high : Nat
  den : Nat
  closed : Bool

namespace RoundingInterval

/-- The interval of a positive double-precision number. The gap below a power of two is half the
gap above it; the ends belong to the interval when the significand is even. -/
def of (m e : Nat) : RoundingInterval where
  low := (4 * m - if m = 2 ^ (52 : Nat) ∧ e ≠ 0 then 1 else 2) * 2 ^ e
  mid := 4 * m * 2 ^ e
  high := (4 * m + 2) * 2 ^ e
  den := 2 ^ (1076 : Nat)
  closed := m % 2 = 0

def scaled (i : RoundingInterval) (k : Int) : RoundingInterval :=
  let up := 10 ^ k.toNat
  { i with
    low := i.low * up, mid := i.mid * up, high := i.high * up, den := i.den * 10 ^ (-k).toNat }

def contains (i : RoundingInterval) (n : Nat) : Bool :=
  if i.closed then i.low ≤ n * i.den && n * i.den ≤ i.high
  else i.low < n * i.den && n * i.den < i.high

def nearest? (tie : Tie) (i : RoundingInterval) : Option Nat :=
  let below := i.mid / i.den
  let above := below + 1
  match i.contains below, i.contains above with
  | true, true =>
    let r := 2 * (i.mid % i.den)
    if r < i.den then some below
    else if i.den < r then some above
    else match tie with
      | .up => some above
      | .toEven => some (if below % 2 = 0 then below else above)
  | true, false => some below
  | false, true => some above
  | false, false => none

def firstExponent (i : RoundingInterval) : Int :=
  if i.den ≤ i.mid then decimalLength (i.mid / i.den) - 1
  else -(decimalLength ((i.den - 1) / i.mid) : Int)

/-- The decimal of the fewest digits in the interval, starting from `digits` of them. Seventeen
digits tell all double-precision numbers apart. -/
def shortest (tie : Tie) (i : RoundingInterval) (first : Int) (fuel digits : Nat) : Decimal :=
  let last := first + 1 - digits
  match fuel with
  | 0 => ⟨(i.scaled (-last)).mid / (i.scaled (-last)).den, last⟩
  | fuel + 1 =>
    match (i.scaled (-last)).nearest? tie with
    | some n => Decimal.trimmed 18 ⟨n, last⟩
    | none => shortest tie i first fuel (digits + 1)

end RoundingInterval

def shortestDecimal (tie : Tie) (m e : Nat) : Decimal :=
  if m = 0 then ⟨0, 0⟩
  else
    let i := RoundingInterval.of m e
    i.shortest tie i.firstExponent 17 1

end Conform.Number
