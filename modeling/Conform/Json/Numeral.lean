import Conform.Json.Basic
import Conform.Number.Numeral

namespace Conform.Json

-- Powers are those of the core library, also where more instances are in scope.
attribute [local instance (high)] instPowNat

open Number

structure Numeral where
  negative : Bool
  whole : List Char
  fraction : Option (List Char)
  exponent : Option (Bool × List Char)

def digits? (text : List Char) : Option (List Char × List Char) :=
  let digits := text.takeWhile Char.isDigit
  if digits.isEmpty then none else some (digits, text.dropWhile Char.isDigit)

def fraction? : List Char → Option (Option (List Char) × List Char)
  | '.' :: text => do
    let (digits, rest) ← digits? text
    some (some digits, rest)
  | text => some (none, text)

def exponent? : List Char → Option (Option (Bool × List Char) × List Char)
  | c :: text =>
    if c = 'e' || c = 'E' then do
      let (negative, unsigned) := splitSign text
      let (digits, rest) ← digits? unsigned
      some (some (negative, digits), rest)
    else some (none, c :: text)
  | [] => some (none, [])

/-- A number at the front of a text. Its whole part has no zero before other digits. -/
def numeral? (text : List Char) : Option (Numeral × List Char) := do
  let (negative, unsigned) :=
    match text with
    | '-' :: rest => (true, rest)
    | _ => (false, text)
  let (whole, rest) ← digits? unsigned
  if whole.head? = some '0' && whole.length ≠ 1 then none
  else do
    let (fraction, rest) ← fraction? rest
    let (exponent, rest) ← exponent? rest
    some (⟨negative, whole, fraction, exponent⟩, rest)

/-- Appends digits to a significand up to the first that does not fit into 64 bits. Also says how
many were appended. -/
def appendDigits (significand : Nat) : List Char → Nat × Nat
  | [] => (significand, 0)
  | c :: rest =>
    let longer := 10 * significand + digitValue c
    if longer < 2 ^ (64 : Nat) then
      let (final, count) := appendDigits longer rest
      (final, count + 1)
    else (significand, 0)

/-- Divides by `10 ^ k` in steps that have a power of ten as a float. A number of 64 bits has
become zero after two whole steps. -/
def overPower (steps : Nat) (x : Binary64) (k : Nat) : Binary64 :=
  match steps with
  | 0 => x
  | steps + 1 =>
    if x.isZero then x
    else if k ≤ 308 then x.overPowerOfTen k
    else overPower steps (x.overPowerOfTen 308) (k - 308)

/-- Multiplies by a power of ten; a result too large for a float is refused. -/
def scaleByTen (x : Binary64) (e : Int) : Option Binary64 :=
  if e < 0 then some (overPower 3 x e.natAbs)
  else if x.isZero then some x
  else if 308 < e then none
  else
    let y := x.timesPowerOfTen e.toNat
    if y.isFinite then some y else none

namespace Numeral

/-- The number as a float, made from as many leading digits as fit into 64 bits and one power of
ten. -/
def toFloat? (n : Numeral) : Option Binary64 := do
  let (whole, wholeCount) := appendDigits 0 n.whole
  let (significand, fractionCount) := appendDigits whole (n.fraction.getD [])
  let exponent : Int :=
    match n.exponent with
    | none => 0
    | some (negative, digits) => if negative then -(ofDigits digits : Int) else ofDigits digits
  let dropped := n.whole.length - wholeCount
  let x ← scaleByTen (.ofInt significand) (dropped - fractionCount + exponent)
  some (if n.negative then x.neg else x)

/-- The number as a document: an integer when it is written as one and fits. -/
def toJson? (n : Numeral) : Option Json :=
  match n.fraction, n.exponent with
  | none, none =>
    let m := ofDigits n.whole
    if !n.negative && m < 2 ^ (64 : Nat) then some (.integer m)
    else if n.negative && 0 < m && m ≤ 2 ^ (63 : Nat) then some (.integer (-m))
    else n.toFloat?.map .float
  | _, _ => n.toFloat?.map .float

end Numeral

end Conform.Json
