import Conform.Number.Shortest

namespace Conform.Number

structure Layout where
  /-- The exponents of the first digit for which no exponent is written. -/
  positional : Int → Bool
  /-- What stands before an exponent that is not negative. -/
  plus : String
  tie : Tie
  nan : String
  infinity : String

/-- Digits with a point in or beside them, zeros filling the gap; at least one digit stands on
each side of the point. -/
def positionalText (d : Decimal) : String :=
  let digits := Nat.toDigits 10 d.digits
  let point := digits.length + d.exponent
  if point ≤ 0 then
    String.ofList (['0', '.'] ++ List.replicate (-point).toNat '0' ++ digits)
  else if digits.length ≤ point then
    String.ofList (digits ++ List.replicate d.exponent.toNat '0' ++ ['.', '0'])
  else
    String.ofList (digits.take point.toNat ++ ['.'] ++ digits.drop point.toNat)

def scientificText (plus : String) (d : Decimal) : String :=
  let digits := Nat.toDigits 10 d.digits
  let significand :=
    match digits with
    | first :: second :: rest => String.ofList (first :: '.' :: second :: rest)
    | _ => String.ofList digits
  let e := d.scientificExponent
  significand ++ "e" ++ (if e < 0 then "-" else plus) ++ toString e.natAbs

namespace Layout

def text (l : Layout) : Binary64 → String
  | .nan => l.nan
  | .infinite s => (if s then "-" else "") ++ l.infinity
  | .finite s m e _ =>
    let d := shortestDecimal l.tie m e
    (if s then "-" else "") ++
      if m = 0 || l.positional d.scientificExponent then positionalText d
      else scientificText l.plus d

/-- Numbers from `1e-4` up to `1e16` are written without an exponent. -/
def inspect : Layout where
  positional e := -4 ≤ e && e < 16
  plus := ""
  tie := .up
  nan := "NaN"
  infinity := "inf"

/-- Every digit is written, however many zeros that takes. -/
def plain : Layout where
  positional _ := true
  plus := ""
  tie := .up
  nan := "NaN"
  infinity := "inf"

end Layout

end Conform.Number
