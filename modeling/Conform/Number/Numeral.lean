import Conform.Number.Shortest

namespace Conform.Number

-- Powers are those of the core library, also where more instances are in scope.
attribute [local instance (high)] instPowNat

def digitValue (c : Char) : Nat :=
  c.toNat - '0'.toNat

def ofDigits (digits : List Char) : Nat :=
  digits.foldl (fun n c => 10 * n + digitValue c) 0

def splitSign : List Char → Bool × List Char
  | '-' :: rest => (true, rest)
  | '+' :: rest => (false, rest)
  | rest => (false, rest)

def integer? (text : List Char) : Option Int :=
  let (negative, digits) := splitSign text
  if digits.isEmpty || !digits.all Char.isDigit then none
  else some (if negative then -(ofDigits digits : Int) else ofDigits digits)

/-- Whether an integer fits into 64 bits with a sign. -/
def FitsInt64 (n : Int) : Prop :=
  -2 ^ (63 : Nat) ≤ n ∧ n < 2 ^ (63 : Nat)

instance (n : Int) : Decidable (FitsInt64 n) :=
  inferInstanceAs (Decidable (_ ∧ _))

/-- An integer of 64 bits; one that does not fit is refused. -/
def int64? (text : String) : Option Int64 := do
  let n ← integer? text.toList
  if FitsInt64 n then some (Int64.ofInt n) else none

inductive Written where
  | nan
  | infinite (negative : Bool)
  | decimal (negative : Bool) (d : Decimal)

namespace Written

def significand? (text : List Char) : Option Decimal :=
  let whole := text.takeWhile Char.isDigit
  match text.dropWhile Char.isDigit with
  | [] => if whole.isEmpty then none else some ⟨ofDigits whole, 0⟩
  | '.' :: fraction =>
    if (whole.isEmpty && fraction.isEmpty) || !fraction.all Char.isDigit then none
    else some ⟨ofDigits (whole ++ fraction), -(fraction.length : Int)⟩
  | _ => none

def unsigned? (negative : Bool) (text : List Char) : Option Written :=
  let lower := text.map Char.toLower
  if lower = ['i', 'n', 'f'] || lower = ['i', 'n', 'f', 'i', 'n', 'i', 't', 'y'] then
    some (.infinite negative)
  else if lower = ['n', 'a', 'n'] then some .nan
  else do
    let d ← significand? (lower.takeWhile (· != 'e'))
    match lower.dropWhile (· != 'e') with
    | [] => some (.decimal negative d)
    | _ :: exponent => do
      let e ← integer? exponent
      some (.decimal negative ⟨d.digits, d.exponent + e⟩)

def ofText? (text : String) : Option Written :=
  let (negative, rest) := splitSign text.toList
  unsigned? negative rest

/-- The number that a rounding of quotients makes of a text. Beyond the exponents 400 and -400 of
the first digit lie only infinity and zero. -/
def rounded (round : Bool → Nat → Nat → Binary64) : Written → Binary64
  | .nan => .nan
  | .infinite negative => .infinite negative
  | .decimal negative d =>
    if d.digits = 0 || d.scientificExponent < -400 then .zero negative
    else if 400 < d.scientificExponent then .infinite negative
    else round negative (d.digits * 10 ^ d.exponent.toNat) (10 ^ (-d.exponent).toNat)

def toDouble : Written → Binary64 :=
  rounded Binary64.ofRatio

def toSingle : Written → Binary64 :=
  rounded Binary64.singleOfRatio

end Written

end Conform.Number
