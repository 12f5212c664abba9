namespace Conform.Number

-- Powers are those of the core library, also where more instances are in scope.
attribute [local instance (high)] instPowNat

/-- The nearest natural number to `num / den`; a half goes to the even neighbour. -/
def roundHalfEven (num den : Nat) : Nat :=
  let q := num / den
  let r := num % den
  if 2 * r < den then q
  else if den < 2 * r then q + 1
  else if q % 2 = 0 then q else q + 1

/-- A binary floating-point format. Its numbers are `m * 2 ^ e / 2 ^ bias` with
`m < 2 ^ precision` and `e ≤ lastExponent`. -/
structure BinaryFormat where
  precision : Nat
  bias : Nat
  lastExponent : Nat

def binary64 : BinaryFormat := ⟨53, 1074, 2045⟩

def binary32 : BinaryFormat := ⟨24, 149, 253⟩

namespace BinaryFormat

/-- `m` and `e` are the one way to write a number of the format with a leading digit as far to
the left as the format allows. -/
def Canonical (f : BinaryFormat) (m e : Nat) : Prop :=
  m < 2 ^ f.precision ∧ e ≤ f.lastExponent ∧ (e = 0 ∨ 2 ^ (f.precision - 1) ≤ m)

instance (f : BinaryFormat) (m e : Nat) : Decidable (f.Canonical m e) :=
  inferInstanceAs (Decidable (_ ∧ _ ∧ _))

/-- The exponent at which the integer part `n`, counted in units of the least positive number,
fits into the precision. -/
def exponentOf (f : BinaryFormat) (n : Nat) : Nat :=
  if n < 2 ^ f.precision then 0 else n.log2 + 1 - f.precision

/-- The significand and exponent nearest to `num / den`, with no bound on the exponent. -/
def round (f : BinaryFormat) (num den : Nat) : Nat × Nat :=
  let scaled := num * 2 ^ f.bias
  let e := f.exponentOf (scaled / den)
  let m := roundHalfEven scaled (den * 2 ^ e)
  if m = 2 ^ f.precision then (2 ^ (f.precision - 1), e + 1) else (m, e)

end BinaryFormat

end Conform.Number
