import Conform.Number.Rounding

namespace Conform.Number

-- Powers are those of the core library, also where more instances are in scope.
attribute [local instance (high)] instPowNat

/-- A double-precision number: not a number, an infinity, or
`± significand * 2 ^ exponent / 2 ^ 1074`. -/
inductive Binary64 where
  | nan
  | infinite (negative : Bool)
  | finite (negative : Bool) (significand exponent : Nat)
      (canonical : binary64.Canonical significand exponent)

namespace Binary64

def zero (negative : Bool) : Binary64 :=
  .finite negative 0 0 (by decide)

/-- The number with this significand and exponent, infinite when the exponent is too large. -/
def ofParts (negative : Bool) (significand exponent : Nat) : Binary64 :=
  if h : binary64.Canonical significand exponent then .finite negative significand exponent h
  else .infinite negative

/-- The number nearest to `± num / den`. -/
def ofRatio (negative : Bool) (num den : Nat) : Binary64 :=
  let (m, e) := binary64.round num den
  ofParts negative m e

/-- The single-precision number nearest to `± num / den`. It is a double-precision number too, so
only one rounding takes place. -/
def singleOfRatio (negative : Bool) (num den : Nat) : Binary64 :=
  let (m, e) := binary32.round num den
  if e ≤ binary32.lastExponent then ofRatio negative (m * 2 ^ e) (2 ^ binary32.bias)
  else .infinite negative

def ofInt (n : Int) : Binary64 :=
  ofRatio (n < 0) n.natAbs 1

def isFinite : Binary64 → Bool
  | .finite .. => true
  | _ => false

def isZero : Binary64 → Bool
  | .finite _ m _ _ => m == 0
  | _ => false

def neg : Binary64 → Binary64
  | .nan => .nan
  | .infinite s => .infinite (!s)
  | .finite s m e h => .finite (!s) m e h

/-- Numeric equality: what is not a number equals nothing, and both zeros are equal. -/
def beq : Binary64 → Binary64 → Bool
  | .infinite s, .infinite t => s == t
  | .finite s m e _, .finite t n f _ => m == n && e == f && (s == t || m == 0)
  | _, _ => false

instance : BEq Binary64 := ⟨beq⟩

theorem beq_comm (x y : Binary64) : (x == y) = (y == x) := by
  cases x <;> cases y <;> simp only [BEq.beq, beq]
  · rename_i s t
    cases s <;> cases t <;> rfl
  · rename_i s m e _ t n f _
    by_cases hm : m = n
    · subst hm
      cases s <;> cases t <;> by_cases he : e = f <;> simp_all [eq_comm]
    · simp_all [eq_comm]

theorem beq_trans {x y z : Binary64} (h : (x == y) = true) (k : (y == z) = true) :
    (x == z) = true := by
  cases x <;> cases y <;> cases z <;> simp_all [BEq.beq, beq]
  next s m e _ t n f _ u o g _ => grind

/-- The size of a finite number, counted in the least positive one. -/
def units : Binary64 → Nat
  | .finite _ m e _ => m * 2 ^ e
  | _ => 0

def powerOfTen (k : Nat) : Binary64 :=
  ofRatio false (10 ^ k) 1

def timesPowerOfTen (x : Binary64) (k : Nat) : Binary64 :=
  match x with
  | .finite s .. => ofRatio s (x.units * (powerOfTen k).units) (2 ^ (2 * binary64.bias))
  | _ => x

def overPowerOfTen (x : Binary64) (k : Nat) : Binary64 :=
  match x with
  | .finite s .. => ofRatio s x.units (powerOfTen k).units
  | _ => x

end Binary64

end Conform.Number
