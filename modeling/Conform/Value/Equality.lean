import Conform.Value.Basic

namespace Conform.Value

mutual

def beq : Value → Value → Bool
  | .nil, .nil => true
  | .bool a, .bool b => a == b
  | .integer a, .integer b => a == b
  | .float a, .float b => a == b
  | .atom a, .atom b => a == b
  | .string a, .string b => a == b
  | .list a, .list b => beqItems a b
  | .tuple a, .tuple b => beqItems a b
  | .keyword a, .keyword b => beqFields a b
  | .map a, .map b => beqPairs a b
  | .pid a, .pid b => a == b
  | .ref a, .ref b => a == b
  | .function a, .function b => a == b
  | .struct a as, .struct b bs => a == b && beqFields as bs
  | _, _ => false

def beqItems : List Value → List Value → Bool
  | [], [] => true
  | a :: as, b :: bs => beq a b && beqItems as bs
  | _, _ => false

def beqFields : List (String × Value) → List (String × Value) → Bool
  | [], [] => true
  | (k, a) :: as, (l, b) :: bs => k == l && beq a b && beqFields as bs
  | _, _ => false

def beqPairs : List (Value × Value) → List (Value × Value) → Bool
  | [], [] => true
  | (k, a) :: as, (l, b) :: bs => beq k l && beq a b && beqPairs as bs
  | _, _ => false

end

instance : BEq Value := ⟨beq⟩

/-- The first value stored under a key. The keys of a keyword list are atoms. -/
def get? : Value → Value → Option Value
  | .keyword pairs, .atom name => pairs.lookup name
  | .map pairs, key => (pairs.find? fun pair => pair.1 == key).map Prod.snd
  | _, _ => none

end Conform.Value
