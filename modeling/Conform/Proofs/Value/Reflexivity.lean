import Conform.Value.Equivalence

namespace Conform.Value

mutual

/-- Whether a float that is not a number stands somewhere in a value, keys of maps included. -/
def hasNaN : Value → Bool
  | .float .nan => true
  | .list items => hasNaNItems items
  | .tuple items => hasNaNItems items
  | .keyword pairs => hasNaNFields pairs
  | .map pairs => hasNaNPairs pairs
  | .struct _ fields => hasNaNFields fields
  | _ => false

def hasNaNItems : List Value → Bool
  | [] => false
  | v :: rest => hasNaN v || hasNaNItems rest

def hasNaNFields : List (String × Value) → Bool
  | [] => false
  | (_, v) :: rest => hasNaN v || hasNaNFields rest

def hasNaNPairs : List (Value × Value) → Bool
  | [] => false
  | (k, v) :: rest => hasNaN k || hasNaN v || hasNaNPairs rest

end

mutual

theorem beq_self : (v : Value) → beq v v = !hasNaN v
  | .list items => by simp only [beq, hasNaN, beqItems_self items]
  | .tuple items => by simp only [beq, hasNaN, beqItems_self items]
  | .keyword pairs => by simp only [beq, hasNaN, beqFields_self pairs]
  | .map pairs => by simp only [beq, hasNaN, beqPairs_self pairs]
  | .struct _ fields => by
    simp only [beq, hasNaN, beqFields_self fields, beq_self_eq_true, Bool.true_and]
  | .float .nan => by simp [beq, hasNaN, BEq.beq, Number.Binary64.beq]
  | .float (.infinite s) => by simp [beq, hasNaN, BEq.beq, Number.Binary64.beq]
  | .float (.finite s m e h) => by simp [beq, hasNaN, BEq.beq, Number.Binary64.beq]
  | .nil | .bool _ | .integer _ | .atom _ | .string _ | .pid _ | .ref _ | .function _ => by
    simp [beq, hasNaN]

theorem beqItems_self : (items : List Value) → beqItems items items = !hasNaNItems items
  | [] => by simp [beqItems, hasNaNItems]
  | v :: rest => by simp only [beqItems, hasNaNItems, beq_self v, beqItems_self rest, Bool.not_or]

theorem beqFields_self : (fields : List (String × Value)) →
    beqFields fields fields = !hasNaNFields fields
  | [] => by simp [beqFields, hasNaNFields]
  | (_, v) :: rest => by
    simp only [beqFields, hasNaNFields, beq_self v, beqFields_self rest, Bool.not_or,
      beq_self_eq_true, Bool.true_and]

theorem beqPairs_self : (pairs : List (Value × Value)) → beqPairs pairs pairs = !hasNaNPairs pairs
  | [] => by simp [beqPairs, hasNaNPairs]
  | (k, v) :: rest => by
    simp only [beqPairs, hasNaNPairs, beq_self k, beq_self v, beqPairs_self rest, Bool.not_or]

end

theorem beq_self_iff {v : Value} : (v == v) = true ↔ v.hasNaN = false := by
  change beq v v = true ↔ _
  rw [beq_self]
  simp

end Conform.Value
