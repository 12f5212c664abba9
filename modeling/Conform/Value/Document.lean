import Conform.Json.Basic
import Conform.Number.Numeral
import Conform.Value.Equality
import Conform.Value.Inspect

namespace Conform.Value

/-- An integer of 64 bits stays an integer; any other becomes a float. -/
def ofInt (n : Int) : Value :=
  if Number.FitsInt64 n then .integer (Int64.ofInt n) else .float (.ofInt n)

theorem fitsInt64_toInt (n : Int64) : Number.FitsInt64 n.toInt :=
  ⟨n.le_toInt, n.toInt_lt⟩

@[simp] theorem ofInt_toInt (n : Int64) : ofInt n.toInt = .integer n := by
  simp [ofInt, fitsInt64_toInt]

mutual

def toJson : Value → Json
  | .nil => .null
  | .bool b => .bool b
  | .integer n => .integer n.toInt
  | .float x => .float x
  | .atom name => .string name
  | .string text => .string text
  | .list items => .array (toJsonItems items)
  | .tuple items => .array (toJsonItems items)
  | .keyword pairs => .object (toJsonFields pairs)
  | .map pairs => .object (toJsonPairs pairs)
  | .pid id => .string (inspect (.pid id))
  | .ref id => .string (inspect (.ref id))
  | .function f => .string f.inspect
  | .struct _ fields => .object (toJsonFields fields)

def toJsonItems : List Value → List Json
  | [] => []
  | v :: rest => toJson v :: toJsonItems rest

def toJsonFields : List (String × Value) → List (String × Json)
  | [] => []
  | (name, v) :: rest => (name, toJson v) :: toJsonFields rest

def toJsonPairs : List (Value × Value) → List (String × Json)
  | [] => []
  | (k, v) :: rest => (fieldName k, toJson v) :: toJsonPairs rest

end

mutual

def ofJson : Json → Value
  | .null => .nil
  | .bool b => .bool b
  | .integer n => ofInt n
  | .float x => .float x
  | .string text => .string text
  | .array items => .list (ofJsonItems items)
  | .object fields => .keyword (ofJsonFields fields)

def ofJsonItems : List Json → List Value
  | [] => []
  | j :: rest => ofJson j :: ofJsonItems rest

def ofJsonFields : List (String × Json) → List (String × Value)
  | [] => []
  | (name, j) :: rest => (name, ofJson j) :: ofJsonFields rest

end

/-- The value of a document in which repeated names are settled and names are in order first. -/
def ofSortedJson (j : Json) : Value :=
  ofJson j.sorted

end Conform.Value
