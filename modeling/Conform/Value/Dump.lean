import Conform.Value.Inspect

namespace Conform.Value

open Text (bracketed quoted record tagged)

mutual

def dump : Value → String
  | .nil => "Nil"
  | .bool b => tagged "Bool" (if b then "true" else "false")
  | .integer n => tagged "Integer" (toString n.toInt)
  | .float x => tagged "Float" (Number.Layout.inspect.text x)
  | .atom name => tagged "Atom" (quoted name)
  | .string text => tagged "String" (quoted text)
  | .list items => tagged "List" (bracketed (dumpItems items))
  | .tuple items => tagged "Tuple" (bracketed (dumpItems items))
  | .keyword pairs => tagged "Keyword" (bracketed (dumpFields pairs))
  | .map pairs => tagged "Map" (bracketed (dumpPairs pairs))
  | .pid id => tagged "Pid" (toString id.toNat)
  | .ref id => tagged "Ref" (toString id.toNat)
  | .function f => tagged "Function" f.inspect
  | .struct name fields =>
    tagged "Struct"
      (record "Struct" [("name", quoted name), ("fields", bracketed (dumpFields fields))])

def dumpItems : List Value → List String
  | [] => []
  | v :: rest => dump v :: dumpItems rest

def dumpFields : List (String × Value) → List String
  | [] => []
  | (name, v) :: rest => tagged "" (quoted name ++ ", " ++ dump v) :: dumpFields rest

def dumpPairs : List (Value × Value) → List String
  | [] => []
  | (k, v) :: rest => tagged "" (dump k ++ ", " ++ dump v) :: dumpPairs rest

end

end Conform.Value
