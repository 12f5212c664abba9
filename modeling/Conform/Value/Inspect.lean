import Conform.Number.Notation
import Conform.Text.Quoted
import Conform.Text.Structure
import Conform.Value.Basic

namespace Conform.Value

mutual

def inspect : Value → String
  | .nil => "nil"
  | .bool b => if b then "true" else "false"
  | .integer n => toString n.toInt
  | .float x => Number.Layout.inspect.text x
  | .atom name => ":" ++ name
  | .string text => Text.quoted text
  | .list items => Text.bracketed (inspectItems items)
  | .tuple items => Text.braced (inspectItems items)
  | .keyword pairs => Text.bracketed (inspectFields pairs)
  | .map pairs => "%" ++ Text.braced (inspectPairs pairs)
  | .pid id => s!"#Pid<{id.toNat}>"
  | .ref id => s!"#Ref<{id.toNat}>"
  | .function f => f.inspect
  | .struct name fields => "%" ++ name ++ Text.braced (inspectFields fields)

def inspectItems : List Value → List String
  | [] => []
  | v :: rest => inspect v :: inspectItems rest

def inspectFields : List (String × Value) → List String
  | [] => []
  | (name, v) :: rest => (name ++ ": " ++ inspect v) :: inspectFields rest

def inspectPairs : List (Value × Value) → List String
  | [] => []
  | (k, v) :: rest => (inspect k ++ " => " ++ inspect v) :: inspectPairs rest

end

def inspectList (items : List Value) : String :=
  inspect (.list items)

/-- The name that a key goes by where keys are text. -/
def fieldName : Value → String
  | .atom name => name
  | .string text => text
  | v => v.inspect

end Conform.Value
