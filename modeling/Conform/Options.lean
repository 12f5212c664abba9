import Conform.Value.Inspect

namespace Conform

inductive Shape where
  | keyword
  | map
  deriving DecidableEq

structure Options where
  shape : Shape
  pairs : List (Value × Value)

namespace Options

def ofValue? : Value → Option Options
  | .keyword pairs => some ⟨.keyword, pairs.map fun (name, v) => (.atom name, v)⟩
  | .map pairs => some ⟨.map, pairs⟩
  | .list [] => some ⟨.keyword, []⟩
  | _ => none

def toValue (o : Options) : Value :=
  match o.shape with
  | .map => .map o.pairs
  | .keyword => .keyword (o.pairs.map fun (key, v) => (key.fieldName, v))

end Options

end Conform
