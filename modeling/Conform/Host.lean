import Conform.Schema.Meta

namespace Conform

/-- What the functions of the calling program compute, and which schemas its producers make. -/
structure Host where
  call : String → List Value → Value
  produce : Producer → Schema

namespace Host

def schemaOf (host : Host) (d : Deferred) : Schema :=
  match d.producer with
  | .metaSchema => metaSchema
  | producer => host.produce producer

end Host

/-- The entries of a schema. A deferred schema may stand for another one, up to `fuel` times. -/
def Schema.resolve? (host : Host) (fuel : Nat) (s : Schema) : Option (List Entry) :=
  match s, fuel with
  | .entries es, _ => some es
  | .deferred _, 0 => none
  | .deferred d, fuel + 1 => (host.schemaOf d).resolve? host fuel

end Conform
