import Conform.Compiled.Walk

namespace Conform

/-- A depth of recursion that is enough for every input of ordinary size. -/
def defaultFuel : Nat := 1000000

structure Compiled where
  schema : Schema

namespace Schema

def check (host : Host) (fuel : Nat) (s : Schema) : Run Unit := do
  if !s.isDeferred then
    checkData host fuel [] s.toValue
  s.checkPlacement host fuel

def compile (host : Host) (fuel : Nat) (s : Schema) : Run Compiled := do
  s.check host fuel
  let es ← Run.ofOption (s.resolve? host fuel)
  Run.emit (.schemaCompiled es.length)
  return ⟨s⟩

def ofValue (host : Host) (fuel : Nat) (data : Value) : Run Schema := do
  checkData host fuel [] data
  match read data with
  | .error e => .fail (.fault (.invalidSchema { key := .root, reason := .unreadable e }))
  | .ok s => do
    s.checkPlacement host fuel
    return s

/-- A schema with one more entry. A deferred schema is produced first. -/
def add (host : Host) (fuel : Nat) (s : Schema) (e : Entry) : Run Schema := do
  let es ← Run.ofOption (s.resolve? host fuel)
  return .entries (es ++ [e])

end Schema

namespace Compiled

def validate (host : Host) (fuel : Nat) (c : Compiled) (options : Value) : Run Value :=
  c.schema.accept host fuel options false

end Compiled

def validate (host : Host) (fuel : Nat) (s : Schema) (options : Value) : Run Value := do
  let c ← s.compile host fuel
  c.validate host fuel options

end Conform
