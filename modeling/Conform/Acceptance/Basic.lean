import Conform.Host
import Conform.Options
import Conform.Pairs
import Conform.Run

namespace Conform

namespace BasicType

/-- What a value of this type becomes, and nothing for other values. The empty list becomes the
empty keyword list where a keyword list is asked for. -/
def accept? : BasicType → Value → Option Value
  | .any, v => some v
  | .keywordList, .keyword pairs => some (.keyword pairs)
  | .keywordList, .list [] => some (.keyword [])
  | .nonEmptyKeywordList, .keyword (p :: ps) => some (.keyword (p :: ps))
  | .map, .map pairs => some (.map pairs)
  | .atom, .atom name => some (.atom name)
  | .integer, .integer n => some (.integer n)
  | .nonNegInteger, .integer n => if 0 ≤ n then some (.integer n) else none
  | .posInteger, .integer n => if 0 < n then some (.integer n) else none
  | .float, .float x => some (.float x)
  | .string, .string text => some (.string text)
  | .boolean, .bool b => some (.bool b)
  | .timeout, .integer n => if 0 ≤ n then some (.integer n) else none
  | .timeout, .atom name => if name = "infinity" then some (.atom name) else none
  | .pid, .pid id => some (.pid id)
  | .reference, .ref id => some (.ref id)
  | .mfa, .tuple [.atom m, .atom f, args] =>
    if args.asList?.isSome then some (.tuple [.atom m, .atom f, args]) else none
  | .modArg, .tuple [.atom m, args] =>
    if args.asList?.isSome then some (.tuple [.atom m, args]) else none
  | .nil, .nil => some .nil
  | _, _ => none

end BasicType

/-- The option whose value is matched, and whether the value is withheld from errors. -/
structure Context where
  key : Value
  redact : Bool

namespace Context

def error (cx : Context) (v : Value) (reason : Reason) : ValidationError :=
  let e : ValidationError := { key := .single cx.key, reason }
  (if cx.redact then e.redacted else e).withValue v

def reject (cx : Context) (v : Value) (reason : Reason) : Run Value :=
  .reject (cx.error v reason)

def mismatch (cx : Context) (label : Label) (v : Value) (expected : Expectation) : Run Value :=
  cx.reject v (.mismatch label expected (if cx.redact then none else some v))

/-- The error of a container one of whose elements is rejected. An error from a nested schema has a
path and stays as it is. -/
def elementError (cx : Context) (container : Container) (label : Label) (v : Value)
    (e : ValidationError) : ValidationError :=
  if e.keysPath.isEmpty then cx.error v (.element container label e.reason) else e

def verdict (cx : Context) (validator : Function) (v returned : Value) : Run Value :=
  match returned.answer? with
  | some (.ok cast) => return cast
  | some (.error message) =>
    cx.reject v (.stated (if cx.redact then Text.scrub v.inspect message else message))
  | none => .fail (.fault (.malformedResult validator.reference returned))

end Context

/-- Type-directed acceptance, as a parameter of what is built on it. -/
abbrev Acceptance := OptionType → Label → Value → Context → Run Value

namespace OptionSpec

/-- The value of an option among the pairs worked on, where a default is added if need be. Absent
options that need no value have none. -/
def supply (spec : OptionSpec) (key : Value) (pairs : List (Value × Value)) :
    Run (Option (Value × List (Value × Value))) :=
  match Pairs.find? pairs key with
  | some v => return some (v, pairs)
  | none =>
    if spec.required then
      .reject { key := .single key, reason := .missingOption key (Pairs.keys pairs) }
    else
      match spec.default? with
      | some v => return some (v, pairs ++ [(key, v)])
      | none => return none

/-- Puts an accepted value in its place, under another key if the option is renamed. -/
def place (spec : OptionSpec) (key v : Value) (pairs : List (Value × Value)) :
    List (Value × Value) :=
  match spec.renameTo? with
  | some target => Pairs.store (.atom target) v (Pairs.erase key pairs)
  | none => Pairs.store key v pairs

def accept (acceptance : Acceptance) (redact : Bool) (spec : OptionSpec) (key : Value)
    (pairs : List (Value × Value)) : Run (List (Value × Value)) := do
  match ← spec.supply key pairs with
  | none => return pairs
  | some (v, pairs) => do
    if let some text := spec.deprecation? then
      Run.emit (.deprecated key text)
    let cx : Context := ⟨key, redact || spec.redact⟩
    let accepted ← acceptance spec.effectiveType (.option key) v cx
    return spec.place key accepted pairs

end OptionSpec

namespace Options

/-- Accepts options one after the other, in the order in which they are declared. Nothing is
accepted if some key is not declared. -/
def accept (acceptance : Acceptance) (redact : Bool) (es : List Entry) (options : Options) :
    Run Value := do
  let present := Pairs.keys options.pairs
  let declared := Entry.expand es present
  let unknown := present.filter fun key => !declared.any fun d => d.1 == key
  if unknown.isEmpty then
    let pairs ← declared.foldlM
      (fun pairs (key, spec) => spec.accept acceptance redact key pairs) options.pairs
    return { options with pairs }.toValue
  else
    .reject { key := .unknown unknown, reason := .unknownOptions unknown (declared.map (·.1)) }

end Options

/-- The error of acceptance by the schema of schemas, if there is one. -/
def Run.judged (r : Run Value) : Run (Option ValidationError) := do
  match ← r.attempt with
  | .ok _ => return none
  | .error e => do
    Run.emit (.schemaRejected e)
    return some e

/-- Checks a schema inside the data form of a type. One that a function produces is accepted as
it is. -/
def Schema.checkNested (judge : Value → Run (Option ValidationError)) (v : Value) :
    ExceptT ReadError Run Schema := do
  if let .function f := v then
    if f.arity = 0 then return .empty
  match ← judge v with
  | none => return .empty
  | some e => throw (.rejected e.text)

end Conform
