import Conform.Schema.DataForm

namespace Conform

inductive ReadError where
  | unknownType (found : Value)
  | wrongArity (validator : Function) (extra : Nat)
  | deferredSchema
  | notSchema (found : Value)
  | invalidKey (found : Value)
  | rejected (message : String)

namespace ReadError

def message : ReadError → String
  | .unknownType found =>
    "invalid option type " ++ found.inspect ++ ".\n\nAvailable types: " ++
      Text.separated OptionType.forms
  | .wrongArity validator extra =>
    "custom validator " ++ validator.reference ++ " must accept the value plus " ++
      toString extra ++ " extra argument(s)"
  | .deferredSchema => "lazy schemas cannot be parsed from data; use Schema::lazy"
  | .notSchema found => "expected a schema, got: " ++ found.inspect
  | .invalidKey found => "invalid schema key " ++ found.inspect
  | .rejected message => message

end ReadError

namespace Choices

def ofValue? : Value → Option Choices
  | .list vs => some (.values vs)
  | .tuple [.atom name, .integer low, .integer high] =>
    if name = rangeName then some (.range low high) else none
  | _ => none

/-- The choices as they are read from their data form, where no range is spent. -/
def renewed : Choices → Choices
  | .values vs => .values vs
  | .range low high _ => .range low high false

@[simp] theorem renewed_renewed (c : Choices) : c.renewed.renewed = c.renewed := by
  cases c <;> rfl

@[simp] theorem ofValue?_toValue (c : Choices) : ofValue? c.toValue = some c.renewed := by
  cases c <;> simp [toValue, ofValue?, renewed]

end Choices

namespace OptionType

section

variable {m : Type → Type} [Monad m] [MonadExceptOf ReadError m] (nested : Value → m Schema)

mutual

/-- Reads a type. Schemas inside it are read by `nested`, in the order in which they occur; the
first error counts. -/
def read : Value → m OptionType
  | .atom name => do
    match BasicType.ofName? name with
    | some b => return .basic b
    | none => throw (.unknownType (.atom name))
  | .tuple (.atom name :: rest) =>
    let unknown := throw (.unknownType (.tuple (.atom name :: rest)))
    match TypeTag.ofName? name, rest with
    | some .function, [.integer n] => if 0 ≤ n then return .function n.toInt.toNat else unknown
    | some .oneOf, [choices] =>
      match Choices.ofValue? choices with
      | some choices => return .oneOf choices
      | none => unknown
    | some .custom, [.function validator, args] =>
      match args.asList? with
      | some args =>
        if validator.arity = args.length + 1 then return .custom validator args
        else throw (.wrongArity validator args.length)
      | none => unknown
    | some .union, [.list items] => return .union (← readAll items)
    | some .list, [item] => return .listOf (← read item)
    | some .tuple, [.list items] => return .tupleOf (← readAll items)
    | some .keywordList, [schema] => return .keywordListOf (← nested schema)
    | some .nonEmptyKeywordList, [schema] => return .nonEmptyKeywordListOf (← nested schema)
    | some .map, [schema] => return .mapOfKeys (← nested schema)
    | some .map, [key, value] => do
      let key ← read key
      let value ← read value
      return .mapOf key value
    | some .struct, [.atom name] => return .struct name
    | _, _ => unknown
  | v => throw (.unknownType v)

def readAll : List Value → m (List OptionType)
  | [] => return []
  | item :: rest => do
    let t ← read item
    let ts ← readAll rest
    return t :: ts

end

end

end OptionType

namespace Value

mutual

def depth : Value → Nat
  | .list items => depthItems items + 1
  | .tuple items => depthItems items + 1
  | .keyword pairs => depthFields pairs + 1
  | .map pairs => depthPairs pairs + 1
  | .struct _ fields => depthFields fields + 1
  | _ => 1

def depthItems : List Value → Nat
  | [] => 0
  | v :: rest => max (depth v) (depthItems rest)

def depthFields : List (String × Value) → Nat
  | [] => 0
  | (_, v) :: rest => max (depth v) (depthFields rest)

def depthPairs : List (Value × Value) → Nat
  | [] => 0
  | (k, v) :: rest => max (max (depth k) (depth v)) (depthPairs rest)

end

end Value

def Doc.ofValue? : Value → Option Doc
  | .string s => some (.text s)
  | .bool false => some .hidden
  | _ => none

namespace OptionSpec

/-- Reads the rules for an option. Fields of the wrong kind count as absent. -/
def read (nested : Value → Except ReadError Schema) (v : Value) :
    Except ReadError OptionSpec := do
  let field name := v.get? (.atom name)
  let isTrue : Option Value → Bool := fun v? => v? matches some (.bool true)
  let type ←
    match field "type" with
    | some t => OptionType.read nested t
    | none => pure (.basic .any)
  let keys? ←
    match field "keys" with
    | some keys => some <$> nested keys
    | none => pure none
  return {
    type, keys?
    required := isTrue (field "required")
    default? := field "default"
    deprecation? := field "deprecated" >>= Value.asString?
    renameTo? := field "rename_to" >>= Value.asAtom?
    doc? := field "doc" >>= Doc.ofValue?
    subsection? := field "subsection" >>= Value.asString?
    typeDoc? := field "type_doc" >>= Doc.ofValue?
    redact := isTrue (field "redact") }

end OptionSpec

namespace Schema

def dataPairs : Value → Except ReadError (List (Value × Value))
  | .keyword pairs => .ok (pairs.map fun (name, v) => (.atom name, v))
  | .map pairs => .ok pairs
  | .list [] => .ok []
  | .function _ => .error .deferredSchema
  | v => .error (.notSchema v)

/-- Reads a schema in which schemas are nested less than `fuel` deep. -/
def readWithin (fuel : Nat) (v : Value) : Except ReadError Schema :=
  match fuel with
  | 0 => .error (.notSchema v)
  | fuel + 1 => do
    let entries ← (← dataPairs v).mapM fun (key, spec) => do
      match SchemaKey.ofValue? key with
      | some key => return ⟨key, ← OptionSpec.read (readWithin fuel) spec⟩
      | none => .error (.invalidKey key)
    return .entries entries

/-- Reads a schema from its data form. A schema nested in a value is less deep than the value. -/
def read (v : Value) : Except ReadError Schema :=
  readWithin v.depth v

end Schema

end Conform
