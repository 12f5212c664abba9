import Conform.Schema.Name

namespace Conform

-- Powers are those of the core library, also where more instances are in scope.
attribute [local instance (high)] instPowNat

def Doc.toValue : Doc → Value
  | .text s => .string s
  | .hidden => .bool false

def TypeTag.data (tag : TypeTag) (items : List Value) : Value :=
  .tuple (.atom tag.name :: items)

/-- An arity as an integer of 64 bits; a larger one is cut to the largest. -/
def Value.ofArity (arity : Nat) : Value :=
  .integer (Int64.ofNat (min arity (2 ^ (63 : Nat) - 1)))

def Choices.rangeName : String := "range"

/-- The data form of choices does not show whether a range is spent. -/
def Choices.toValue : Choices → Value
  | .values vs => .list vs
  | .range low high _ => .tuple [.atom rangeName, .integer low, .integer high]

/-- The function that returns the data form of a deferred schema. -/
def Deferred.toValue (d : Deferred) : Value :=
  .function ⟨"lazy_schema", 0, .dataForm d⟩

/-- A field that is left out of a data form when there is nothing to say. -/
def Value.field? (name : String) : Option Value → List (String × Value)
  | none => []
  | some v => [(name, v)]

/-- A field that is left out of a data form unless it holds. -/
def Value.flag (name : String) (b : Bool) : List (String × Value) :=
  if b then [(name, .bool true)] else []

/-- The entries of a schema in their data form: a keyword list if all its keys are atoms, and a map
otherwise. -/
def Entry.collect (es : List (SchemaKey × Value)) : Value :=
  if es.any fun e => e.1 matches .string _ then
    .map (es.map fun e => (e.1.toValue, e.2))
  else
    .keyword (es.map fun e => (e.1.name, e.2))

mutual

def OptionType.toValue : OptionType → Value
  | .basic b => .atom b.name
  | .keywordListOf s => TypeTag.keywordList.data [Schema.toValue s]
  | .nonEmptyKeywordListOf s => TypeTag.nonEmptyKeywordList.data [Schema.toValue s]
  | .mapOfKeys s => TypeTag.map.data [Schema.toValue s]
  | .mapOf k v => TypeTag.map.data [OptionType.toValue k, OptionType.toValue v]
  | .function arity => TypeTag.function.data [.ofArity arity]
  | .oneOf choices => TypeTag.oneOf.data [choices.toValue]
  | .custom validator args => TypeTag.custom.data [.function validator, .list args]
  | .union ts => TypeTag.union.data [.list (OptionType.toValues ts)]
  | .listOf t => TypeTag.list.data [OptionType.toValue t]
  | .tupleOf ts => TypeTag.tuple.data [.list (OptionType.toValues ts)]
  | .struct name => TypeTag.struct.data [.atom name]

def OptionType.toValues : List OptionType → List Value
  | [] => []
  | t :: rest => OptionType.toValue t :: OptionType.toValues rest

def OptionSpec.toValue : OptionSpec → Value
  | ⟨t, required, default?, keys?, deprecation?, renameTo?, doc?, subsection?, typeDoc?, redact⟩ =>
    .keyword
      (("type", OptionType.toValue t) ::
        (Value.flag "required" required ++
          Value.field? "default" default? ++
          Value.field? "keys" (Schema.toValue? keys?) ++
          Value.field? "deprecated" (deprecation?.map .string) ++
          Value.field? "rename_to" (renameTo?.map .atom) ++
          Value.field? "doc" (doc?.map Doc.toValue) ++
          Value.field? "subsection" (subsection?.map .string) ++
          Value.field? "type_doc" (typeDoc?.map Doc.toValue) ++
          Value.flag "redact" redact))

def Entry.toValue : Entry → SchemaKey × Value
  | ⟨key, spec⟩ => (key, OptionSpec.toValue spec)

def Entry.toValues : List Entry → List (SchemaKey × Value)
  | [] => []
  | e :: rest => Entry.toValue e :: Entry.toValues rest

def Schema.toValue : Schema → Value
  | .entries es => Entry.collect (Entry.toValues es)
  | .deferred d => d.toValue

def Schema.toValue? : Option Schema → Option Value
  | none => none
  | some s => some (Schema.toValue s)

end

end Conform
