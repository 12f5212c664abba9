import Conform.Value.Equality

namespace Conform

/-- The types that are known by a name alone. -/
inductive BasicType where
  | any
  | keywordList
  | nonEmptyKeywordList
  | map
  | atom
  | integer
  | nonNegInteger
  | posInteger
  | float
  | string
  | boolean
  | timeout
  | pid
  | reference
  | mfa
  | modArg
  | nil
  deriving DecidableEq

/-- A finite set of values, or the integers from `low` to `high`. A range is spent once its numbers
have been counted through; it leaves out the last one from then on. -/
inductive Choices where
  | values (vs : List Value)
  | range (low high : Int64) (spent : Bool := false)

/-- What an entry of a schema declares: the option with an atom or a string as its key, or every
option that is not declared otherwise. -/
inductive SchemaKey where
  | atom (name : String)
  | string (name : String)
  | wildcard
  deriving DecidableEq

inductive Doc where
  | text (s : String)
  | hidden
  deriving DecidableEq

mutual

inductive OptionType where
  | basic (b : BasicType)
  | keywordListOf (schema : Schema)
  | nonEmptyKeywordListOf (schema : Schema)
  | mapOfKeys (schema : Schema)
  | mapOf (key value : OptionType)
  | function (arity : Nat)
  | oneOf (choices : Choices)
  /-- A validator is called with the value and the arguments. -/
  | custom (validator : Function) (args : List Value)
  | union (alternatives : List OptionType)
  | listOf (element : OptionType)
  | tupleOf (elements : List OptionType)
  | struct (name : String)

structure OptionSpec where
  type : OptionType
  required : Bool := false
  default? : Option Value := none
  keys? : Option Schema := none
  deprecation? : Option String := none
  renameTo? : Option String := none
  doc? : Option Doc := none
  subsection? : Option String := none
  typeDoc? : Option Doc := none
  redact : Bool := false

structure Entry where
  key : SchemaKey
  spec : OptionSpec

/-- The entries of a schema, or a way to produce them. -/
inductive Schema where
  | entries (es : List Entry)
  | deferred (d : Deferred)

end

namespace Choices

def contains : Choices → Value → Bool
  | .values vs, v => vs.any (· == v)
  | .range low high spent, .integer n => low ≤ n && if spent then n < high else n ≤ high
  | .range _ _ _, _ => false

end Choices

namespace SchemaKey

/-- The atom that stands for the wildcard where every key is a value. -/
def wildcardName : String := "*"

def option? : SchemaKey → Option Value
  | .atom name => some (.atom name)
  | .string name => some (.string name)
  | .wildcard => none

def name : SchemaKey → String
  | .atom name => name
  | .string name => name
  | .wildcard => wildcardName

def toValue (k : SchemaKey) : Value :=
  k.option?.getD (.atom wildcardName)

def ofValue? : Value → Option SchemaKey
  | .atom name => some (if name = wildcardName then .wildcard else .atom name)
  | .string name => some (.string name)
  | _ => none

theorem ofValue?_toValue {k : SchemaKey} (h : k ≠ .atom wildcardName) :
    ofValue? k.toValue = some k := by
  cases k with
  | atom name =>
    have hname : name ≠ wildcardName := fun e => h (by rw [e])
    simp [toValue, option?, ofValue?, hname]
  | string name => rfl
  | wildcard => rfl

end SchemaKey

namespace OptionType

/-- Whether an option of this type may declare the keys of its value. -/
def acceptsKeys : OptionType → Bool
  | .basic .any => true
  | .basic .keywordList => true
  | .basic .nonEmptyKeywordList => true
  | .basic .map => true
  | .listOf t => t.acceptsKeys
  | _ => false

/-- The type with its keys declared by a schema. Without a container of its own a value with keys
is a keyword list. -/
def withKeys (keys : Schema) : OptionType → OptionType
  | .basic .any => .keywordListOf keys
  | .basic .keywordList => .keywordListOf keys
  | .basic .nonEmptyKeywordList => .nonEmptyKeywordListOf keys
  | .basic .map => .mapOfKeys keys
  | .listOf t => .listOf (t.withKeys keys)
  | t => t

end OptionType

/-- The type that a value has to have, the declared keys included. -/
def OptionSpec.effectiveType (spec : OptionSpec) : OptionType :=
  match spec.keys? with
  | some keys => spec.type.withKeys keys
  | none => spec.type

namespace Schema

def empty : Schema := .entries []

def isDeferred : Schema → Bool
  | .deferred _ => true
  | .entries _ => false

end Schema

def Entry.find? (es : List Entry) (key : SchemaKey) : Option OptionSpec :=
  (es.find? fun e => e.key == key).map Entry.spec

/-- The options to check when the keys `present` are given: those declared with a key, in order,
and then the present ones that only the first wildcard covers. -/
def Entry.expand (es : List Entry) (present : List Value) : List (Value × OptionSpec) :=
  let explicit := es.filterMap fun e => e.key.option?.map (·, e.spec)
  match es.find? fun e => e.key == .wildcard with
  | none => explicit
  | some wildcard =>
    present.foldl
      (fun declared key =>
        if declared.any fun d => d.1 == key then declared else declared ++ [(key, wildcard.spec)])
      explicit

end Conform
