import Conform.Schema.Basic
import Conform.Value.Inspect

namespace Conform

namespace BasicType

def name : BasicType → String
  | .any => "any"
  | .keywordList => "keyword_list"
  | .nonEmptyKeywordList => "non_empty_keyword_list"
  | .map => "map"
  | .atom => "atom"
  | .integer => "integer"
  | .nonNegInteger => "non_neg_integer"
  | .posInteger => "pos_integer"
  | .float => "float"
  | .string => "string"
  | .boolean => "boolean"
  | .timeout => "timeout"
  | .pid => "pid"
  | .reference => "reference"
  | .mfa => "mfa"
  | .modArg => "mod_arg"
  | .nil => "nil"

def all : List BasicType :=
  [.any, .keywordList, .nonEmptyKeywordList, .map, .atom, .integer, .nonNegInteger, .posInteger,
    .float, .string, .boolean, .timeout, .pid, .reference, .mfa, .modArg, .nil]

def ofName? (name : String) : Option BasicType :=
  all.find? fun b => b.name == name

@[simp] theorem ofName?_name (b : BasicType) : ofName? b.name = some b := by
  cases b <;> decide

end BasicType

inductive TypeTag where
  | function
  | oneOf
  | custom
  | union
  | list
  | tuple
  | keywordList
  | nonEmptyKeywordList
  | map
  | struct
  deriving DecidableEq

namespace TypeTag

def name : TypeTag → String
  | .function => "fun"
  | .oneOf => "in"
  | .custom => "custom"
  | .union => "or"
  | .list => "list"
  | .tuple => "tuple"
  | .keywordList => "keyword_list"
  | .nonEmptyKeywordList => "non_empty_keyword_list"
  | .map => "map"
  | .struct => "struct"

def all : List TypeTag :=
  [.function, .oneOf, .custom, .union, .list, .tuple, .keywordList, .nonEmptyKeywordList, .map,
    .struct]

def ofName? (name : String) : Option TypeTag :=
  all.find? fun tag => tag.name == name

@[simp] theorem ofName?_name (tag : TypeTag) : ofName? tag.name = some tag := by
  cases tag <;> decide

/-- The name of a type: the tag and its parameters, in braces. -/
def form (tag : TypeTag) (parameters : List String) : String :=
  Text.braced ((":" ++ tag.name) :: parameters)

end TypeTag

namespace Choices

def inspect : Choices → String
  | .values vs => Value.inspectList vs
  | .range low high _ => toString low.toInt ++ ".." ++ toString high.toInt

end Choices

namespace SchemaKey

def inspect (k : SchemaKey) : String :=
  k.toValue.inspect

end SchemaKey

namespace OptionType

mutual

def name : OptionType → String
  | .basic b => ":" ++ b.name
  | .keywordListOf _ => ":" ++ BasicType.keywordList.name
  | .nonEmptyKeywordListOf _ => ":" ++ BasicType.nonEmptyKeywordList.name
  | .mapOfKeys _ => ":" ++ BasicType.map.name
  | .mapOf k v => TypeTag.map.form [name k, name v]
  | .function arity => TypeTag.function.form [toString arity]
  | .oneOf choices => TypeTag.oneOf.form [choices.inspect]
  | .custom validator args =>
    TypeTag.custom.form [validator.reference, Value.inspectList args]
  | .union ts => TypeTag.union.form [Text.bracketed (names ts)]
  | .listOf t => TypeTag.list.form [name t]
  | .tupleOf ts => TypeTag.tuple.form [Text.bracketed (names ts)]
  | .struct s => TypeTag.struct.form [s]

def names : List OptionType → List String
  | [] => []
  | t :: rest => name t :: names rest

end

def forms : List String :=
  BasicType.all.map (":" ++ ·.name) ++
    [TypeTag.function.form ["arity"], TypeTag.oneOf.form ["choices"],
      TypeTag.custom.form ["validator", "args"], TypeTag.union.form ["subtypes"],
      TypeTag.list.form ["subtype"], TypeTag.tuple.form ["subtypes"],
      TypeTag.keywordList.form ["schema"], TypeTag.nonEmptyKeywordList.form ["schema"],
      TypeTag.map.form ["schema"], TypeTag.map.form ["key_type", "value_type"],
      TypeTag.struct.form ["name"]]

end OptionType

end Conform
