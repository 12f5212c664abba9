import Conform.Schema.Reader
import Conform.Text.Bullet

namespace Conform

inductive Label where
  | option (key : Value)
  | listElement (index : Nat)
  | tupleElement (index : Nat)
  | mapKey
  | mapValue (key : Value)

def Label.text : Label → String
  | .option key => key.inspect ++ " option"
  | .listElement index => "list element at position " ++ toString index
  | .tupleElement index => "tuple element at position " ++ toString index
  | .mapKey => "map key"
  | .mapValue key => "map key " ++ key.inspect

inductive Expectation where
  | basic (b : BasicType)
  | function (arity : Nat)
  | oneOf (choices : Choices)
  | list
  | tuple (size : Nat)
  | struct (name : String)

def BasicType.phrase : BasicType → String
  | .any => "any value"
  | .keywordList => "keyword list"
  | .nonEmptyKeywordList => "non-empty keyword list"
  | .map => "map"
  | .atom => "atom"
  | .integer => "integer"
  | .nonNegInteger => "non negative integer"
  | .posInteger => "positive integer"
  | .float => "float"
  | .string => "string"
  | .boolean => "boolean"
  | .timeout => "non-negative integer or :infinity"
  | .pid => "pid"
  | .reference => "reference"
  | .mfa => "tuple \x7bmod, fun, args\x7d"
  | .modArg => "tuple \x7bmod, args\x7d"
  | .nil => "nil"

def Expectation.phrase : Expectation → String
  | .basic b => b.phrase
  | .function arity => "function of arity " ++ toString arity
  | .oneOf choices => "one of " ++ choices.inspect
  | .list => "list"
  | .tuple size => "tuple with " ++ toString size ++ " elements"
  | .struct name => "%" ++ name ++ "\x7b\x7d"

inductive Container where
  | list
  | tuple
  | map

def Container.name : Container → String
  | .list => "list"
  | .tuple => "tuple"
  | .map => "map"

inductive Reason where
  /-- The value is not what was expected; a withheld value is not shown. -/
  | mismatch (label : Label) (expected : Expectation) (shown : Option Value)
  | arity (label : Label) (expected actual : Nat)
  /-- A validator or the caller gives the text. -/
  | stated (text : String)
  /-- An element of the container is rejected. -/
  | element (container : Container) (label : Label) (inner : Reason)
  /-- All alternatives reject the value; the texts of their errors are kept in order. -/
  | noAlternative (label : Label) (errors : List String)
  | notOptions (found : Value)
  | unknownOptions (unknown declared : List Value)
  | missingOption (key : Value) (received : List Value)
  | renameTarget (key : Value) (target : String)
  | misplacedKeys (typeName : String)
  | unreadable (error : ReadError)

def Reason.message : Reason → String
  | .mismatch label expected shown =>
    "invalid value for " ++ label.text ++ ": expected " ++ expected.phrase ++
      match shown with
      | some v => ", got: " ++ v.inspect
      | none => ""
  | .arity label expected actual =>
    "invalid value for " ++ label.text ++ ": expected function of arity " ++ toString expected ++
      ", got: function of arity " ++ toString actual
  | .stated text => text
  | .element container label inner =>
    "invalid " ++ container.name ++ " in " ++ label.text ++ ": " ++ inner.message
  | .noAlternative label errors =>
    "expected " ++ label.text ++ " to match at least one given type, but didn't match any. " ++
      "Here are the reasons why it didn't match each of the allowed types:\n\n" ++
      Text.bullets errors.reverse
  | .notOptions found => "expected options to be a keyword list or map, got: " ++ found.inspect
  | .unknownOptions unknown declared =>
    "unknown options " ++ Value.inspectList unknown ++ ", valid options are: " ++
      Value.inspectList declared
  | .missingOption key received =>
    "required " ++ (Label.option key).text ++ " not found, received options: " ++
      Value.inspectList received
  | .renameTarget key target =>
    "invalid value for :rename_to option: expected an option declared after " ++ key.inspect ++
      ", got: :" ++ target
  | .misplacedKeys typeName =>
    "invalid value for :keys option: nested keys require a keyword list, a map, " ++
      "or a list of those, got type: " ++ typeName
  | .unreadable error => error.message

end Conform
