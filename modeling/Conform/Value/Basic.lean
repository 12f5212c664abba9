import Conform.Number.Binary64
import Conform.Value.Function

namespace Conform

inductive Value where
  | nil
  | bool (b : Bool)
  | integer (n : Int64)
  | float (x : Number.Binary64)
  | atom (name : String)
  | string (text : String)
  | list (items : List Value)
  | tuple (items : List Value)
  | keyword (pairs : List (String × Value))
  | map (pairs : List (Value × Value))
  | pid (id : UInt64)
  | ref (id : UInt64)
  | function (f : Function)
  | struct (name : String) (fields : List (String × Value))

instance : Inhabited Value := ⟨.nil⟩

namespace Value

/-- How a validator says that a value is accepted, and what it becomes. -/
def ok (v : Value) : Value :=
  .tuple [.atom "ok", v]

/-- How a validator says why a value is rejected. -/
def error (message : String) : Value :=
  .tuple [.atom "error", .string message]

def ofAnswer : Except String Value → Value
  | .ok v => ok v
  | .error message => error message

/-- What a validator returns that is given as a check of a value and further arguments. -/
def respond (check : Value → List Value → Except String Value) : List Value → Value
  | [] => error "custom validator called without a value"
  | v :: rest => ofAnswer (check v rest)

def answer? : Value → Option (Except String Value)
  | .tuple [.atom tag, v] =>
    if tag = "ok" then some (.ok v)
    else if tag = "error" then
      match v with
      | .string message => some (.error message)
      | _ => none
    else none
  | _ => none

@[simp] theorem answer?_ofAnswer (a : Except String Value) : (ofAnswer a).answer? = some a := by
  cases a <;> simp [ofAnswer, ok, error, answer?]

/-- The empty sequence has two spellings, as a list and as a keyword list. -/
def isEmptySequence : Value → Bool
  | .list items => items.isEmpty
  | .keyword pairs => pairs.isEmpty
  | _ => false

def asAtom? : Value → Option String
  | .atom name => some name
  | _ => none

def asString? : Value → Option String
  | .string text => some text
  | _ => none

def asList? : Value → Option (List Value)
  | .list items => some items
  | .keyword [] => some []
  | _ => none

end Value

end Conform
