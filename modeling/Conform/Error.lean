import Conform.Error.Reason
import Conform.Text.Scrub

namespace Conform

/-- What an error is about: one option, the options that no entry declares, or all options. -/
inductive ErrorKey where
  | single (key : Value)
  | unknown (keys : List Value)
  | root

def ErrorKey.text : ErrorKey → String
  | .single key => key.inspect
  | .unknown keys => Value.inspectList keys
  | .root => "options"

/-- A rejection of options. The path leads from the options to those that hold the key. -/
structure ValidationError where
  key : ErrorKey
  keysPath : List Value := []
  reason : Reason
  value? : Option Value := none
  redact : Bool := false

/-- What a redacted error carries in place of its value. -/
def redactedValue : Value := .string Text.placeholder

namespace ValidationError

def scrubbed (e : ValidationError) : ValidationError :=
  if e.redact && e.value?.isSome then { e with value? := some redactedValue } else e

def withValue (e : ValidationError) (v : Value) : ValidationError :=
  { e with value? := some v }.scrubbed

def withKeysPath (e : ValidationError) (path : List Value) : ValidationError :=
  { e with keysPath := path }

def redacted (e : ValidationError) : ValidationError :=
  { e with redact := true }.scrubbed

theorem withValue_eq (e : ValidationError) (v : Value) : e.withValue v =
    { e with value? := some (if e.redact then redactedValue else v) } := by
  unfold withValue scrubbed
  cases e.redact <;> rfl

theorem redacted_eq (e : ValidationError) : e.redacted =
    { e with value? := e.value?.map fun _ => redactedValue, redact := true } := by
  unfold redacted scrubbed
  cases e.value? <;> rfl

/-- The error as it appears from further up. -/
def under (path : List Value) (e : ValidationError) : ValidationError :=
  { e with keysPath := path ++ e.keysPath }

def message (e : ValidationError) : String :=
  e.reason.message

/-- The message and the place, if the error is not at the root. -/
def text (e : ValidationError) : String :=
  if e.keysPath.isEmpty then e.message
  else e.message ++ " (in options " ++ Value.inspectList e.keysPath ++ ")"

end ValidationError

/-- A broken contract: a schema that is not one, or a validator whose answer is neither an
acceptance nor a rejection. -/
inductive ContractFault where
  | invalidSchema (error : ValidationError)
  | malformedResult (validator : String) (returned : Value)

def ContractFault.text : ContractFault → String
  | .invalidSchema error => "invalid schema: " ++ error.text
  | .malformedResult validator returned =>
    "custom validator " ++ validator ++
      " must return \x7b:ok, value\x7d or \x7b:error, message\x7d, got: " ++ returned.inspect

end Conform
