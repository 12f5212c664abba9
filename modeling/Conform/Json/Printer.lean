import Conform.Json.Basic
import Conform.Number.Notation

namespace Conform.Number

/-- Numbers from `1e-5` up to `1e16` are written without an exponent; an exponent has a sign. -/
def Layout.json : Layout where
  positional e := -5 ≤ e && e < 16
  plus := "+"
  tie := .toEven
  nan := "null"
  infinity := "null"

end Conform.Number

namespace Conform.Json

def controlEscape (c : Char) : List Char :=
  let digits := Nat.toDigits 16 c.toNat
  ['\\', 'u'] ++ List.replicate (4 - digits.length) '0' ++ digits

def escaped (c : Char) : List Char :=
  if c = '"' then ['\\', '"']
  else if c = '\\' then ['\\', '\\']
  else if c = '\x08' then ['\\', 'b']
  else if c = '\x0c' then ['\\', 'f']
  else if c = '\n' then ['\\', 'n']
  else if c = '\r' then ['\\', 'r']
  else if c = '\t' then ['\\', 't']
  else if c.toNat < 0x20 then controlEscape c
  else [c]

def stringText (s : String) : String :=
  String.ofList ('"' :: s.toList.flatMap escaped ++ ['"'])

mutual

def print : Json → String
  | .null => "null"
  | .bool b => if b then "true" else "false"
  | .integer n => toString n
  | .float x => Number.Layout.json.text x
  | .string text => stringText text
  | .array items => "[" ++ ",".intercalate (printItems items) ++ "]"
  | .object fields => "\x7b" ++ ",".intercalate (printFields fields) ++ "\x7d"

def printItems : List Json → List String
  | [] => []
  | j :: rest => print j :: printItems rest

def printFields : List (String × Json) → List String
  | [] => []
  | (name, j) :: rest => (stringText name ++ ":" ++ print j) :: printFields rest

end

def text (j : Json) : String :=
  j.writable.print

end Conform.Json
