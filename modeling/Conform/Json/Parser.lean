import Conform.Json.Numeral

namespace Conform.Json

def isBlank (c : Char) : Bool :=
  c == ' ' || c == '\n' || c == '\t' || c == '\r'

def skipBlank (text : List Char) : List Char :=
  text.dropWhile isBlank

def hexDigit? (c : Char) : Option Nat :=
  if c.isDigit then some (c.toNat - '0'.toNat)
  else if 'a' ≤ c && c ≤ 'f' then some (c.toNat - 'a'.toNat + 10)
  else if 'A' ≤ c && c ≤ 'F' then some (c.toNat - 'A'.toNat + 10)
  else none

def hexWord? (a b c d : Char) : Option Nat := do
  let a ← hexDigit? a
  let b ← hexDigit? b
  let c ← hexDigit? c
  let d ← hexDigit? d
  some (((a * 16 + b) * 16 + c) * 16 + d)

def surrogatePair? (high low : Nat) : Option Char :=
  if 0xD800 ≤ high && high < 0xDC00 && 0xDC00 ≤ low && low < 0xE000 then
    some (Char.ofNat (0x10000 + (high - 0xD800) * 0x400 + (low - 0xDC00)))
  else none

def simpleEscape? (c : Char) : Option Char :=
  match c with
  | '"' => some '"'
  | '\\' => some '\\'
  | '/' => some '/'
  | 'b' => some '\x08'
  | 'f' => some '\x0c'
  | 'n' => some '\n'
  | 'r' => some '\r'
  | 't' => some '\t'
  | _ => none

/-- The rest of a string after its opening quote, and what follows the closing one. A surrogate
without its partner is refused, and so is a control character. -/
def stringBody? : List Char → Option (List Char × List Char)
  | [] => none
  | '"' :: rest => some ([], rest)
  | '\\' :: 'u' :: a :: b :: c :: d :: rest => do
    let code ← hexWord? a b c d
    if code < 0xD800 || 0xE000 ≤ code then do
      let (chars, rest) ← stringBody? rest
      some (Char.ofNat code :: chars, rest)
    else
      match rest with
      | '\\' :: 'u' :: e :: f :: g :: h :: rest => do
        let low ← hexWord? e f g h
        let char ← surrogatePair? code low
        let (chars, rest) ← stringBody? rest
        some (char :: chars, rest)
      | _ => none
  | '\\' :: c :: rest => do
    let char ← simpleEscape? c
    let (chars, rest) ← stringBody? rest
    some (char :: chars, rest)
  | c :: rest =>
    if c.toNat < 0x20 then none
    else do
      let (chars, rest) ← stringBody? rest
      some (c :: chars, rest)

def string? : List Char → Option (String × List Char)
  | '"' :: rest => (stringBody? rest).map fun (chars, rest) => (String.ofList chars, rest)
  | _ => none

mutual

/-- A document at the front of a text, with arrays and objects nested at most `depth` deep. Each
step of the reader takes one unit of `fuel`. -/
def document? (fuel depth : Nat) (text : List Char) : Option (Json × List Char) :=
  match fuel with
  | 0 => none
  | fuel + 1 =>
    match skipBlank text with
    | 'n' :: 'u' :: 'l' :: 'l' :: rest => some (.null, rest)
    | 't' :: 'r' :: 'u' :: 'e' :: rest => some (.bool true, rest)
    | 'f' :: 'a' :: 'l' :: 's' :: 'e' :: rest => some (.bool false, rest)
    | '"' :: rest => (string? ('"' :: rest)).map fun (text, rest) => (.string text, rest)
    | '[' :: rest =>
      match depth with
      | 0 => none
      | depth + 1 =>
        match skipBlank rest with
        | ']' :: rest => some (.array [], rest)
        | _ => (items? fuel depth rest).map fun (items, rest) => (.array items, rest)
    | '\x7b' :: rest =>
      match depth with
      | 0 => none
      | depth + 1 =>
        match skipBlank rest with
        | '\x7d' :: rest => some (.object [], rest)
        | _ => (fields? fuel depth rest).map fun (fields, rest) => (.object fields, rest)
    | other => do
      let (n, rest) ← numeral? other
      let j ← n.toJson?
      some (j, rest)

def items? (fuel depth : Nat) (text : List Char) : Option (List Json × List Char) :=
  match fuel with
  | 0 => none
  | fuel + 1 => do
    let (item, rest) ← document? fuel depth text
    match skipBlank rest with
    | ']' :: rest => some ([item], rest)
    | ',' :: rest => do
      let (items, rest) ← items? fuel depth rest
      some (item :: items, rest)
    | _ => none

def fields? (fuel depth : Nat) (text : List Char) : Option (List (String × Json) × List Char) :=
  match fuel with
  | 0 => none
  | fuel + 1 => do
    let (name, rest) ← string? (skipBlank text)
    match skipBlank rest with
    | ':' :: rest => do
      let (item, rest) ← document? fuel depth rest
      match skipBlank rest with
      | '\x7d' :: rest => some ([(name, item)], rest)
      | ',' :: rest => do
        let (fields, rest) ← fields? fuel depth rest
        some ((name, item) :: fields, rest)
      | _ => none
    | _ => none

end

def depthLimit : Nat := 127

/-- The document that a text holds. Between two characters of the text the reader takes at most
two steps. -/
def parse? (depth : Nat) (text : String) : Option Json := do
  let chars := text.toList
  let (j, rest) ← document? (2 * chars.length + 2) depth chars
  if (skipBlank rest).isEmpty then some j else none

end Conform.Json
