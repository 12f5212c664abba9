import Conform.Number.Notation
import Conform.Value.Document

namespace Conform

inductive Data where
  | unit
  | none
  | some (content : Data)
  | bool (b : Bool)
  | integer (n : Int)
  /-- An integer of more than 64 bits, whatever its size. -/
  | wideInteger (n : Int)
  | float (x : Number.Binary64)
  | text (s : String)
  | bytes (b : ByteArray)
  | newtype (content : Data)
  | sequence (items : List Data)
  | map (entries : List (Data × Data))

inductive Wanted where
  | value
  | key

inductive DecodeError where
  | wrongType (found : Data) (wanted : Wanted)
  | notText (wanted : Wanted)

namespace Data

def description : Data → String
  | .unit => "unit value"
  | .none => "Option value"
  | .some _ => "Option value"
  | .bool b => "boolean `" ++ (if b then "true" else "false") ++ "`"
  | .integer n => "integer `" ++ toString n ++ "`"
  | .wideInteger n => "integer `" ++ toString n ++ "` as i128"
  | .float x => "floating point `" ++ Number.Layout.plain.text x ++ "`"
  | .text s => "string " ++ Text.quoted s
  | .bytes _ => "byte array"
  | .newtype _ => "newtype struct"
  | .sequence _ => "sequence"
  | .map _ => "map"

mutual

def ofJson : Json → Data
  | .null => .unit
  | .bool b => .bool b
  | .integer n => .integer n
  | .float x => .float x
  | .string s => .text s
  | .array items => .sequence (ofJsonItems items)
  | .object fields => .map (ofJsonFields fields)

def ofJsonItems : List Json → List Data
  | [] => []
  | j :: rest => ofJson j :: ofJsonItems rest

def ofJsonFields : List (String × Json) → List (Data × Data)
  | [] => []
  | (name, j) :: rest => (.text name, ofJson j) :: ofJsonFields rest

end

end Data

def Wanted.description : Wanted → String
  | .value => "an option value"
  | .key => "a string"

def DecodeError.message : DecodeError → String
  | .wrongType found wanted =>
    "invalid type: " ++ found.description ++ ", expected " ++ wanted.description
  | .notText wanted => "invalid value: byte array, expected " ++ wanted.description

namespace Value

def decodeKey : Data → Except DecodeError String
  | .text s => .ok s
  | .bytes b =>
    match String.fromUTF8? b with
    | some s => .ok s
    | none => .error (.notText .key)
  | d => .error (.wrongType d .key)

mutual

def decode : Data → Except DecodeError Value
  | .unit => .ok .nil
  | .none => .ok .nil
  | .some content => decode content
  | .bool b => .ok (.bool b)
  | .integer n => .ok (ofInt n)
  | .float x => .ok (.float x)
  | .text s => .ok (.string s)
  | .sequence items => do return .list (← decodeItems items)
  | .map entries => do return .keyword (← decodeEntries entries)
  | d => .error (.wrongType d .value)

def decodeItems : List Data → Except DecodeError (List Value)
  | [] => .ok []
  | d :: rest => do
    let v ← decode d
    let items ← decodeItems rest
    return v :: items

def decodeEntries : List (Data × Data) → Except DecodeError (List (String × Value))
  | [] => .ok []
  | (k, d) :: rest => do
    let name ← decodeKey k
    let v ← decode d
    let pairs ← decodeEntries rest
    return (name, v) :: pairs

end

end Value

end Conform
