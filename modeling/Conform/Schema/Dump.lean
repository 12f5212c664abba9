import Conform.Schema.Basic
import Conform.Value.Dump

namespace Conform

open Text (bracketed braced quoted record tagged)

def dumpOption (text? : Option String) : String :=
  match text? with
  | some text => tagged "Some" text
  | none => "None"

def BasicType.dump : BasicType → String
  | .any => "Any"
  | .keywordList => tagged "KeywordList" (dumpOption none)
  | .nonEmptyKeywordList => tagged "NonEmptyKeywordList" (dumpOption none)
  | .map => tagged "Map" "Any"
  | .atom => "Atom"
  | .integer => "Integer"
  | .nonNegInteger => "NonNegInteger"
  | .posInteger => "PosInteger"
  | .float => "Float"
  | .string => "String"
  | .boolean => "Boolean"
  | .timeout => "Timeout"
  | .pid => "Pid"
  | .reference => "Reference"
  | .mfa => "Mfa"
  | .modArg => "ModArg"
  | .nil => "Nil"

def Choices.dump : Choices → String
  | .values vs => tagged "Values" (bracketed (vs.map Value.dump))
  | .range low high spent =>
    tagged "Range" (toString low.toInt ++ "..=" ++ toString high.toInt ++
      if spent then "@exhausted" else "")

def Doc.dump : Doc → String
  | .text s => tagged "Text" (quoted s)
  | .hidden => "Hidden"

mutual

def OptionType.dump : OptionType → String
  | .basic b => b.dump
  | .keywordListOf s => tagged "KeywordList" (tagged "Some" (Schema.dump s))
  | .nonEmptyKeywordListOf s => tagged "NonEmptyKeywordList" (tagged "Some" (Schema.dump s))
  | .mapOfKeys s => tagged "Map" (tagged "Keys" (Schema.dump s))
  | .mapOf k v => tagged "Map" (tagged "Entries" (OptionType.dump k ++ ", " ++ OptionType.dump v))
  | .function arity => tagged "Fun" (toString arity)
  | .oneOf choices => tagged "In" choices.dump
  | .custom validator args =>
    tagged "Custom" (record "Custom"
      [("validator", validator.inspect), ("args", bracketed (args.map Value.dump))])
  | .union ts => tagged "Or" (bracketed (OptionType.dumpAll ts))
  | .listOf t => tagged "ListOf" (OptionType.dump t)
  | .tupleOf ts => tagged "TupleOf" (bracketed (OptionType.dumpAll ts))
  | .struct name => tagged "Struct" (quoted name)

def OptionType.dumpAll : List OptionType → List String
  | [] => []
  | t :: rest => OptionType.dump t :: OptionType.dumpAll rest

def OptionSpec.dump : OptionSpec → String
  | ⟨t, required, default?, keys?, deprecation?, renameTo?, doc?, subsection?, typeDoc?, redact⟩ =>
    record "OptionSpec" [
      ("ty", OptionType.dump t),
      ("required", toString required),
      ("default", dumpOption (default?.map Value.dump)),
      ("keys", dumpOption (Schema.dump? keys?)),
      ("deprecated", dumpOption (deprecation?.map quoted)),
      ("rename_to", dumpOption (renameTo?.map quoted)),
      ("doc", dumpOption (doc?.map Doc.dump)),
      ("subsection", dumpOption (subsection?.map quoted)),
      ("type_doc", dumpOption (typeDoc?.map Doc.dump)),
      ("redact", toString redact)]

def Entry.dump : Entry → String
  | ⟨key, spec⟩ => quoted key.toValue.inspect ++ ": " ++ OptionSpec.dump spec

def Entry.dumpAll : List Entry → List String
  | [] => []
  | e :: rest => Entry.dump e :: Entry.dumpAll rest

def Schema.dump : Schema → String
  | .entries es => braced (Entry.dumpAll es)
  | .deferred _ => tagged "Schema" "<lazy>"

def Schema.dump? : Option Schema → Option String
  | none => none
  | some s => some (Schema.dump s)

end

end Conform
