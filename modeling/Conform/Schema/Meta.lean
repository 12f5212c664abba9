import Conform.Schema.Basic

namespace Conform

def typeCheck : Function := ⟨"validate_type", 1, .typeCheck⟩

def OptionSpec.ofType (t : OptionType) : OptionSpec := { type := t }

def Schema.metaReference (handle : Nat) : Schema :=
  .deferred ⟨.metaSchema, handle⟩

/-- A schema inside a schema: a function that produces it, or a container. -/
def OptionType.nestedSchema : OptionType :=
  .union [.function 0, .keywordListOf (.metaReference 0), .mapOfKeys (.metaReference 1)]

/-- A documentation text, or `false` for an option that is not documented. -/
def OptionType.docText : OptionType :=
  .union [.basic .string, .oneOf (.values [.bool false])]

def Schema.specFields : Schema :=
  .entries [
    ⟨.atom "type", { type := .custom typeCheck [], default? := some (.atom "any") }⟩,
    ⟨.atom "required", { type := .basic .boolean, default? := some (.bool false) }⟩,
    ⟨.atom "default", .ofType (.basic .any)⟩,
    ⟨.atom "keys", .ofType .nestedSchema⟩,
    ⟨.atom "deprecated", .ofType (.basic .string)⟩,
    ⟨.atom "rename_to", .ofType (.basic .atom)⟩,
    ⟨.atom "doc", .ofType .docText⟩,
    ⟨.atom "subsection", .ofType (.basic .string)⟩,
    ⟨.atom "type_doc", .ofType .docText⟩,
    ⟨.atom "redact", .ofType (.basic .boolean)⟩]

/-- The schema of schemas. In their data form schemas are options too: every key of a schema holds a
keyword list with the fields of an option's rules. -/
def metaSchema : Schema :=
  .entries [⟨.wildcard, .ofType (.keywordListOf .specFields)⟩]

end Conform
