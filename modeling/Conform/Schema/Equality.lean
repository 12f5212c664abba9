import Conform.Schema.Basic

namespace Conform

instance : BEq Choices where
  beq
    | .values a, .values b => a == b
    | .range low high spent, .range low' high' spent' =>
      low == low' && high == high' && spent == spent'
    | _, _ => false

@[simp] theorem Choices.values_beq (vs ws : List Value) : (values vs == values ws) = (vs == ws) :=
  rfl

@[simp] theorem Choices.range_beq (low high low' high' : Int64) (spent spent' : Bool) :
    (range low high spent == range low' high' spent') =
      (low == low' && high == high' && spent == spent') :=
  rfl

mutual

def OptionType.beq : OptionType → OptionType → Bool
  | .basic a, .basic b => a == b
  | .keywordListOf s, .keywordListOf t => Schema.beq s t
  | .nonEmptyKeywordListOf s, .nonEmptyKeywordListOf t => Schema.beq s t
  | .mapOfKeys s, .mapOfKeys t => Schema.beq s t
  | .mapOf k v, .mapOf l w => OptionType.beq k l && OptionType.beq v w
  | .function m, .function n => m == n
  | .oneOf a, .oneOf b => a == b
  | .custom f as, .custom g bs => f == g && as == bs
  | .union ts, .union us => OptionType.beqAll ts us
  | .listOf t, .listOf u => OptionType.beq t u
  | .tupleOf ts, .tupleOf us => OptionType.beqAll ts us
  | .struct a, .struct b => a == b
  | _, _ => false

def OptionType.beqAll : List OptionType → List OptionType → Bool
  | [], [] => true
  | t :: ts, u :: us => OptionType.beq t u && OptionType.beqAll ts us
  | _, _ => false

def OptionSpec.beq : OptionSpec → OptionSpec → Bool
  | ⟨t, required, default?, keys?, deprecation?, renameTo?, doc?, subsection?, typeDoc?, redact⟩,
      s =>
    OptionType.beq t s.type && required == s.required && default? == s.default? &&
      Schema.beq? keys? s.keys? && deprecation? == s.deprecation? && renameTo? == s.renameTo? &&
      doc? == s.doc? && subsection? == s.subsection? && typeDoc? == s.typeDoc? &&
      redact == s.redact

def Entry.beq : Entry → Entry → Bool
  | ⟨key, spec⟩, e => key == e.key && OptionSpec.beq spec e.spec

def Entry.beqAll : List Entry → List Entry → Bool
  | [], [] => true
  | d :: ds, e :: es => Entry.beq d e && Entry.beqAll ds es
  | _, _ => false

def Schema.beq : Schema → Schema → Bool
  | .entries ds, .entries es => Entry.beqAll ds es
  | .deferred d, .deferred e => d == e
  | _, _ => false

def Schema.beq? : Option Schema → Option Schema → Bool
  | none, none => true
  | some s, some t => Schema.beq s t
  | _, _ => false

end

instance : BEq OptionType := ⟨OptionType.beq⟩

instance : BEq OptionSpec := ⟨OptionSpec.beq⟩

instance : BEq Schema := ⟨Schema.beq⟩

end Conform
