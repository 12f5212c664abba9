import Conform.Acceptance
import Conform.Proofs.Schema.Levels

namespace Conform

/-- A list, or the empty sequence in its other spelling. -/
def Value.IsList (v : Value) : Prop := v = .keyword [] ∨ ∃ items, v = .list items

def BasicType.Member : BasicType → Value → Prop
  | .any, _ => True
  | .keywordList, v => v = .list [] ∨ ∃ pairs, v = .keyword pairs
  | .nonEmptyKeywordList, v => ∃ pair pairs, v = .keyword (pair :: pairs)
  | .map, v => ∃ pairs, v = .map pairs
  | .atom, v => ∃ name, v = .atom name
  | .integer, v => ∃ n, v = .integer n
  | .nonNegInteger, v => ∃ n, 0 ≤ n ∧ v = .integer n
  | .posInteger, v => ∃ n, 0 < n ∧ v = .integer n
  | .float, v => ∃ x, v = .float x
  | .string, v => ∃ text, v = .string text
  | .boolean, v => ∃ b, v = .bool b
  | .timeout, v => v = .atom "infinity" ∨ ∃ n, 0 ≤ n ∧ v = .integer n
  | .pid, v => ∃ id, v = .pid id
  | .reference, v => ∃ id, v = .ref id
  | .mfa, v => ∃ m f args, args.IsList ∧ v = .tuple [.atom m, .atom f, args]
  | .modArg, v => ∃ m args, args.IsList ∧ v = .tuple [.atom m, args]
  | .nil, v => v = .nil

def Choices.Member : Choices → Value → Prop
  | .values vs, v => ∃ choice ∈ vs, (choice == v) = true
  | .range low high spent, v =>
    ∃ n, low ≤ n ∧ n ≤ high ∧ (spent = true → n ≠ high) ∧ v = .integer n

namespace Function

/-- What a function returns, if the call ends. -/
def Returns (host : Host) (f : Function) (args : List Value) (v : Value) : Prop :=
  ∃ fuel, (f.call host fuel args).result = .ok v

/-- A validator says that a value is accepted or why it is rejected, and nothing else. -/
def Answers (host : Host) (f : Function) (args : List Value) : Prop :=
  ∀ v returned, f.Returns host (v :: args) returned →
    (∃ cast, returned = .ok cast) ∨ ∃ message, returned = .error message

end Function

namespace Entry

/-- An entry of its own for the key, or a wildcard. A key that does not equal itself is unknown
even to a wildcard. -/
def Knows (es : List Entry) (key : Value) : Prop :=
  key.hasNaN = false ∧ ∃ e ∈ es, e.key.option? = some key ∨ e.key = .wildcard

/-- The rules for a key, if the options are `pairs`: those of its own entry, and those of the
wildcard for the keys without one that are there. -/
inductive Declares (es : List Entry) (pairs : List (Value × Value)) :
    Value → OptionSpec → Prop where
  | explicit {e key} : e ∈ es → e.key.option? = some key → Declares es pairs key e.spec
  | wildcard {e p} : e ∈ es → e.key = .wildcard → p ∈ pairs →
      (∀ d ∈ es, d.key.option? ≠ some p.1) → Declares es pairs p.1 e.spec

end Entry

mutual

inductive OptionType.Member (host : Host) : OptionType → Value → Prop where
  | basic {b v} : b.Member v → OptionType.Member host (.basic b) v
  | container {t b s v} : t.container? = some (b, s) → b.Member v → Schema.Conforms host s v →
      OptionType.Member host t v
  | mapOf {keyType valueType pairs} : (∀ p ∈ pairs, OptionType.Member host keyType p.1) →
      (∀ p ∈ pairs, OptionType.Member host valueType p.2) →
      OptionType.Member host (.mapOf keyType valueType) (.map pairs)
  | function (f) : OptionType.Member host (.function f.arity) (.function f)
  | oneOf {choices v} : choices.Member v → OptionType.Member host (.oneOf choices) v
  | custom {validator args v cast} : validator.Returns host (v :: args) (.ok cast) →
      OptionType.Member host (.custom validator args) v
  | union {t ts v} : t ∈ ts → OptionType.Member host t v → OptionType.Member host (.union ts) v
  | listOf {t items} : (∀ item ∈ items, OptionType.Member host t item) →
      OptionType.Member host (.listOf t) (.list items)
  | listOfNone {t} : OptionType.Member host (.listOf t) (.keyword [])
  | tupleOf {ts items} : items.length = ts.length →
      (∀ p ∈ ts.zip items, OptionType.Member host p.1 p.2) →
      OptionType.Member host (.tupleOf ts) (.tuple items)
  | struct {name fields} : OptionType.Member host (.struct name) (.struct name fields)

/-- The options that conform to a schema. All their keys are known. A declared option has its first
value in its type, or it is absent, not required, and has no default outside of its type. -/
inductive Schema.Conforms (host : Host) : Schema → Value → Prop where
  | intro {s es v o} : s.Resolves host es → Options.ofValue? v = some o →
      (∀ p ∈ o.pairs, Entry.Knows es p.1) →
      (∀ key spec value, Entry.Declares es o.pairs key spec →
        Pairs.find? o.pairs key = some value → OptionType.Member host spec.effectiveType value) →
      (∀ key spec, Entry.Declares es o.pairs key spec →
        Pairs.find? o.pairs key = none → spec.required = false) →
      (∀ key spec value, Entry.Declares es o.pairs key spec → Pairs.find? o.pairs key = none →
        spec.default? = some value → OptionType.Member host spec.effectiveType value) →
      Schema.Conforms host s v

end

theorem Value.asList?_isSome {v : Value} : v.asList?.isSome ↔ v.IsList := by
  unfold asList? IsList
  split <;> simp_all

theorem BasicType.accept?_isSome {b : BasicType} {v : Value} :
    (b.accept? v).isSome ↔ b.Member v := by
  constructor
  · intro h
    unfold accept? at h
    split at h <;> simp_all [Member, Value.asList?_isSome]
  · intro h
    cases b with
    | any => rfl
    | keywordList => rcases h with rfl | ⟨pairs, rfl⟩ <;> rfl
    | nonEmptyKeywordList =>
      obtain ⟨pair, pairs, rfl⟩ := h
      rfl
    | map | atom | integer | float | string | boolean | pid | reference =>
      obtain ⟨x, rfl⟩ := h
      rfl
    | nonNegInteger | posInteger =>
      obtain ⟨n, hn, rfl⟩ := h
      simp [accept?, hn]
    | timeout =>
      rcases h with rfl | ⟨n, hn, rfl⟩
      · rfl
      · simp [accept?, hn]
    | mfa =>
      obtain ⟨m, f, args, hargs, rfl⟩ := h
      simp [accept?, Value.asList?_isSome, hargs]
    | modArg =>
      obtain ⟨m, args, hargs, rfl⟩ := h
      simp [accept?, Value.asList?_isSome, hargs]
    | nil =>
      cases h
      rfl

/-- A basic type changes nothing but the spelling of the empty keyword list. -/
theorem BasicType.eq_of_accept? {b : BasicType} {v n : Value} (h : b.accept? v = some n) :
    n = v ∨ b = .keywordList ∧ v = .list [] ∧ n = .keyword [] := by
  unfold accept? at h
  split at h <;> grind

theorem BasicType.ofValue?_of_accept? {b : BasicType} {v w : Value} (h : b.accept? v = some w) :
    Options.ofValue? w = Options.ofValue? v := by
  rcases eq_of_accept? h with rfl | ⟨-, rfl, rfl⟩ <;> rfl

theorem Schema.conforms_congr {host : Host} {s : Schema} {v w : Value}
    (h : Options.ofValue? w = Options.ofValue? v) : s.Conforms host w ↔ s.Conforms host v := by
  constructor
  · rintro ⟨hes, ho, hknown, hpresent, hrequired, hdefault⟩
    rw [h] at ho
    exact .intro hes ho hknown hpresent hrequired hdefault
  · rintro ⟨hes, ho, hknown, hpresent, hrequired, hdefault⟩
    rw [← h] at ho
    exact .intro hes ho hknown hpresent hrequired hdefault

theorem Choices.contains_eq_true {choices : Choices} {v : Value} :
    choices.contains v = true ↔ choices.Member v := by
  unfold contains
  split
  next => simp [Member]
  next low high spent n => cases spent <;> simp [Member, Int64.lt_iff_le_and_ne]
  next hinteger => simp_all [Member]

namespace OptionType

variable {host : Host} {v : Value}

theorem member_basic {b : BasicType} : (basic b).Member host v ↔ b.Member v := by
  constructor
  · intro h
    cases h with
    | basic h => exact h
    | container h => simp [container?] at h
  · exact .basic

theorem member_container {t : OptionType} {b : BasicType} {s : Schema}
    (ht : t.container? = some (b, s)) : t.Member host v ↔ b.Member v ∧ s.Conforms host v := by
  constructor
  · intro h
    cases h with
    | container h hb hs =>
      rw [ht] at h
      cases h
      exact ⟨hb, hs⟩
    | _ => simp [container?] at ht
  · rintro ⟨hb, hs⟩
    exact .container ht hb hs

theorem member_mapOf {keyType valueType : OptionType} :
    (mapOf keyType valueType).Member host v ↔
      ∃ pairs, v = .map pairs ∧
        ∀ p ∈ pairs, keyType.Member host p.1 ∧ valueType.Member host p.2 := by
  constructor
  · intro h
    cases h with
    | container h => simp [container?] at h
    | mapOf hkey hvalue => exact ⟨_, rfl, fun p hp => ⟨hkey p hp, hvalue p hp⟩⟩
  · rintro ⟨pairs, rfl, h⟩
    exact .mapOf (fun p hp => (h p hp).1) fun p hp => (h p hp).2

theorem member_function {arity : Nat} :
    (function arity).Member host v ↔ ∃ f : Function, f.arity = arity ∧ v = .function f := by
  constructor
  · intro h
    cases h with
    | container h => simp [container?] at h
    | function f => exact ⟨f, rfl, rfl⟩
  · rintro ⟨f, rfl, rfl⟩
    exact .function f

theorem member_oneOf {choices : Choices} : (oneOf choices).Member host v ↔ choices.Member v := by
  constructor
  · intro h
    cases h with
    | container h => simp [container?] at h
    | oneOf h => exact h
  · exact .oneOf

theorem member_custom {validator : Function} {args : List Value} :
    (custom validator args).Member host v ↔
      ∃ cast, validator.Returns host (v :: args) (.ok cast) := by
  constructor
  · intro h
    cases h with
    | container h => simp [container?] at h
    | custom h => exact ⟨_, h⟩
  · rintro ⟨cast, h⟩
    exact .custom h

theorem member_union {ts : List OptionType} :
    (union ts).Member host v ↔ ∃ t ∈ ts, t.Member host v := by
  constructor
  · intro h
    cases h with
    | container h => simp [container?] at h
    | union ht h => exact ⟨_, ht, h⟩
  · rintro ⟨t, ht, h⟩
    exact .union ht h

theorem member_listOf {t : OptionType} :
    (listOf t).Member host v ↔
      ∃ items, v.asList? = some items ∧ ∀ item ∈ items, t.Member host item := by
  constructor
  · intro h
    cases h with
    | container h => simp [container?] at h
    | listOf h => exact ⟨_, rfl, h⟩
    | listOfNone => exact ⟨[], rfl, by simp⟩
  · rintro ⟨items, hitems, h⟩
    unfold Value.asList? at hitems
    split at hitems
    · cases hitems
      exact .listOf h
    · exact .listOfNone
    · simp at hitems

theorem member_tupleOf {ts : List OptionType} :
    (tupleOf ts).Member host v ↔ ∃ items, v = .tuple items ∧ items.length = ts.length ∧
      ∀ p ∈ ts.zip items, p.1.Member host p.2 := by
  constructor
  · intro h
    cases h with
    | container h => simp [container?] at h
    | tupleOf hlength h => exact ⟨_, rfl, hlength, h⟩
  · rintro ⟨items, rfl, hlength, h⟩
    exact .tupleOf hlength h

theorem member_struct {name : String} :
    (struct name).Member host v ↔ ∃ fields, v = .struct name fields := by
  constructor
  · intro h
    cases h with
    | container h => simp [container?] at h
    | struct => exact ⟨_, rfl⟩
  · rintro ⟨fields, rfl⟩
    exact .struct

end OptionType

end Conform
