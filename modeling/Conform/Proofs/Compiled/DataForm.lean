import Conform.Proofs.Compiled.MetaGrammar

namespace Conform

/-- A validator of the type takes the value and the arguments. -/
def OptionType.TakesArguments (t : OptionType) : Prop :=
  ∀ f args, t = .custom f args → f.arity = args.length + 1

/-- Every entry has the rules for which its key stands in the data form: none is hidden by other
rules under the same key further up. -/
def Entry.Exposed (es : List Entry) : Prop :=
  ∀ e ∈ es, Pairs.find? (dataPairs es) e.key.toValue = some e.spec.toValue

theorem Entry.exposed_of_distinct {es : List Entry} (hd : DistinctKeys es)
    (hreserved : ∀ e ∈ es, e.key ≠ .atom SchemaKey.wildcardName) : Exposed es := fun e he =>
  Pairs.find?_of_mem (distinct_dataPairs hd hreserved) (List.mem_map_of_mem he)
    (Value.beq_self_iff.2 e.key.hasNaN_toValue)

namespace Value

theorem ofArity_nonneg (arity : Nat) : ∃ n : Int64, ofArity arity = .integer n ∧ 0 ≤ n := by
  have hmin : min arity (2 ^ 63 - 1) ≤ 2 ^ 63 - 1 := Nat.min_le_right _ _
  obtain ⟨n, hn, hnonneg, -⟩ := toInt_ofArity hmin
  refine ⟨n, ?_, hnonneg⟩
  rw [← hn, ofArity, ofArity, Nat.min_assoc, Nat.min_self]

theorem mem_flag {name : String} {b : Bool} {f : String × Value} :
    f ∈ flag name b ↔ b = true ∧ f = (name, .bool true) := by
  cases b <;> simp [flag]

theorem mem_field? {name : String} {v? : Option Value} {f : String × Value} :
    f ∈ field? name v? ↔ ∃ v, v? = some v ∧ f = (name, v) := by
  cases v? <;> simp [field?]

end Value

namespace Grammar

variable {p : Value → Prop} {host : Host}

section

variable {v w : Value} {items : List Value}

theorem isType_items {tag : TypeTag} (htag : tag = .union ∨ tag = .tuple) :
    IsType p (tag.data [.list items]) ↔ ∀ item ∈ items, IsType p item := by
  constructor
  · intro h
    generalize hv : TypeTag.data _ _ = v at h
    cases h <;> simp_all
  · intro h
    rcases htag with rfl | rfl
    · exact .union h
    · exact .tuple h

theorem isType_list : IsType p (TypeTag.list.data [v]) ↔ IsType p v := by
  constructor
  · intro h
    generalize hv : TypeTag.data _ _ = v at h
    cases h <;> simp_all
  · exact .list

theorem isType_mapOf : IsType p (TypeTag.map.data [v, w]) ↔ IsType p v ∧ IsType p w := by
  constructor
  · intro h
    generalize hv : TypeTag.data _ _ = v at h
    cases h <;> simp_all
  · exact fun h => .mapOf h.1 h.2

theorem isType_custom {f : Function} {args : List Value} :
    IsType p (TypeTag.custom.data [.function f, .list args]) ↔ f.arity = args.length + 1 := by
  constructor
  · intro h
    generalize hv : TypeTag.data _ _ = v at h
    cases h with
    | custom hargs harity =>
      simp only [TypeTag.data_inj, List.cons.injEq, Value.function.injEq, and_true, true_and] at hv
      obtain ⟨rfl, rfl⟩ := hv
      cases hargs
      exact harity
    | _ => simp at hv
  · exact .custom rfl

theorem isType_container {t : OptionType} {b : BasicType} {s : Schema}
    (ht : t.container? = some (b, s)) : IsType p t.toValue ↔ p s.toValue := by
  cases t <;> simp only [OptionType.container?, reduceCtorEq, Option.some.injEq,
    Prod.mk.injEq] at ht
  all_goals
    obtain ⟨-, rfl⟩ := ht
    rw [OptionType.toValue]
  · exact ⟨fun h => h.inline .keywordList, .keywordList⟩
  · exact ⟨fun h => h.inline .nonEmptyKeywordList, .nonEmptyKeywordList⟩
  · exact ⟨fun h => h.inline .map, .map⟩

end

section

attribute [local simp] OptionType.TakesArguments OptionType.parts OptionType.toValue

mutual

theorem isType_toValue : (t : OptionType) → (IsType p t.toValue ↔
    (∀ u ∈ t.parts, u.TakesArguments) ∧ ∀ s ∈ t.schemas, p s.toValue)
  | .basic b => by simpa using IsType.basic b
  | .keywordListOf s | .nonEmptyKeywordListOf s | .mapOfKeys s =>
    (isType_container rfl).trans (by simp)
  | .mapOf key value => by
    rw [OptionType.toValue, isType_mapOf, isType_toValue key, isType_toValue value]
    simp only [OptionType.parts, OptionType.schemas_mapOf, OptionType.TakesArguments, List.mem_cons,
      List.mem_append, or_imp, forall_and, forall_eq, reduceCtorEq, IsEmpty.forall_iff,
      implies_true, true_and]
    tauto
  | .function arity => by
    obtain ⟨n, hn, hnonneg⟩ := Value.ofArity_nonneg arity
    simpa [hn] using IsType.function hnonneg
  | .oneOf choices => by simpa using IsType.oneOf choices
  | .custom f args => by simpa using isType_custom
  | .union ts => by
    rw [OptionType.toValue, isType_items (.inl rfl), isType_toValues ts]
    simp [OptionType.partsAll_eq_flatMap]
  | .listOf t => by
    rw [OptionType.toValue, isType_list, isType_toValue t]
    simp
  | .tupleOf ts => by
    rw [OptionType.toValue, isType_items (.inr rfl), isType_toValues ts]
    simp [OptionType.partsAll_eq_flatMap]
  | .struct name => by simpa using IsType.struct name

theorem isType_toValues : (ts : List OptionType) →
    ((∀ v ∈ OptionType.toValues ts, IsType p v) ↔
      (∀ u ∈ ts.flatMap OptionType.parts, u.TakesArguments) ∧
        ∀ s ∈ ts.flatMap OptionType.schemas, p s.toValue)
  | [] => by simp [OptionType.toValues]
  | t :: ts => by
    rw [OptionType.toValues, List.forall_mem_cons, isType_toValue t, isType_toValues ts]
    simp only [List.flatMap_cons, List.mem_append, or_imp, forall_and]
    tauto

end

end

theorem isField_of_mem_fields {spec : OptionSpec} (htype : IsType p spec.type.toValue)
    (hkeys : ∀ s, spec.keys? = some s → p s.toValue) {f : String × Value} (hf : f ∈ spec.fields) :
    IsField p f.1 f.2 := by
  simp only [OptionSpec.fields, List.mem_cons, List.mem_append, Value.mem_flag,
    Value.mem_field?, Option.map_eq_some_iff, or_assoc] at hf
  rcases hf with rfl | ⟨-, rfl⟩ | ⟨v, -, rfl⟩ | ⟨_, ⟨s, hs, rfl⟩, rfl⟩ | ⟨_, ⟨text, -, rfl⟩, rfl⟩ |
    ⟨_, ⟨target, -, rfl⟩, rfl⟩ | ⟨_, ⟨d, -, rfl⟩, rfl⟩ | ⟨_, ⟨text, -, rfl⟩, rfl⟩ |
    ⟨_, ⟨d, -, rfl⟩, rfl⟩ | ⟨-, rfl⟩
  · exact .type htype
  · exact .required true
  · exact .default v
  · exact .keys (hkeys s hs)
  · exact .deprecated text
  · exact .renameTo target
  · exact .doc d
  · exact .subsection text
  · exact .typeDoc d
  · exact .redact true

theorem rulesBy_toValue {spec : OptionSpec} : RulesBy .firsts p spec.toValue ↔
    (∀ u, OptionType.Part u spec.type → u.TakesArguments) ∧ ∀ s ∈ spec.schemas, p s.toValue := by
  have hfields : RulesBy .firsts p spec.toValue ↔
      IsType p spec.type.toValue ∧ ∀ s, spec.keys? = some s → p s.toValue := by
    rw [OptionSpec.toValue_eq]
    constructor
    · rintro ⟨hw, h⟩
      cases hw
      refine ⟨?_, fun s hs => ?_⟩
      · refine isField_type.1 (h ("type", spec.type.toValue) (Pairs.mem_firsts_iff.2 ?_))
        exact spec.lookup_type
      · refine isField_keys.1 (h ("keys", s.toValue) (Pairs.mem_firsts_iff.2 ?_))
        rw [OptionSpec.lookup_keys, hs]
        rfl
    · rintro ⟨htype, hkeys⟩
      refine .intro rfl fun f hf => ?_
      exact isField_of_mem_fields htype hkeys (Pairs.mem_of_mem_firsts hf)
  simp only [hfields, isType_toValue, OptionType.mem_parts_iff, OptionSpec.mem_schemas, or_imp,
    forall_and]
  tauto

theorem admits_toValue {s : Schema} : Admits host s.toValue ↔
    (s.isDeferred = false → metaSchema.Conforms host s.toValue) := by
  cases s with
  | deferred d =>
    have hproducer : (Schema.deferred d).toValue.isProducer = true := by
      rw [Schema.toValue]
      rfl
    simp [Admits, hproducer, Schema.isDeferred]
  | entries es => simp [Admits, Schema.isProducer_toValue, Schema.isDeferred]

end Grammar

namespace Schema

open Grammar

variable {host : Host} {es : List Entry}

theorem conforms_toValue : metaSchema.Conforms host (entries es).toValue ↔
    ∀ p ∈ Pairs.firsts (Entry.dataPairs es), RulesBy .firsts (Admits host) p.2 := by
  obtain ⟨o, ho, hpairs⟩ := ofValue?_toValue es
  rw [conforms_iff_firsts]
  constructor
  · rintro ⟨o', ho', -, h⟩
    cases ho.symm.trans ho'
    rwa [← hpairs]
  · intro h
    refine ⟨o, ho, fun p hp => ?_, by rwa [hpairs]⟩
    rw [hpairs] at hp
    obtain ⟨e, -, rfl⟩ := List.mem_map.1 hp
    exact e.key.hasNaN_toValue

/-- The data form of entries conforms if the validators in their rules take what they are called
with, and the data forms of the schemas in the rules conform. -/
theorem conforms_of_entries (htakes : ∀ e ∈ es, ∀ u, OptionType.Part u e.spec.type →
      u.TakesArguments)
    (hinner : ∀ e ∈ es, ∀ s ∈ e.spec.schemas, s.isDeferred = false →
      metaSchema.Conforms host s.toValue) : metaSchema.Conforms host (entries es).toValue := by
  refine conforms_toValue.2 fun p hp => ?_
  obtain ⟨e, he, rfl⟩ := List.mem_map.1 (Pairs.mem_of_mem_firsts hp)
  exact rulesBy_toValue.2 ⟨htakes e he, fun s hs => admits_toValue.2 (hinner e he s hs)⟩

/-- If no entry is hidden, the data form conforms in no other case. -/
theorem entries_of_conforms (h : metaSchema.Conforms host (entries es).toValue)
    (hes : Entry.Exposed es) {e : Entry} (he : e ∈ es) :
    (∀ u, OptionType.Part u e.spec.type → u.TakesArguments) ∧
      ∀ s ∈ e.spec.schemas, s.isDeferred = false → metaSchema.Conforms host s.toValue := by
  obtain ⟨q, hq, -, hrules⟩ := Pairs.exists_mem_firsts (hes e he)
  have h := conforms_toValue.1 h q hq
  rw [hrules, rulesBy_toValue] at h
  exact ⟨h.1, fun s hs => admits_toValue.1 (h.2 s hs)⟩

end Schema

end Conform
