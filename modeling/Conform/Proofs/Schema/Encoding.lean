import Mathlib.Data.List.Basic
import Conform.Options
import Conform.Proofs.Schema.Levels
import Conform.Proofs.Schema.Revision
import Conform.Proofs.Value.Nesting
import Conform.Schema.Reader

namespace Conform

-- Powers are those of the core library, also where more instances are in scope.
attribute [local instance (high)] instPowNat

namespace Value

theorem lookup_field? (name key : String) (v? : Option Value) :
    (field? name v?).lookup key = if key == name then v? else none := by
  cases v? with
  | none => simp [field?]
  | some v =>
    simp only [field?, List.lookup_cons, List.lookup_nil]
    cases key == name <;> rfl

theorem lookup_flag (name key : String) (b : Bool) :
    (flag name b).lookup key =
      if key == name then (if b then some (.bool true) else none) else none := by
  cases b with
  | false => simp [flag]
  | true =>
    simp only [flag, if_true, List.lookup_cons, List.lookup_nil]
    cases key == name <;> rfl

theorem toInt_ofArity {arity : Nat} (h : arity ≤ 2 ^ (63 : Nat) - 1) :
    ∃ n : Int64, ofArity arity = .integer n ∧ 0 ≤ n ∧ n.toInt.toNat = arity := by
  have hmin : min arity (2 ^ (63 : Nat) - 1) = arity := Nat.min_eq_left h
  have hint : (Int64.ofNat arity).toInt = arity := Int64.toInt_ofNat_of_lt (by omega)
  refine ⟨Int64.ofNat arity, by rw [ofArity, hmin], ?_, by rw [hint]; rfl⟩
  rw [Int64.le_iff_toInt_le, hint]
  exact Int.natCast_nonneg arity

end Value

theorem SchemaKey.toValue_inj {k l : SchemaKey} (hk : k ≠ .atom wildcardName)
    (hl : l ≠ .atom wildcardName) (h : k.toValue = l.toValue) : k = l := by
  have hread := ofValue?_toValue hk
  rw [h, ofValue?_toValue hl] at hread
  exact (Option.some.inj hread).symm

theorem SchemaKey.toValue_eq_of_beq {k l : SchemaKey} (h : (k.toValue == l.toValue) = true) :
    k.toValue = l.toValue := by
  change Value.beq _ _ = true at h
  cases k <;> cases l <;> simp_all [toValue, option?, Value.beq]

theorem SchemaKey.hasNaN_toValue (k : SchemaKey) : k.toValue.hasNaN = false := by
  cases k <;> rfl

theorem Pairs.find?_map_atom (fields : List (String × Value)) (name : String) :
    Pairs.find? (fields.map fun p => (Value.atom p.1, p.2)) (.atom name) = fields.lookup name := by
  induction fields with
  | nil => rfl
  | cons p fields ih =>
    have hbeq : (Value.atom p.1 == Value.atom name) = (name == p.1) := by
      change Value.beq _ _ = _
      rw [Value.beq, BEq.comm]
    rw [List.map_cons, Pairs.find?_cons, List.lookup_cons, ih, hbeq]
    cases name == p.1 <;> rfl

namespace OptionType

attribute [local simp] toValue TypeTag.data read

variable {m : Type → Type} [Monad m] [MonadExceptOf ReadError m] (nested : Value → m Schema)

theorem read_basic (b : BasicType) : read nested (basic b).toValue = pure (.basic b) := by
  simp

theorem read_function {arity : Nat} (h : arity ≤ 2 ^ (63 : Nat) - 1) :
    read nested (function arity).toValue = pure (.function arity) := by
  obtain ⟨n, hn, hnonneg, harity⟩ := Value.toInt_ofArity h
  simp [hn, hnonneg, harity]

theorem read_oneOf (choices : Choices) :
    read nested (oneOf choices).toValue = pure (.oneOf choices.renewed) := by
  simp

theorem read_custom (f : Function) (args : List Value) :
    read nested (custom f args).toValue =
      if f.arity = args.length + 1 then pure (.custom f args)
      else throw (.wrongArity f args.length) := by
  simp [Value.asList?]

theorem read_struct (name : String) : read nested (struct name).toValue = pure (.struct name) := by
  simp

theorem read_mapOf (key value : OptionType) :
    read nested (mapOf key value).toValue = (do
      let key ← read nested key.toValue
      let value ← read nested value.toValue
      return .mapOf key value) := by
  simp

variable [LawfulMonad m]

theorem read_union (ts : List OptionType) :
    read nested (union ts).toValue = .union <$> readAll nested (toValues ts) := by
  simp

theorem read_listOf (t : OptionType) :
    read nested (listOf t).toValue = .listOf <$> read nested t.toValue := by
  simp

theorem read_tupleOf (ts : List OptionType) :
    read nested (tupleOf ts).toValue = .tupleOf <$> readAll nested (toValues ts) := by
  simp

theorem read_container {t : OptionType} {b : BasicType} {s : Schema}
    (h : t.container? = some (b, s)) : ∃ rebuild : Schema → OptionType,
      (∀ r, rebuild (s.revise r) = t.revise r) ∧
        read nested t.toValue = rebuild <$> nested s.toValue := by
  cases t <;> simp only [container?, reduceCtorEq, Option.some.injEq, Prod.mk.injEq] at h
  all_goals
    obtain ⟨-, rfl⟩ := h
  · exact ⟨.keywordListOf, fun r => by rw [revise], by simp⟩
  · exact ⟨.nonEmptyKeywordListOf, fun r => by rw [revise], by simp⟩
  · exact ⟨.mapOfKeys, fun r => by rw [revise], by simp⟩

end OptionType

@[simp] theorem Doc.ofValue?_toValue (d : Doc) : ofValue? d.toValue = some d := by
  cases d <;> rfl

namespace OptionSpec

def fields (spec : OptionSpec) : List (String × Value) :=
  ("type", spec.type.toValue) ::
    (Value.flag "required" spec.required ++
      Value.field? "default" spec.default? ++
      Value.field? "keys" (spec.keys?.map Schema.toValue) ++
      Value.field? "deprecated" (spec.deprecation?.map .string) ++
      Value.field? "rename_to" (spec.renameTo?.map .atom) ++
      Value.field? "doc" (spec.doc?.map Doc.toValue) ++
      Value.field? "subsection" (spec.subsection?.map .string) ++
      Value.field? "type_doc" (spec.typeDoc?.map Doc.toValue) ++
      Value.flag "redact" spec.redact)

theorem toValue_eq (spec : OptionSpec) : spec.toValue = .keyword spec.fields := by
  have hkeys : ∀ s? : Option Schema, Schema.toValue? s? = s?.map Schema.toValue := by
    intro s?
    cases s? <;> simp [Schema.toValue?]
  cases spec
  rw [toValue, hkeys, fields]

theorem lookup_type (spec : OptionSpec) : spec.fields.lookup "type" = some spec.type.toValue := rfl

theorem lookup_keys (spec : OptionSpec) :
    spec.fields.lookup "keys" = spec.keys?.map Schema.toValue := by
  simp [fields, List.lookup_cons, List.lookup_append, Value.lookup_flag, Value.lookup_field?]

theorem read_toValue (nested : Value → Except ReadError Schema) (spec : OptionSpec) :
    read nested spec.toValue = (do
      let type ← OptionType.read nested spec.type.toValue
      let keys? ←
        match spec.keys? with
        | some keys => some <$> nested keys.toValue
        | none => pure none
      return { spec with type, keys? }) := by
  have hstring : ∀ s? : Option String, (s?.map Value.string >>= Value.asString?) = s? := by
    intro s?
    cases s? <;> rfl
  have hatom : ∀ s? : Option String, (s?.map Value.atom >>= Value.asAtom?) = s? := by
    intro s?
    cases s? <;> rfl
  have hdoc : ∀ doc? : Option Doc, (doc?.map Doc.toValue >>= Doc.ofValue?) = doc? := by
    intro doc?
    cases doc? <;> simp
  obtain ⟨t, required, default?, keys?, deprecation?, renameTo?, doc?, subsection?, typeDoc?,
    redact⟩ := spec
  -- A field that is left out reads as what it is left out for.
  unfold read
  rw [toValue_eq]
  simp only [Value.get?, fields, List.lookup_cons, List.lookup_append, Value.lookup_flag,
    Value.lookup_field?]
  cases required <;> cases redact <;> cases keys? <;> simp [hstring, hatom, hdoc]

end OptionSpec

namespace Entry

theorem toValues_eq (es : List Entry) : toValues es = es.map fun e => (e.key, e.spec.toValue) := by
  induction es with
  | nil => simp [toValues]
  | cons e es ih =>
    cases e
    simp [toValues, toValue, ih]

def dataPairs (es : List Entry) : List (Value × Value) :=
  es.map fun e => (e.key.toValue, e.spec.toValue)

theorem toValue_of_not_string {k : SchemaKey} (h : ∀ name, k ≠ .string name) :
    .atom k.name = k.toValue := by
  cases k with
  | atom name => rfl
  | string name => exact absurd rfl (h name)
  | wildcard => rfl

theorem collect_toValues (es : List Entry) :
    collect (toValues es) = .map (dataPairs es) ∨
      ∃ pairs, collect (toValues es) = .keyword pairs ∧
        (pairs.map fun p => (Value.atom p.1, p.2)) = dataPairs es := by
  unfold collect
  rw [toValues_eq]
  split
  next => exact .inl (by simp [dataPairs])
  next hany =>
    -- Without a string among the keys, the name of each key says which key it is.
    refine .inr ⟨_, rfl, ?_⟩
    simp only [List.any_eq_true, List.mem_map, not_exists, not_and] at hany
    rw [List.map_map, List.map_map, dataPairs]
    apply List.map_congr_left
    intro e he
    have hkey : ∀ name, e.key ≠ .string name := by
      intro name hname
      exact hany _ ⟨e, he, rfl⟩ (by simp [hname])
    simp [toValue_of_not_string hkey]

end Entry

namespace Schema

theorem toValue_entries (es : List Entry) : (entries es).toValue = .map (Entry.dataPairs es) ∨
    ∃ pairs, (entries es).toValue = .keyword pairs ∧
      (pairs.map fun p => (Value.atom p.1, p.2)) = Entry.dataPairs es := by
  rw [toValue]
  exact Entry.collect_toValues es

theorem ofValue?_toValue (es : List Entry) :
    ∃ o, Options.ofValue? (entries es).toValue = some o ∧ o.pairs = Entry.dataPairs es := by
  rcases toValue_entries es with h | ⟨pairs, h, hpairs⟩
  · exact ⟨⟨.map, _⟩, by rw [h]; rfl, rfl⟩
  · refine ⟨⟨.keyword, _⟩, by rw [h]; rfl, hpairs⟩

theorem dataPairs_toValue (es : List Entry) :
    dataPairs (entries es).toValue = .ok (Entry.dataPairs es) := by
  rcases toValue_entries es with h | ⟨pairs, h, hpairs⟩
  · rw [h]
    rfl
  · rw [h, ← hpairs]
    rfl

end Schema

namespace OptionType

theorem depth_le_depthItems_toValues {t : OptionType} {ts : List OptionType} (h : t ∈ ts) :
    t.toValue.depth ≤ Value.depthItems (toValues ts) := by
  induction ts with
  | nil => simp at h
  | cons u ts ih =>
    rw [toValues, Value.depthItems]
    rcases List.mem_cons.1 h with rfl | h
    · omega
    · have := ih h
      omega

theorem depth_lt_of_part {u t : OptionType} (h : Part u t) {b : BasicType} {s : Schema}
    (hu : u.container? = some (b, s)) : s.toValue.depth < t.toValue.depth := by
  induction h with
  | self =>
    cases u <;> simp only [container?, reduceCtorEq, Option.some.injEq, Prod.mk.injEq] at hu
    all_goals
      obtain ⟨-, rfl⟩ := hu
      simp only [toValue, TypeTag.data, Value.depth, Value.depthItems]
      omega
  | mapKey _ ih | mapValue _ ih | listElement _ ih =>
    simp only [toValue, TypeTag.data, Value.depth, Value.depthItems]
    omega
  | alternative ht _ ih | tupleElement ht _ ih =>
    have := depth_le_depthItems_toValues ht
    simp only [toValue, TypeTag.data, Value.depth, Value.depthItems]
    omega

end OptionType

theorem OptionSpec.depth_lt_toValue {spec : OptionSpec} {name : String} {v : Value}
    (h : spec.fields.lookup name = some v) : v.depth < spec.toValue.depth := by
  obtain ⟨before, after, hfields, -⟩ := List.lookup_eq_some_iff.1 h
  rw [toValue_eq, Value.depth, Nat.lt_succ_iff]
  exact Value.depth_le_depthFields (p := (name, v)) (by simp [hfields])

theorem Schema.depth_lt_toValue {es : List Entry} {e : Entry} (he : e ∈ es) :
    e.spec.toValue.depth < (entries es).toValue.depth := by
  obtain ⟨o, ho, hpairs⟩ := ofValue?_toValue es
  refine Value.depth_lt_of_mem_options (p := (e.key.toValue, e.spec.toValue)) ho ?_
  rw [hpairs]
  exact List.mem_map_of_mem he

end Conform
