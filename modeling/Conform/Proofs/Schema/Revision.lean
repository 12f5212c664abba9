import Conform.Proofs.Schema.Inside
import Conform.Schema.Name

namespace Conform

/-- A change to the values, the validators and the choices in a schema. It leaves the shape of the
schema alone, and deferred schemas are what they were. -/
structure Revision where
  value : Value → Value
  function : Function → Function
  choices : Choices → Choices

mutual

def OptionType.revise (r : Revision) : OptionType → OptionType
  | .keywordListOf s => .keywordListOf (Schema.revise r s)
  | .nonEmptyKeywordListOf s => .nonEmptyKeywordListOf (Schema.revise r s)
  | .mapOfKeys s => .mapOfKeys (Schema.revise r s)
  | .mapOf key value => .mapOf (OptionType.revise r key) (OptionType.revise r value)
  | .oneOf choices => .oneOf (r.choices choices)
  | .custom f args => .custom (r.function f) (args.map r.value)
  | .union ts => .union (OptionType.reviseAll r ts)
  | .listOf t => .listOf (OptionType.revise r t)
  | .tupleOf ts => .tupleOf (OptionType.reviseAll r ts)
  | .basic b => .basic b
  | .function arity => .function arity
  | .struct name => .struct name

def OptionType.reviseAll (r : Revision) : List OptionType → List OptionType
  | [] => []
  | t :: rest => OptionType.revise r t :: OptionType.reviseAll r rest

def OptionSpec.revise (r : Revision) : OptionSpec → OptionSpec
  | ⟨t, required, default?, keys?, deprecation?, renameTo?, doc?, subsection?, typeDoc?, redact⟩ =>
    ⟨OptionType.revise r t, required, default?.map r.value, Schema.revise? r keys?,
      deprecation?, renameTo?, doc?, subsection?, typeDoc?, redact⟩

def Entry.revise (r : Revision) : Entry → Entry
  | ⟨key, spec⟩ => ⟨key, OptionSpec.revise r spec⟩

def Entry.reviseAll (r : Revision) : List Entry → List Entry
  | [] => []
  | e :: rest => Entry.revise r e :: Entry.reviseAll r rest

def Schema.revise (r : Revision) : Schema → Schema
  | .entries es => .entries (Entry.reviseAll r es)
  | .deferred d => .deferred d

def Schema.revise? (r : Revision) : Option Schema → Option Schema
  | none => none
  | some s => some (Schema.revise r s)

end

variable (r : Revision)

theorem OptionType.acceptsKeys_revise : (t : OptionType) → (t.revise r).acceptsKeys = t.acceptsKeys
  | .listOf t => by simp only [revise, acceptsKeys, acceptsKeys_revise t]
  | .basic _ | .function _ | .struct _ | .keywordListOf _ | .nonEmptyKeywordListOf _
  | .mapOfKeys _ | .mapOf _ _ | .oneOf _ | .custom _ _ | .union _ | .tupleOf _ => by
    simp only [revise, acceptsKeys]

mutual

theorem OptionType.schemas_revise : (t : OptionType) →
    (t.revise r).schemas = t.schemas.map (Schema.revise r)
  | .mapOf key value => by
    simp only [revise, schemas_mapOf, OptionType.schemas_revise key,
      OptionType.schemas_revise value, List.map_append]
  | .union ts => by simp only [revise, schemas_union, OptionType.flatMap_schemas_revise ts]
  | .tupleOf ts => by simp only [revise, schemas_tupleOf, OptionType.flatMap_schemas_revise ts]
  | .listOf t => by simp only [revise, schemas_listOf, OptionType.schemas_revise t]
  | .keywordListOf _ | .nonEmptyKeywordListOf _ | .mapOfKeys _ => by
    simp only [revise, schemas_keywordListOf, schemas_nonEmptyKeywordListOf, schemas_mapOfKeys,
      List.map_cons, List.map_nil]
  | .basic _ | .function _ | .oneOf _ | .custom _ _ | .struct _ => by
    simp only [revise, schemas_basic, schemas_function, schemas_oneOf, schemas_custom,
      schemas_struct, List.map_nil]

theorem OptionType.flatMap_schemas_revise : (ts : List OptionType) →
    (OptionType.reviseAll r ts).flatMap OptionType.schemas =
      (ts.flatMap OptionType.schemas).map (Schema.revise r)
  | [] => by simp only [OptionType.reviseAll, List.flatMap_nil, List.map_nil]
  | t :: rest => by
    simp only [OptionType.reviseAll, List.flatMap_cons, List.map_append,
      OptionType.schemas_revise t, OptionType.flatMap_schemas_revise rest]

end

namespace OptionSpec

variable (spec : OptionSpec)

theorem type_revise : (spec.revise r).type = spec.type.revise r := by
  cases spec
  rw [revise]

theorem keys_revise : (spec.revise r).keys? = spec.keys?.map (Schema.revise r) := by
  obtain ⟨t, required, default?, keys?, deprecation?, renameTo?, doc?, subsection?, typeDoc?,
    redact⟩ := spec
  cases keys? <;> simp only [revise, Schema.revise?, Option.map_none, Option.map_some]

theorem renameTo_revise : (spec.revise r).renameTo? = spec.renameTo? := by
  cases spec
  rw [revise]

theorem schemas_revise : (spec.revise r).schemas = spec.schemas.map (Schema.revise r) := by
  unfold schemas
  rw [keys_revise, type_revise, OptionType.schemas_revise, List.map_append]
  cases spec.keys? <;> rfl

end OptionSpec

namespace Entry

theorem reviseAll_eq_map (es : List Entry) : reviseAll r es = es.map (revise r) := by
  induction es with
  | nil => rw [reviseAll, List.map_nil]
  | cons e es ih => rw [reviseAll, ih, List.map_cons]

theorem key_revise (e : Entry) : (e.revise r).key = e.key := by
  cases e
  rw [revise]

theorem spec_revise (e : Entry) : (e.revise r).spec = e.spec.revise r := by
  cases e
  rw [revise]

end Entry

theorem Schema.revise_entries (es : List Entry) :
    (entries es).revise r = .entries (es.map (Entry.revise r)) := by
  rw [revise, Entry.reviseAll_eq_map]

/-- A revision that no text shows. -/
structure Revision.KeepsText : Prop where
  value : ∀ v, (r.value v).inspect = v.inspect
  function : ∀ f, (r.function f).reference = f.reference
  choices : ∀ c, (r.choices c).inspect = c.inspect

variable {r}

theorem Revision.KeepsText.inspectItems (hr : r.KeepsText) (vs : List Value) :
    Value.inspectItems (vs.map r.value) = Value.inspectItems vs := by
  induction vs with
  | nil => rfl
  | cons v vs ih => rw [List.map_cons, Value.inspectItems, Value.inspectItems, hr.value, ih]

mutual

theorem OptionType.name_revise (hr : r.KeepsText) : (t : OptionType) → (t.revise r).name = t.name
  | .mapOf key value => by
    simp only [revise, name, OptionType.name_revise hr key, OptionType.name_revise hr value]
  | .oneOf choices => by simp only [revise, name, hr.choices]
  | .custom f args => by
    simp only [revise, name, Value.inspectList, Value.inspect, hr.function, hr.inspectItems]
  | .union ts | .tupleOf ts => by simp only [revise, name, OptionType.names_revise hr ts]
  | .listOf t => by simp only [revise, name, OptionType.name_revise hr t]
  | .basic _ | .function _ | .struct _ => by simp only [revise]
  | .keywordListOf _ | .nonEmptyKeywordListOf _ | .mapOfKeys _ => by simp only [revise, name]

theorem OptionType.names_revise (hr : r.KeepsText) : (ts : List OptionType) →
    OptionType.names (OptionType.reviseAll r ts) = OptionType.names ts
  | [] => by simp only [OptionType.reviseAll]
  | t :: rest => by
    simp only [OptionType.reviseAll, OptionType.names, OptionType.name_revise hr t,
      OptionType.names_revise hr rest]

end

end Conform
