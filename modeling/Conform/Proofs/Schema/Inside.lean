import Conform.Proofs.Schema.Levels

namespace Conform

def OptionType.schemas (t : OptionType) : List Schema :=
  t.parts.filterMap fun u => u.container?.map Prod.snd

/-- The schemas that stand in the rules for an option: the declared keys and those in the type. -/
def OptionSpec.schemas (spec : OptionSpec) : List Schema :=
  spec.keys?.toList ++ spec.type.schemas

namespace OptionType

@[simp] theorem schemas_basic (b : BasicType) : (basic b).schemas = [] := rfl

@[simp] theorem schemas_function (arity : Nat) : (function arity).schemas = [] := rfl

@[simp] theorem schemas_oneOf (choices : Choices) : (oneOf choices).schemas = [] := rfl

@[simp] theorem schemas_custom (f : Function) (args : List Value) :
    (custom f args).schemas = [] := rfl

@[simp] theorem schemas_struct (name : String) : (struct name).schemas = [] := rfl

@[simp] theorem schemas_keywordListOf (s : Schema) : (keywordListOf s).schemas = [s] := rfl

@[simp] theorem schemas_nonEmptyKeywordListOf (s : Schema) :
    (nonEmptyKeywordListOf s).schemas = [s] := rfl

@[simp] theorem schemas_mapOfKeys (s : Schema) : (mapOfKeys s).schemas = [s] := rfl

@[simp] theorem schemas_listOf (t : OptionType) : (listOf t).schemas = t.schemas := rfl

@[simp] theorem schemas_mapOf (key value : OptionType) :
    (mapOf key value).schemas = key.schemas ++ value.schemas := by
  simp [schemas, parts, container?]

theorem filterMap_partsAll (ts : List OptionType) :
    ((partsAll ts).filterMap fun u => u.container?.map Prod.snd) = ts.flatMap schemas := by
  rw [partsAll_eq_flatMap, List.filterMap_flatMap]
  rfl

@[simp] theorem schemas_union (ts : List OptionType) :
    (union ts).schemas = ts.flatMap schemas :=
  filterMap_partsAll ts

@[simp] theorem schemas_tupleOf (ts : List OptionType) :
    (tupleOf ts).schemas = ts.flatMap schemas :=
  filterMap_partsAll ts

variable {u t : OptionType}

mutual

theorem part_of_mem_parts : (t : OptionType) → u ∈ t.parts → Part u t
  | .mapOf key value, h => by
    rw [parts, List.mem_cons, List.mem_append] at h
    rcases h with rfl | h | h
    · exact .self
    · exact .mapKey (part_of_mem_parts key h)
    · exact .mapValue (part_of_mem_parts value h)
  | .union ts, h => by
    rw [parts, List.mem_cons] at h
    rcases h with rfl | h
    · exact .self
    · obtain ⟨t, ht, hu⟩ := part_of_mem_partsAll ts h
      exact .alternative ht hu
  | .listOf t, h => by
    rw [parts, List.mem_cons] at h
    rcases h with rfl | h
    · exact .self
    · exact .listElement (part_of_mem_parts t h)
  | .tupleOf ts, h => by
    rw [parts, List.mem_cons] at h
    rcases h with rfl | h
    · exact .self
    · obtain ⟨t, ht, hu⟩ := part_of_mem_partsAll ts h
      exact .tupleElement ht hu
  | .basic _, h | .keywordListOf _, h | .nonEmptyKeywordListOf _, h | .mapOfKeys _, h
  | .function _, h | .oneOf _, h | .custom _ _, h | .struct _, h => by
    simp only [parts, List.mem_singleton] at h
    subst h
    exact .self

theorem part_of_mem_partsAll : (ts : List OptionType) → u ∈ partsAll ts → ∃ t ∈ ts, Part u t
  | [], h => by simp [partsAll] at h
  | t :: ts, h => by
    rw [partsAll, List.mem_append] at h
    rcases h with h | h
    · exact ⟨t, by simp, part_of_mem_parts t h⟩
    · obtain ⟨t', ht', hu⟩ := part_of_mem_partsAll ts h
      exact ⟨t', List.mem_cons_of_mem _ ht', hu⟩

end

theorem mem_parts_iff : u ∈ t.parts ↔ Part u t :=
  ⟨part_of_mem_parts t, Part.mem_parts⟩

theorem Part.sizeOf_le (h : Part u t) : sizeOf u ≤ sizeOf t := by
  induction h with
  | self => exact Nat.le_refl _
  | mapKey _ ih | mapValue _ ih | listElement _ ih =>
    simp only [mapOf.sizeOf_spec, listOf.sizeOf_spec]
    omega
  | alternative ht _ ih | tupleElement ht _ ih =>
    have := List.sizeOf_lt_of_mem ht
    simp only [union.sizeOf_spec, tupleOf.sizeOf_spec]
    omega

theorem mem_schemas {s : Schema} :
    s ∈ t.schemas ↔ ∃ u b, Part u t ∧ u.container? = some (b, s) := by
  simp only [schemas, List.mem_filterMap, mem_parts_iff, Option.map_eq_some_iff, Prod.exists,
    exists_eq_right]
  constructor
  · rintro ⟨u, hu, b, hb⟩
    exact ⟨u, b, hu, hb⟩
  · rintro ⟨u, b, hu, hb⟩
    exact ⟨u, hu, b, hb⟩

theorem sizeOf_lt_of_container? {b : BasicType} {s : Schema} (h : t.container? = some (b, s)) :
    sizeOf s < sizeOf t := by
  cases t <;> simp only [container?, reduceCtorEq, Option.some.injEq, Prod.mk.injEq] at h
  all_goals
    obtain ⟨-, rfl⟩ := h
    simp

end OptionType

theorem OptionSpec.mem_schemas {spec : OptionSpec} {s : Schema} :
    s ∈ spec.schemas ↔ spec.keys? = some s ∨ s ∈ spec.type.schemas := by
  simp [schemas]

theorem OptionSpec.sizeOf_lt_of_mem_schemas {spec : OptionSpec} {s : Schema}
    (h : s ∈ spec.schemas) : sizeOf s < sizeOf spec := by
  obtain ⟨t, required, default?, keys?, deprecation?, renameTo?, doc?, subsection?, typeDoc?,
    redact⟩ := spec
  rw [mem_schemas, OptionType.mem_schemas] at h
  rw [OptionSpec.mk.sizeOf_spec]
  rcases h with h | ⟨u, b, hu, ht⟩
  · dsimp only at h
    subst h
    rw [Option.some.sizeOf_spec]
    omega
  · have := OptionType.sizeOf_lt_of_container? ht
    have := hu.sizeOf_le
    dsimp only at this
    omega

theorem Entry.sizeOf_lt_of_mem_schemas {es : List Entry} {e : Entry} (he : e ∈ es) {s : Schema}
    (hs : s ∈ e.spec.schemas) : sizeOf s < sizeOf es := by
  have hspec := OptionSpec.sizeOf_lt_of_mem_schemas hs
  have hentry := List.sizeOf_lt_of_mem he
  obtain ⟨key, spec⟩ := e
  rw [Entry.mk.sizeOf_spec] at hentry
  dsimp only at hspec
  omega

namespace Schema

/-- A property holds of every schema if it holds of the deferred ones, and of entries whenever it
holds of the schemas that stand in their rules. -/
theorem inside_induction {motive : Schema → Prop} (deferred : ∀ d, motive (.deferred d))
    (entries : ∀ es, (∀ e ∈ es, ∀ t ∈ e.spec.schemas, motive t) → motive (.entries es)) :
    (s : Schema) → motive s
  | .deferred d => deferred d
  | .entries es => entries es fun e he t ht =>
    have hlt : sizeOf t < sizeOf (Schema.entries es) := by
      have := Entry.sizeOf_lt_of_mem_schemas he ht
      rw [Schema.entries.sizeOf_spec]
      omega
    inside_induction deferred entries t
termination_by s => sizeOf s
decreasing_by exact hlt

inductive Inside : Schema → Schema → Prop where
  | self {s} : Inside s s
  | inner {t u e es} : e ∈ es → u ∈ e.spec.schemas → Inside t u → Inside t (.entries es)

variable {host : Host} {s t : Schema}

theorem contains_iff : s.Contains host t ↔
    ∃ es, s.Resolves host es ∧ ∃ e ∈ es, t ∈ e.spec.schemas := by
  constructor
  · intro h
    cases h with
    | type hes he hu ht =>
      have htype := OptionType.mem_schemas.2 ⟨_, _, hu, ht⟩
      exact ⟨_, hes, _, he, OptionSpec.mem_schemas.2 (.inr htype)⟩
    | keys hes he ht => exact ⟨_, hes, _, he, OptionSpec.mem_schemas.2 (.inl ht)⟩
  · rintro ⟨es, hes, e, he, h⟩
    rcases OptionSpec.mem_schemas.1 h with ht | h
    · exact .keys hes he ht
    · obtain ⟨u, b, hu, ht⟩ := OptionType.mem_schemas.1 h
      exact .type hes he hu ht

theorem Inside.within (h : Inside t s) : s.Within host t := by
  induction h with
  | self => exact .refl
  | inner he hu _ ih => exact .head (contains_iff.2 ⟨_, .entries _, _, he, hu⟩) ih

theorem within_of_resolves {es : List Entry} (hes : s.Resolves host es)
    (h : (entries es).Within host t) : t = entries es ∨ s.Within host t := by
  rcases h.cases_head with rfl | ⟨u, hu, hut⟩
  · exact .inl rfl
  · obtain ⟨ds, hds, hmem⟩ := contains_iff.1 hu
    cases hds
    exact .inr (.head (contains_iff.2 ⟨es, hes, hmem⟩) hut)

/-- Schemas listed with their entries, such that those in the rules of the entries are listed, too,
have no levels that are not listed. -/
theorem within_listed {listed : List (Schema × List Entry)}
    (hlisted : ∀ x ∈ listed, x.1.Resolves host x.2 ∧
      ∀ u ∈ x.2.flatMap fun e => e.spec.schemas, ∃ y ∈ listed, y.1 = u)
    (hs : ∃ x ∈ listed, x.1 = s) (ht : s.Within host t) : ∃ x ∈ listed, x.1 = t := by
  induction ht with
  | refl => exact hs
  | tail _ hstep ih =>
    obtain ⟨x, hx, rfl⟩ := ih
    obtain ⟨es, hes, e, he, hmem⟩ := contains_iff.1 hstep
    cases hes.unique (hlisted x hx).1
    exact (hlisted x hx).2 _ (List.mem_flatMap.2 ⟨e, he, hmem⟩)

theorem within_eq_self {es : List Entry} (hes : s.Resolves host es)
    (h : ∀ u ∈ es.flatMap fun e => e.spec.schemas, u = s) (ht : s.Within host t) : t = s := by
  induction ht with
  | refl => rfl
  | tail _ hstep ih =>
    subst ih
    obtain ⟨ds, hds, e, he, hmem⟩ := contains_iff.1 hstep
    cases hds.unique hes
    exact h _ (List.mem_flatMap.2 ⟨e, he, hmem⟩)

theorem Everywhere.of_listed {p : List Entry → Prop} (listed : List (Schema × List Entry))
    (hlisted : ∀ x ∈ listed, x.1.Resolves host x.2 ∧
      ∀ u ∈ x.2.flatMap fun e => e.spec.schemas, ∃ y ∈ listed, y.1 = u)
    (hs : ∃ x ∈ listed, x.1 = s) (hp : ∀ x ∈ listed, p x.2) :
    s.Everywhere host p fun _ => True := by
  intro t es ht hes
  obtain ⟨x, hx, rfl⟩ := within_listed hlisted hs ht
  rw [hes.unique (hlisted x hx).1]
  exact ⟨hp x hx, fun _ _ _ _ => trivial⟩

end Schema

end Conform
