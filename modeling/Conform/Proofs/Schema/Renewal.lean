import Conform.Proofs.Schema.Comparable
import Conform.Proofs.Schema.Revision
import Conform.Schema.Reader

namespace Conform

/-- What a schema goes through on the way to its data form and back: no range is spent any more. -/
def Revision.renewal : Revision where
  value := id
  function := id
  choices := Choices.renewed

@[simp] theorem Revision.value_renewal : renewal.value = id := rfl

@[simp] theorem Revision.function_renewal (f : Function) : renewal.function f = f := rfl

@[simp] theorem Revision.choices_renewal (c : Choices) : renewal.choices c = c.renewed := rfl

abbrev OptionType.renewed (t : OptionType) : OptionType := t.revise .renewal

abbrev OptionSpec.renewed (spec : OptionSpec) : OptionSpec := spec.revise .renewal

abbrev Schema.renewed (s : Schema) : Schema := s.revise .renewal

def OptionType.Unspent : OptionType → Prop
  | .oneOf (.range _ _ spent) => spent = false
  | _ => True

/-- No range in the schema is spent, as far as it is written out. -/
inductive Schema.Unspent : Schema → Prop where
  | entries {es} : (∀ e ∈ es, ∀ u, OptionType.Part u e.spec.type → u.Unspent) →
      (∀ e ∈ es, ∀ t ∈ e.spec.schemas, Unspent t) → Unspent (.entries es)
  | deferred (d : Deferred) : Unspent (.deferred d)

section

attribute [local simp] OptionType.revise OptionType.reviseAll OptionType.parts OptionType.partsAll
  OptionType.Unspent OptionType.Comparable OptionType.beq OptionType.beqAll Choices.renewed

mutual

theorem OptionType.renewed_eq : (t : OptionType) → (∀ u ∈ t.parts, u.Unspent) →
    (∀ s ∈ t.schemas, s.renewed = s) → t.renewed = t
  | .basic b, _, _ | .function n, _, _ | .struct name, _, _ => by simp
  | .keywordListOf s, _, h | .nonEmptyKeywordListOf s, _, h | .mapOfKeys s, _, h => by
    simpa using h
  | .mapOf key value, hparts, h => by
    simp only [parts, List.forall_mem_cons, List.forall_mem_append, schemas_mapOf] at hparts h
    simp [OptionType.renewed_eq key hparts.2.1 h.1, OptionType.renewed_eq value hparts.2.2 h.2]
  | .oneOf (.values vs), _, _ => by simp
  | .oneOf (.range low high spent), hparts, _ => by simpa [eq_comm] using hparts
  | .custom f args, _, _ => by simp
  | .union ts, hparts, h => by
    simp only [parts, List.forall_mem_cons, schemas_union] at hparts h
    simp [OptionType.renewedAll_eq ts hparts.2 h]
  | .listOf t, hparts, h => by
    simp only [parts, List.forall_mem_cons, schemas_listOf] at hparts h
    simp [OptionType.renewed_eq t hparts.2 h]
  | .tupleOf ts, hparts, h => by
    simp only [parts, List.forall_mem_cons, schemas_tupleOf] at hparts h
    simp [OptionType.renewedAll_eq ts hparts.2 h]

theorem OptionType.renewedAll_eq : (ts : List OptionType) → (∀ u ∈ partsAll ts, u.Unspent) →
    (∀ s ∈ ts.flatMap OptionType.schemas, s.renewed = s) → reviseAll .renewal ts = ts
  | [], _, _ => by simp
  | t :: ts, hparts, h => by
    simp only [partsAll, List.forall_mem_append, List.flatMap_cons] at hparts h
    simp [OptionType.renewed_eq t hparts.1 h.1, OptionType.renewedAll_eq ts hparts.2 h.2]

end

mutual

theorem OptionType.beq_renewed : (t : OptionType) → (∀ u ∈ t.parts, u.Comparable) →
    (OptionType.beq t.renewed t = true ↔
      (∀ u ∈ t.parts, u.Unspent) ∧ ∀ s ∈ t.schemas, Schema.beq s.renewed s = true)
  | .basic b, _ | .function n, _ | .struct name, _ => by simp
  | .keywordListOf s, _ | .nonEmptyKeywordListOf s, _ | .mapOfKeys s, _ => by simp
  | .mapOf key value, h => by
    simp only [parts, List.forall_mem_cons, List.forall_mem_append] at h
    simp [OptionType.beq_renewed key h.2.1, OptionType.beq_renewed value h.2.2, or_imp, forall_and]
    tauto
  | .oneOf (.values vs), h => by
    simp only [parts, List.forall_mem_singleton, Comparable] at h
    simp [Value.beq_list_self h]
  | .oneOf (.range low high spent), _ => by cases spent <;> simp
  | .custom f args, h => by
    simp only [parts, List.forall_mem_singleton, Comparable] at h
    simp [Value.beq_list_self h]
  | .union ts, h => by
    simp only [parts, List.forall_mem_cons] at h
    simp [OptionType.beqAll_renewed ts h.2]
  | .listOf t, h => by
    simp only [parts, List.forall_mem_cons] at h
    simp [OptionType.beq_renewed t h.2]
  | .tupleOf ts, h => by
    simp only [parts, List.forall_mem_cons] at h
    simp [OptionType.beqAll_renewed ts h.2]

theorem OptionType.beqAll_renewed : (ts : List OptionType) → (∀ u ∈ partsAll ts, u.Comparable) →
    (OptionType.beqAll (reviseAll .renewal ts) ts = true ↔ (∀ u ∈ partsAll ts, u.Unspent) ∧
      ∀ s ∈ ts.flatMap OptionType.schemas, Schema.beq s.renewed s = true)
  | [], _ => by simp
  | t :: ts, h => by
    simp only [partsAll, List.forall_mem_append] at h
    simp [OptionType.beq_renewed t h.1, OptionType.beqAll_renewed ts h.2, or_imp, forall_and]
    tauto

end

end

theorem OptionSpec.renewed_eq {spec : OptionSpec}
    (hparts : ∀ u, OptionType.Part u spec.type → u.Unspent)
    (h : ∀ s ∈ spec.schemas, s.renewed = s) : spec.renewed = spec := by
  have htype : spec.type.revise .renewal = spec.type :=
    spec.type.renewed_eq (fun u hu => hparts u (OptionType.part_of_mem_parts _ hu))
      fun s hs => h s (mem_schemas.2 (.inr hs))
  have hkeys : Schema.revise? .renewal spec.keys? = spec.keys? := by
    cases hs : spec.keys? with
    | none => rw [Schema.revise?]
    | some s =>
      rw [Schema.revise?]
      exact congrArg some (h s (mem_schemas.2 (.inl hs)))
  obtain ⟨t, required, default?, keys?, deprecation?, renameTo?, doc?, subsection?, typeDoc?,
    redact⟩ := spec
  dsimp only at htype hkeys
  rw [renewed, revise, htype, hkeys, Revision.value_renewal, Option.map_id, id]

theorem OptionSpec.beq_renewed {spec : OptionSpec}
    (hdefault : ∀ v, spec.default? = some v → v.hasNaN = false)
    (hparts : ∀ u, OptionType.Part u spec.type → u.Comparable) :
    OptionSpec.beq spec.renewed spec = true ↔
      (∀ u, OptionType.Part u spec.type → u.Unspent) ∧
        ∀ s ∈ spec.schemas, Schema.beq s.renewed s = true := by
  have htype := spec.type.beq_renewed fun u hu => hparts u (OptionType.part_of_mem_parts _ hu)
  have hkeys : Schema.beq? (Schema.revise? .renewal spec.keys?) spec.keys? = true ↔
      ∀ s, spec.keys? = some s → Schema.beq s.renewed s = true := by
    cases spec.keys? with
    | none => simp [Schema.revise?, Schema.beq?]
    | some s => simp [Schema.revise?, Schema.beq?]
  have hsplit : (∀ s ∈ spec.schemas, Schema.beq s.renewed s = true) ↔
      (∀ s, spec.keys? = some s → Schema.beq s.renewed s = true) ∧
        ∀ s ∈ spec.type.schemas, Schema.beq s.renewed s = true := by
    simp only [mem_schemas, or_imp, forall_and]
  simp only [OptionType.mem_parts_iff] at htype
  rw [hsplit, ← hkeys]
  obtain ⟨t, required, default?, keys?, deprecation?, renameTo?, doc?, subsection?, typeDoc?,
    redact⟩ := spec
  dsimp only at htype hdefault ⊢
  rw [renewed, revise, OptionSpec.beq, Revision.value_renewal, Option.map_id]
  simp [htype, Value.beq_option_self hdefault]
  tauto

theorem Entry.beqAll_renewed {es : List Entry} :
    Entry.beqAll (es.map (Entry.revise .renewal)) es = true ↔
      ∀ e ∈ es, OptionSpec.beq e.spec.renewed e.spec = true := by
  induction es with
  | nil => simp [beqAll]
  | cons e es ih =>
    obtain ⟨key, spec⟩ := e
    simp [beqAll, revise, beq, ih]

namespace Schema

variable {s : Schema}

theorem Unspent.renewed_eq (h : s.Unspent) : s.renewed = s := by
  induction h with
  | @entries es hparts _ ih =>
    have hes : es.map (Entry.revise .renewal) = es := by
      refine (List.map_congr_left fun e he => ?_).trans (List.map_id es)
      obtain ⟨key, spec⟩ := e
      rw [Entry.revise]
      exact congrArg (Entry.mk key) (OptionSpec.renewed_eq (hparts _ he) (ih _ he))
    rw [renewed, revise_entries, hes]
  | deferred d => rw [renewed, revise]

/-- A schema whose values equal themselves is equal to its renewal if and only if no range in it is
spent. -/
theorem Comparable.beq_renewed (h : s.Comparable) : (s.renewed == s) = true ↔ s.Unspent := by
  change Schema.beq s.renewed s = true ↔ _
  induction h with
  | @entries es hdefaults hparts _ ih =>
    rw [renewed, revise_entries, beq, Entry.beqAll_renewed]
    constructor
    · intro h
      have hspec := fun e he => (OptionSpec.beq_renewed (hdefaults e he) (hparts e he)).1 (h e he)
      refine .entries (fun e he => (hspec e he).1) fun e he t ht => ?_
      exact (ih e he t ht).1 ((hspec e he).2 t ht)
    · rintro (⟨hunspent, hinner⟩ | _) e he
      rw [OptionSpec.beq_renewed (hdefaults e he) (hparts e he)]
      refine ⟨hunspent e he, fun t ht => ?_⟩
      exact (ih e he t ht).2 (hinner e he t ht)
  | deferred d =>
    rw [renewed, revise, beq]
    simp [Unspent.deferred]

end Schema

end Conform
