import Mathlib.Data.List.Forall2
import Conform.Proofs.Schema.Encoding
import Conform.Proofs.Schema.Inside

namespace Conform

theorem map_fst_eq_of_forall₂ {κ α β : Type} {r : κ × α → κ × β → Prop} {ps : List (κ × α)}
    {qs : List (κ × β)} (h : List.Forall₂ (fun p q => p.1 = q.1 ∧ r p q) ps qs) :
    ps.map Prod.fst = qs.map Prod.fst := by
  induction h with
  | nil => rfl
  | cons hpq _ ih => rw [List.map_cons, List.map_cons, hpq.1, ih]

def Function.bodiless (f : Function) : Function := { f with body := .host "" }

namespace Value

mutual

def bodiless : Value → Value
  | .list items => .list (bodilessItems items)
  | .tuple items => .tuple (bodilessItems items)
  | .keyword pairs => .keyword (bodilessFields pairs)
  | .map pairs => .map (bodilessPairs pairs)
  | .function f => .function f.bodiless
  | .struct name fields => .struct name (bodilessFields fields)
  | v => v

def bodilessItems : List Value → List Value
  | [] => []
  | v :: rest => bodiless v :: bodilessItems rest

def bodilessFields : List (String × Value) → List (String × Value)
  | [] => []
  | (name, v) :: rest => (name, bodiless v) :: bodilessFields rest

def bodilessPairs : List (Value × Value) → List (Value × Value)
  | [] => []
  | (k, v) :: rest => (bodiless k, bodiless v) :: bodilessPairs rest

end

end Value

def Choices.bodiless : Choices → Choices
  | .values vs => .values (vs.map Value.bodiless)
  | .range low high spent => .range low high spent

/-- Leaves out the bodies of all functions: validators, their arguments, and the functions in
choices and defaults. -/
def Revision.bodiless : Revision where
  value := Value.bodiless
  function := Function.bodiless
  choices := Choices.bodiless

@[simp] theorem Revision.value_bodiless : bodiless.value = Value.bodiless := rfl

@[simp] theorem Revision.function_bodiless : bodiless.function = Function.bodiless := rfl

@[simp] theorem Revision.choices_bodiless : bodiless.choices = Choices.bodiless := rfl

abbrev OptionType.bodiless (t : OptionType) : OptionType := t.revise .bodiless

abbrev OptionSpec.bodiless (spec : OptionSpec) : OptionSpec := spec.revise .bodiless

abbrev Entry.bodiless (e : Entry) : Entry := e.revise .bodiless

abbrev Schema.bodiless (s : Schema) : Schema := s.revise .bodiless

namespace Value

mutual

theorem inspect_bodiless : (v : Value) → v.bodiless.inspect = v.inspect
  | .list items | .tuple items => by
    simp only [bodiless, inspect, inspectItems_bodiless items]
  | .keyword fields | .struct _ fields => by
    simp only [bodiless, inspect, inspectFields_bodiless fields]
  | .map pairs => by simp only [bodiless, inspect, inspectPairs_bodiless pairs]
  | .function f => by simp only [bodiless, inspect]; rfl
  | .nil | .bool _ | .integer _ | .float _ | .atom _ | .string _ | .pid _ | .ref _ => by
    simp only [bodiless]

theorem inspectItems_bodiless : (items : List Value) →
    inspectItems (bodilessItems items) = inspectItems items
  | [] => by simp only [bodilessItems]
  | v :: rest => by
    simp only [bodilessItems, inspectItems, inspect_bodiless v, inspectItems_bodiless rest]

theorem inspectFields_bodiless : (fields : List (String × Value)) →
    inspectFields (bodilessFields fields) = inspectFields fields
  | [] => by simp only [bodilessFields]
  | (_, v) :: rest => by
    simp only [bodilessFields, inspectFields, inspect_bodiless v, inspectFields_bodiless rest]

theorem inspectPairs_bodiless : (pairs : List (Value × Value)) →
    inspectPairs (bodilessPairs pairs) = inspectPairs pairs
  | [] => by simp only [bodilessPairs]
  | (k, v) :: rest => by
    simp only [bodilessPairs, inspectPairs, inspect_bodiless k, inspect_bodiless v,
      inspectPairs_bodiless rest]

end

theorem bodilessItems_eq_map (items : List Value) : bodilessItems items = items.map bodiless := by
  induction items with
  | nil => rw [bodilessItems, List.map_nil]
  | cons v rest ih => rw [bodilessItems, ih, List.map_cons]

end Value

theorem Choices.inspect_bodiless (c : Choices) : c.bodiless.inspect = c.inspect := by
  cases c with
  | values vs =>
    simp only [bodiless, inspect, Value.inspectList, Value.inspect, ← Value.bodilessItems_eq_map,
      Value.inspectItems_bodiless]
  | range low high spent => rfl

theorem Revision.keepsText_bodiless : bodiless.KeepsText where
  value := Value.inspect_bodiless
  function _ := rfl
  choices := Choices.inspect_bodiless

namespace OptionSpec

section

variable {r : String → Value → Value → Prop}

abbrev SameFields (r : String → Value → Value → Prop) :
    List (String × Value) → List (String × Value) → Prop :=
  List.Forall₂ fun p q => p.1 = q.1 ∧ r p.1 p.2 q.2

theorem sameFields_field? {name : String} {v? w? : Option Value} (h : Option.Rel (r name) v? w?) :
    SameFields r (Value.field? name v?) (Value.field? name w?) := by
  cases h with
  | none => exact .nil
  | some h => exact .cons ⟨rfl, h⟩ .nil

theorem SameFields.rel_lookup {fields fields' : List (String × Value)}
    (h : SameFields r fields fields') (name : String) :
    Option.Rel (r name) (fields.lookup name) (fields'.lookup name) := by
  induction h with
  | nil => exact .none
  | @cons p q _ _ hpq _ ih =>
    obtain ⟨key, v⟩ := p
    obtain ⟨key', w⟩ := q
    obtain ⟨hkey, hv⟩ := hpq
    dsimp only at hkey hv
    subst hkey
    rw [List.lookup_cons, List.lookup_cons]
    by_cases hname : name = key
    · subst hname
      rw [beq_self_eq_true]
      exact .some hv
    · rw [beq_false_of_ne hname]
      exact ih

theorem sameFields_flag {name : String} (h : ∀ v, r name v v) (b : Bool) :
    SameFields r (Value.flag name b) (Value.flag name b) := by
  cases b with
  | false => exact .nil
  | true => exact .cons ⟨rfl, h _⟩ .nil

theorem sameFields_bodiless (spec : OptionSpec)
    (htype : r "type" spec.type.toValue spec.type.bodiless.toValue)
    (hdefault : ∀ v, r "default" v v.bodiless)
    (hkeys : ∀ s, spec.keys? = some s → r "keys" s.toValue s.bodiless.toValue)
    (hother : ∀ name v, name ≠ "type" → name ≠ "keys" → r name v v) :
    SameFields r spec.fields spec.bodiless.fields := by
  have hsame : ∀ name v?, name ≠ "type" → name ≠ "keys" →
      SameFields r (Value.field? name v?) (Value.field? name v?) := by
    intro name v? hnotType hnotKeys
    apply sameFields_field?
    cases v? with
    | none => exact .none
    | some v => exact .some (hother name v hnotType hnotKeys)
  obtain ⟨t, required, default?, keys?, deprecation?, renameTo?, doc?, subsection?, typeDoc?,
    redact⟩ := spec
  have hdefault' : Option.Rel (r "default") default? (default?.map Value.bodiless) := by
    cases default? with
    | none => exact .none
    | some v => exact .some (hdefault v)
  have hkeys' : Option.Rel (r "keys") (keys?.map Schema.toValue)
      ((Schema.revise? .bodiless keys?).map Schema.toValue) := by
    cases keys? <;> rw [Schema.revise?]
    · exact .none
    · exact .some (hkeys _ rfl)
  rw [bodiless, revise]
  refine .cons ⟨rfl, htype⟩ ?_
  refine List.rel_append ?_ (sameFields_flag (hother "redact" · (by decide) (by decide)) _)
  refine List.rel_append ?_ (hsame "type_doc" _ (by decide) (by decide))
  refine List.rel_append ?_ (hsame "subsection" _ (by decide) (by decide))
  refine List.rel_append ?_ (hsame "doc" _ (by decide) (by decide))
  refine List.rel_append ?_ (hsame "rename_to" _ (by decide) (by decide))
  refine List.rel_append ?_ (hsame "deprecated" _ (by decide) (by decide))
  refine List.rel_append ?_ (sameFields_field? hkeys')
  refine List.rel_append ?_ (sameFields_field? hdefault')
  exact sameFields_flag (hother "required" · (by decide) (by decide)) _

end

end OptionSpec

namespace Value

theorem inspectFields_congr {fields fields' : List (String × Value)}
    (h : OptionSpec.SameFields (fun _ v w => v.inspect = w.inspect) fields fields') :
    inspectFields fields = inspectFields fields' := by
  induction h with
  | nil => rfl
  | @cons p q _ _ hpq _ ih =>
    obtain ⟨name, v⟩ := p
    obtain ⟨name', w⟩ := q
    obtain ⟨hname, hv⟩ := hpq
    dsimp only at hname hv
    rw [inspectFields, inspectFields, ih, hname, hv]

theorem inspectFields_map_congr {α : Type} {as : List α} {name : α → String} {f g : α → Value}
    (h : ∀ a ∈ as, (f a).inspect = (g a).inspect) :
    inspectFields (as.map fun a => (name a, f a)) =
      inspectFields (as.map fun a => (name a, g a)) := by
  apply inspectFields_congr
  rw [OptionSpec.SameFields, List.forall₂_map_left_iff, List.forall₂_map_right_iff,
    List.forall₂_same]
  exact fun a ha => ⟨rfl, h a ha⟩

theorem inspectPairs_map_congr {α : Type} {as : List α} {key f g : α → Value}
    (h : ∀ a ∈ as, (f a).inspect = (g a).inspect) :
    inspectPairs (as.map fun a => (key a, f a)) = inspectPairs (as.map fun a => (key a, g a)) := by
  induction as with
  | nil => rfl
  | cons a as ih =>
    rw [List.forall_mem_cons] at h
    rw [List.map_cons, List.map_cons, inspectPairs, inspectPairs, h.1, ih h.2]

end Value

def Schema.KeepsText (s : Schema) : Prop := s.bodiless.toValue.inspect = s.toValue.inspect

mutual

theorem OptionType.inspect_toValue_bodiless : (t : OptionType) →
    (∀ s ∈ t.schemas, s.KeepsText) → t.bodiless.toValue.inspect = t.toValue.inspect
  | .keywordListOf s, h | .nonEmptyKeywordListOf s, h | .mapOfKeys s, h => by
    have hs : s.bodiless.toValue.inspect = s.toValue.inspect := h s (by simp)
    simp only [bodiless, revise, toValue, TypeTag.data, Value.inspect, Value.inspectItems, hs]
  | .mapOf key value, h => by
    rw [schemas_mapOf, List.forall_mem_append] at h
    simp only [bodiless, revise, toValue, TypeTag.data, Value.inspect, Value.inspectItems,
      OptionType.inspect_toValue_bodiless key h.1, OptionType.inspect_toValue_bodiless value h.2]
  | .listOf t, h => by
    rw [schemas_listOf] at h
    simp only [bodiless, revise, toValue, TypeTag.data, Value.inspect, Value.inspectItems,
      OptionType.inspect_toValue_bodiless t h]
  | .union ts, h => by
    rw [schemas_union] at h
    simp only [bodiless, revise, toValue, TypeTag.data, Value.inspect, Value.inspectItems,
      OptionType.inspectItems_toValues_bodiless ts h]
  | .tupleOf ts, h => by
    rw [schemas_tupleOf] at h
    simp only [bodiless, revise, toValue, TypeTag.data, Value.inspect, Value.inspectItems,
      OptionType.inspectItems_toValues_bodiless ts h]
  | .oneOf (.values vs), _ => by
    simp only [bodiless, revise, toValue, TypeTag.data, Revision.choices_bodiless, Choices.bodiless,
      Choices.toValue, Value.inspect, Value.inspectItems,
      ← Value.bodilessItems_eq_map, Value.inspectItems_bodiless]
  | .oneOf (.range _ _ _), _ => by
    simp only [bodiless, revise, Revision.choices_bodiless, Choices.bodiless]
  | .custom f args, _ => by
    simp only [bodiless, revise, toValue, TypeTag.data, Value.inspect, Value.inspectItems,
      Revision.value_bodiless, ← Value.bodilessItems_eq_map, Value.inspectItems_bodiless]
    rfl
  | .basic _, _ | .function _, _ | .struct _, _ => by simp only [bodiless, revise]

theorem OptionType.inspectItems_toValues_bodiless : (ts : List OptionType) →
    (∀ s ∈ ts.flatMap OptionType.schemas, s.KeepsText) →
      Value.inspectItems (OptionType.toValues (OptionType.reviseAll .bodiless ts)) =
        Value.inspectItems (OptionType.toValues ts)
  | [], _ => by simp only [OptionType.reviseAll]
  | t :: rest, h => by
    rw [List.flatMap_cons, List.forall_mem_append] at h
    simp only [OptionType.reviseAll, OptionType.toValues, Value.inspectItems,
      OptionType.inspect_toValue_bodiless t h.1, OptionType.inspectItems_toValues_bodiless rest h.2]

end

theorem OptionSpec.inspect_toValue_bodiless (spec : OptionSpec)
    (h : ∀ s ∈ spec.schemas, s.KeepsText) :
    spec.bodiless.toValue.inspect = spec.toValue.inspect := by
  have hfields := spec.sameFields_bodiless (r := fun _ v w => v.inspect = w.inspect)
    (spec.type.inspect_toValue_bodiless fun s hs => h s (mem_schemas.2 (.inr hs))).symm
    (fun v => v.inspect_bodiless.symm) (fun s hs => (h s (mem_schemas.2 (.inl hs))).symm)
    fun _ _ _ _ => rfl
  rw [toValue_eq, toValue_eq, Value.inspect, Value.inspect, Value.inspectFields_congr hfields]

theorem Schema.keepsText (s : Schema) : s.KeepsText := by
  induction s using inside_induction with
  | deferred d =>
    unfold KeepsText
    rw [bodiless, revise]
  | entries es ih =>
    have hspec : ∀ e ∈ es, e.bodiless.spec.toValue.inspect = e.spec.toValue.inspect := by
      intro e he
      rw [Entry.spec_revise, OptionSpec.inspect_toValue_bodiless _ (ih e he)]
    unfold KeepsText
    rw [bodiless, revise_entries, toValue, toValue, Entry.toValues_eq, Entry.toValues_eq]
    unfold Entry.collect
    simp only [List.any_map, Function.comp_def, Entry.key_revise, List.map_map]
    split
    · rw [Value.inspect, Value.inspect, Value.inspectPairs_map_congr hspec]
    · rw [Value.inspect, Value.inspect, Value.inspectFields_map_congr hspec]

end Conform
