import Mathlib.Logic.Relation
import Conform.Options
import Conform.Proofs.Pairs.Storage
import Conform.Proofs.Value.Nesting
import Conform.Schema.DataForm

namespace Conform

theorem BasicType.name_inj {b c : BasicType} : b.name = c.name ↔ b = c := by
  refine ⟨fun h => ?_, congrArg name⟩
  have hread := congrArg ofName? h
  simpa using hread

theorem TypeTag.name_inj {tag tag' : TypeTag} : tag.name = tag'.name ↔ tag = tag' := by
  refine ⟨fun h => ?_, congrArg name⟩
  have hread := congrArg ofName? h
  simpa using hread

@[simp] theorem TypeTag.data_inj {tag tag' : TypeTag} {items items' : List Value} :
    tag.data items = tag'.data items' ↔ tag = tag' ∧ items = items' := by
  simp [data, name_inj]

@[simp] theorem TypeTag.data_ne_atom {tag : TypeTag} {items : List Value} {name : String} :
    tag.data items ≠ .atom name := by
  simp [data]

namespace Grammar

/-- The data forms of types. The schemas in them are values with the property `schema`. -/
inductive IsType (schema : Value → Prop) : Value → Prop where
  | basic (b : BasicType) : IsType schema (.atom b.name)
  | function {n} : 0 ≤ n → IsType schema (TypeTag.function.data [.integer n])
  | oneOf (choices : Choices) : IsType schema (TypeTag.oneOf.data [choices.toValue])
  /-- A validator takes the value and the arguments. -/
  | custom {f args items} : args.asList? = some items → f.arity = items.length + 1 →
      IsType schema (TypeTag.custom.data [.function f, args])
  | union {items} : (∀ item ∈ items, IsType schema item) →
      IsType schema (TypeTag.union.data [.list items])
  | list {item} : IsType schema item → IsType schema (TypeTag.list.data [item])
  | tuple {items} : (∀ item ∈ items, IsType schema item) →
      IsType schema (TypeTag.tuple.data [.list items])
  | keywordList {s} : schema s → IsType schema (TypeTag.keywordList.data [s])
  | nonEmptyKeywordList {s} : schema s → IsType schema (TypeTag.nonEmptyKeywordList.data [s])
  | map {s} : schema s → IsType schema (TypeTag.map.data [s])
  | mapOf {key value} : IsType schema key → IsType schema value →
      IsType schema (TypeTag.map.data [key, value])
  | struct (name : String) : IsType schema (TypeTag.struct.data [.atom name])

/-- The value stands where the data form of a type has a schema. -/
inductive Inline (s : Value) : Value → Prop where
  | union {item items} : item ∈ items → Inline s item → Inline s (TypeTag.union.data [.list items])
  | list {item} : Inline s item → Inline s (TypeTag.list.data [item])
  | tuple {item items} : item ∈ items → Inline s item → Inline s (TypeTag.tuple.data [.list items])
  | keywordList : Inline s (TypeTag.keywordList.data [s])
  | nonEmptyKeywordList : Inline s (TypeTag.nonEmptyKeywordList.data [s])
  | map : Inline s (TypeTag.map.data [s])
  | mapKey {key value} : Inline s key → Inline s (TypeTag.map.data [key, value])
  | mapValue {key value} : Inline s value → Inline s (TypeTag.map.data [key, value])

inductive TakesKeys : Value → Prop where
  | basic {b : BasicType} : b ∈ [.any, .keywordList, .nonEmptyKeywordList, .map] →
      TakesKeys (.atom b.name)
  | list {item} : TakesKeys item → TakesKeys (TypeTag.list.data [item])

inductive IsField (schema : Value → Prop) : String → Value → Prop where
  | type {t} : IsType schema t → IsField schema "type" t
  | required (b : Bool) : IsField schema "required" (.bool b)
  | default (v : Value) : IsField schema "default" v
  | keys {s} : schema s → IsField schema "keys" s
  | deprecated (text : String) : IsField schema "deprecated" (.string text)
  | renameTo (target : String) : IsField schema "rename_to" (.atom target)
  | doc (d : Doc) : IsField schema "doc" d.toValue
  | subsection (text : String) : IsField schema "subsection" (.string text)
  | typeDoc (d : Doc) : IsField schema "type_doc" d.toValue
  | redact (b : Bool) : IsField schema "redact" (.bool b)

inductive InField (s : Value) : String → Value → Prop where
  | type {t} : Inline s t → InField s "type" t
  | keys : InField s "keys" s

/-- The fields of a keyword list. The empty list is one without fields. -/
def fields? : Value → Option (List (String × Value))
  | .keyword fields => some fields
  | .list [] => some []
  | _ => none

inductive IsRules (schema : Value → Prop) : Value → Prop where
  | intro {fields v} : fields? v = some fields → (∀ f ∈ fields, IsField schema f.1 f.2) →
      IsRules schema v

/-- Which of the pairs of a level, and which of the fields of rules, are looked at. -/
structure Selection where
  pairs : List (Value × Value) → List (Value × Value)
  fields : List (String × Value) → List (String × Value)

def Selection.all : Selection := ⟨id, id⟩

def Selection.firsts : Selection := ⟨Pairs.firsts, Pairs.firsts⟩

/-- The data forms of rules, as far as their selected fields go. -/
inductive RulesBy (sel : Selection) (schema : Value → Prop) : Value → Prop where
  | intro {fields v} : fields? v = some fields →
      (∀ f ∈ sel.fields fields, IsField schema f.1 f.2) → RulesBy sel schema v

def KeysPlaced (rules : Value) : Prop :=
  ∀ fields, fields? rules = some fields → ∀ keys, ("keys", keys) ∈ fields →
    ∀ t, ("type", t) ∈ fields → TakesKeys t

/-- A renamed option has its new key, which is not that of the wildcard, declared later. -/
def TargetPlaced (rules : Value) (later : List (Value × Value)) : Prop :=
  ∀ fields, fields? rules = some fields → ∀ target, ("rename_to", .atom target) ∈ fields →
    target ≠ SchemaKey.wildcardName ∧ ∃ p ∈ later, p.1 = .atom target

/-- One level of the data form of a schema: its keys are atoms and strings, with the rules of
options under them. -/
inductive IsLevel (schema : Value → Prop) : Value → Prop where
  | intro {o v} : Options.ofValue? v = some o →
      (∀ p ∈ o.pairs, (∃ name, p.1 = .atom name) ∨ ∃ name, p.1 = .string name) →
      (∀ p ∈ o.pairs, IsRules schema p.2) →
      (∀ p ∈ o.pairs, KeysPlaced p.2) →
      (∀ before p later, o.pairs = before ++ p :: later → TargetPlaced p.2 later) →
      IsLevel schema v

inductive IsSchema : Value → Prop where
  | intro {v} : IsLevel IsSchema v → IsSchema v

/-- The second value stands where the first one has a schema. -/
inductive Nests (v w : Value) : Prop where
  | intro {o p fields f} : Options.ofValue? v = some o → p ∈ o.pairs → fields? p.2 = some fields →
      f ∈ fields → InField w f.1 f.2 → Nests v w

/-- No key stands twice at one level, and no field twice in the rules of an option. -/
structure DistinctLevel (v : Value) : Prop where
  keys : ∀ o, Options.ofValue? v = some o → Pairs.Distinct o.pairs
  fields : ∀ o, Options.ofValue? v = some o → ∀ p ∈ o.pairs, ∀ fields, fields? p.2 = some fields →
    (fields.map Prod.fst).Nodup

/-- Nothing stands twice at any level. -/
def Distinct (v : Value) : Prop :=
  ∀ w, Relation.ReflTransGen Nests v w → DistinctLevel w

variable {p q : Value → Prop} {s v : Value}

theorem IsType.mono (h : IsType p v) (hpq : ∀ s, Inline s v → p s → q s) : IsType q v := by
  induction h with
  | basic b => exact .basic b
  | function hn => exact .function hn
  | oneOf choices => exact .oneOf choices
  | custom hargs harity => exact .custom hargs harity
  | union _ ih => exact .union fun item hitem => ih item hitem fun s hs => hpq s (.union hitem hs)
  | list _ ih => exact .list (ih fun s hs => hpq s (.list hs))
  | tuple _ ih => exact .tuple fun item hitem => ih item hitem fun s hs => hpq s (.tuple hitem hs)
  | keywordList hs => exact .keywordList (hpq _ .keywordList hs)
  | nonEmptyKeywordList hs => exact .nonEmptyKeywordList (hpq _ .nonEmptyKeywordList hs)
  | map hs => exact .map (hpq _ .map hs)
  | mapOf _ _ ihkey ihvalue =>
    refine .mapOf (ihkey fun s hs => ?_) (ihvalue fun s hs => ?_)
    · exact hpq s (.mapKey hs)
    · exact hpq s (.mapValue hs)
  | struct name => exact .struct name

theorem IsType.inline (h : IsType p v) (hs : Inline s v) : p s := by
  induction hs with
  | union hitem _ ih | tuple hitem _ ih =>
    generalize hv : TypeTag.data _ _ = v at h
    cases h <;> grind [TypeTag.data_inj, TypeTag.data_ne_atom]
  | list _ ih | mapKey _ ih | mapValue _ ih =>
    generalize hv : TypeTag.data _ _ = v at h
    cases h <;> simp_all
  | keywordList | nonEmptyKeywordList | map =>
    generalize hv : TypeTag.data _ _ = v at h
    cases h <;> simp_all

theorem Inline.depth_lt (h : Inline s v) : s.depth < v.depth := by
  induction h with
  | union hitem _ ih | tuple hitem _ ih =>
    have := Value.depth_le_depthItems hitem
    simp only [TypeTag.data, Value.depth, Value.depthItems]
    omega
  | _ =>
    simp only [TypeTag.data, Value.depth, Value.depthItems]
    omega

theorem IsField.mono {name : String} (h : IsField p name v)
    (hpq : ∀ s, InField s name v → p s → q s) : IsField q name v := by
  cases h with
  | type ht => exact .type (ht.mono fun s hs => hpq s (.type hs))
  | required b => exact .required b
  | default => exact .default v
  | keys hs => exact .keys (hpq v .keys hs)
  | deprecated text => exact .deprecated text
  | renameTo target => exact .renameTo target
  | doc d => exact .doc d
  | subsection text => exact .subsection text
  | typeDoc d => exact .typeDoc d
  | redact b => exact .redact b

theorem IsLevel.mono (h : IsLevel p v) (hpq : ∀ w, Nests v w → p w → q w) : IsLevel q v := by
  obtain ⟨ho, hkeys, hrules, hplaced, htargets⟩ := h
  refine .intro ho hkeys (fun r hr => ?_) hplaced htargets
  obtain ⟨hfields, h⟩ := hrules r hr
  exact .intro hfields fun f hf => (h f hf).mono fun s hs => hpq s (.intro ho hr hfields hf hs)

theorem rulesBy_firsts (hd : ∀ fields, fields? v = some fields → (fields.map Prod.fst).Nodup) :
    RulesBy .firsts p v ↔ IsRules p v := by
  have hfirsts : ∀ fields, fields? v = some fields → Selection.firsts.fields fields = fields := by
    intro fields hfields
    refine Pairs.firsts_of_distinct ((List.pairwise_map.1 (hd fields hfields)).imp ?_)
    exact fun hne => beq_false_of_ne hne
  constructor
  · rintro ⟨hfields, h⟩
    rw [hfirsts _ hfields] at h
    exact .intro hfields h
  · rintro ⟨hfields, h⟩
    rw [← hfirsts _ hfields] at h
    exact .intro hfields h

theorem isSchema_iff : IsSchema v ↔ IsLevel IsSchema v := by
  constructor
  · rintro ⟨h⟩
    exact h
  · exact .intro

theorem depth_lt_of_mem_fields {fields : List (String × Value)} {f : String × Value}
    (h : fields? v = some fields) (hf : f ∈ fields) : f.2.depth < v.depth := by
  unfold fields? at h
  split at h
  · cases h
    exact Nat.lt_succ_of_le (Value.depth_le_depthFields hf)
  · cases h
    simp at hf
  · cases h

theorem InField.depth_le {name : String} (h : InField s name v) : s.depth ≤ v.depth := by
  cases h with
  | type hs => exact Nat.le_of_lt hs.depth_lt
  | keys => exact Nat.le_refl _

theorem Nests.depth_lt {w : Value} (h : Nests v w) : w.depth < v.depth := by
  obtain ⟨ho, hp, hfields, hf, hw⟩ := h
  calc
    w.depth ≤ _ := hw.depth_le
    _ < _ := depth_lt_of_mem_fields hfields hf
    _ < v.depth := Value.depth_lt_of_mem_options ho hp

theorem Distinct.level (h : Distinct v) : DistinctLevel v := h v .refl

theorem Distinct.nested {w : Value} (h : Distinct v) (hw : Nests v w) : Distinct w :=
  fun u hu => h u (.head hw hu)

end Grammar

end Conform
