import Mathlib.Logic.Relation
import Conform.Host
import Conform.Proofs.Schema.Declared

namespace Conform

namespace OptionType

/-- The container and the schema of its options, for a type whose values hold options. -/
def container? : OptionType → Option (BasicType × Schema)
  | .keywordListOf s => some (.keywordList, s)
  | .nonEmptyKeywordListOf s => some (.nonEmptyKeywordList, s)
  | .mapOfKeys s => some (.map, s)
  | _ => none

/-- The first type stands in the second one, outside of schemas. -/
inductive Part : OptionType → OptionType → Prop where
  | self {t} : Part t t
  | mapKey {u key value} : Part u key → Part u (.mapOf key value)
  | mapValue {u key value} : Part u value → Part u (.mapOf key value)
  | alternative {u t ts} : t ∈ ts → Part u t → Part u (.union ts)
  | listElement {u t} : Part u t → Part u (.listOf t)
  | tupleElement {u t ts} : t ∈ ts → Part u t → Part u (.tupleOf ts)

mutual

def parts : OptionType → List OptionType
  | .mapOf key value => .mapOf key value :: (parts key ++ parts value)
  | .union ts => .union ts :: partsAll ts
  | .listOf t => .listOf t :: parts t
  | .tupleOf ts => .tupleOf ts :: partsAll ts
  | t => [t]

def partsAll : List OptionType → List OptionType
  | [] => []
  | t :: rest => parts t ++ partsAll rest

end

theorem mem_parts_self (t : OptionType) : t ∈ t.parts := by
  cases t <;> simp [parts]

theorem partsAll_eq_flatMap (ts : List OptionType) : partsAll ts = ts.flatMap parts := by
  induction ts with
  | nil => rfl
  | cons t ts ih => rw [partsAll, ih, List.flatMap_cons]

theorem mem_partsAll {u t : OptionType} {ts : List OptionType} (ht : t ∈ ts) (hu : u ∈ t.parts) :
    u ∈ partsAll ts := by
  rw [partsAll_eq_flatMap]
  exact List.mem_flatMap.2 ⟨t, ht, hu⟩

theorem Part.mem_parts {u t : OptionType} (h : Part u t) : u ∈ t.parts := by
  induction h with
  | self => exact mem_parts_self _
  | mapKey _ ih | mapValue _ ih => simp [parts, ih]
  | alternative ht _ ih | tupleElement ht _ ih =>
    rw [parts]
    exact List.mem_cons_of_mem _ (mem_partsAll ht ih)
  | listElement _ ih => simp [parts, ih]

/-- Declaring keys changes the innermost type only. -/
theorem Part.of_withKeys {u t : OptionType} {keys : Schema} (h : Part u (t.withKeys keys)) :
    Part u t ∨ (∃ b, u.container? = some (b, keys)) ∨ ∃ element, u = .listOf element := by
  fun_induction withKeys keys t with
  | case1 | case2 | case3 | case4 =>
    cases h
    exact .inr (.inl ⟨_, rfl⟩)
  | case5 t ih =>
    cases h with
    | self => exact .inr (.inr ⟨_, rfl⟩)
    | listElement h =>
      rcases ih h with h | h
      · exact .inl (.listElement h)
      · exact .inr h
  | case6 => exact .inl h

end OptionType

namespace Schema

variable (host : Host)

/-- The entries that a schema stands for. -/
inductive Resolves : Schema → List Entry → Prop where
  | entries (es : List Entry) : Resolves (.entries es) es
  | deferred {d es} : Resolves (host.schemaOf d) es → Resolves (.deferred d) es

/-- A schema declares the options of some value that stands right below its own options. -/
inductive Contains : Schema → Schema → Prop where
  | type {s es e u b t} : Resolves host s es → e ∈ es → OptionType.Part u e.spec.type →
      u.container? = some (b, t) → Contains s t
  | keys {s es e t} : Resolves host s es → e ∈ es → e.spec.keys? = some t → Contains s t

/-- The second schema is a level of the first. -/
abbrev Within : Schema → Schema → Prop := Relation.ReflTransGen (Contains host)

/-- At every level the entries have one property, and all types that stand in them another. -/
def Everywhere (p : List Entry → Prop) (q : OptionType → Prop) (s : Schema) : Prop :=
  ∀ t es, Within host s t → Resolves host t es →
    p es ∧ ∀ e ∈ es, ∀ u, OptionType.Part u e.spec.type → q u

end Schema

def OptionType.Everywhere (host : Host) (p : List Entry → Prop) (q : OptionType → Prop)
    (t : OptionType) : Prop :=
  ∀ u, Part u t → q u ∧ ∀ b s, u.container? = some (b, s) → s.Everywhere host p q

variable {host : Host} {p : List Entry → Prop} {q : OptionType → Prop}

namespace Schema

theorem resolve?_entries (host : Host) (fuel : Nat) (es : List Entry) :
    (entries es).resolve? host fuel = some es := by
  cases fuel <;> rfl

theorem resolves_of_resolve? {fuel : Nat} {s : Schema} {es : List Entry}
    (h : s.resolve? host fuel = some es) : s.Resolves host es := by
  induction fuel generalizing s with
  | zero =>
    cases s with
    | entries ds =>
      cases h
      exact .entries _
    | deferred d => simp [resolve?] at h
  | succ fuel ih =>
    cases s with
    | entries ds =>
      cases h
      exact .entries _
    | deferred d => exact .deferred (ih h)

theorem Resolves.unique {s : Schema} {es es' : List Entry} (h : s.Resolves host es)
    (h' : s.Resolves host es') : es = es' := by
  induction h with
  | entries es =>
    cases h'
    rfl
  | deferred _ ih =>
    cases h' with
    | deferred h' => exact ih h'

/-- The schemas in the type that the value of an option has to have are contained: those in the
declared type, and the declared keys. -/
theorem Contains.of_effectiveType {s t : Schema} {es : List Entry} (hes : s.Resolves host es)
    {e : Entry} (he : e ∈ es) {u : OptionType} (hu : OptionType.Part u e.spec.effectiveType)
    {b : BasicType} (ht : u.container? = some (b, t)) : s.Contains host t := by
  unfold OptionSpec.effectiveType at hu
  split at hu
  next keys hkeys =>
    rcases hu.of_withKeys with hu | ⟨b', hb⟩ | ⟨element, rfl⟩
    · exact .type hes he hu ht
    · rw [hb] at ht
      cases ht
      exact .keys hes he hkeys
    · simp [OptionType.container?] at ht
  next => exact .type hes he hu ht

/-- A property that no step into a schema loses holds everywhere. -/
theorem Everywhere.of_invariant (invariant : Schema → Prop) {s : Schema} (hs : invariant s)
    (hstep : ∀ s t, invariant s → s.Contains host t → invariant t)
    (h : ∀ s es, invariant s → s.Resolves host es →
      p es ∧ ∀ e ∈ es, ∀ u, OptionType.Part u e.spec.type → q u) :
    s.Everywhere host p q := by
  intro t es hst hes
  refine h t es ?_ hes
  -- The induction is on the way from the schema to the level.
  clear hes
  induction hst with
  | refl => exact hs
  | tail _ hcontains ih => exact hstep _ _ ih hcontains

namespace Everywhere

variable {s : Schema} {es : List Entry}

theorem entries (h : s.Everywhere host p q) (hes : s.Resolves host es) : p es :=
  (h s es .refl hes).1

theorem mono {p' : List Entry → Prop} {q' : OptionType → Prop} (h : s.Everywhere host p q)
    (hp : ∀ es, p es → p' es) (hq : ∀ t, q t → q' t) : s.Everywhere host p' q' := by
  intro t es hst hes
  obtain ⟨hes, htypes⟩ := h t es hst hes
  exact ⟨hp es hes, fun e he u hu => hq u (htypes e he u hu)⟩

theorem within {t : Schema} (h : s.Everywhere host p q) (ht : s.Within host t) :
    t.Everywhere host p q :=
  fun u ds hu hds => h u ds (ht.trans hu) hds

theorem contained {t : Schema} (h : s.Everywhere host p q) (ht : s.Contains host t) :
    t.Everywhere host p q :=
  h.within (.single ht)

/-- The properties pass on to the type that the value of an option has to have. The types that
come in with declared keys are containers and lists. -/
theorem effectiveType (h : s.Everywhere host p q) (hes : s.Resolves host es) {e : Entry}
    (he : e ∈ es) (hcontainer : ∀ t b u, t.container? = some (b, u) → q t)
    (hlist : ∀ t, q (.listOf t)) : e.spec.effectiveType.Everywhere host p q := by
  intro u hu
  refine ⟨?_, fun b t ht => h.contained (.of_effectiveType hes he hu ht)⟩
  -- A part of the effective type is one of the declared type, or came in with the keys.
  have htype : ∀ w, OptionType.Part w e.spec.type → q w := (h s es .refl hes).2 e he
  unfold OptionSpec.effectiveType at hu
  split at hu
  next keys hkeys =>
    rcases hu.of_withKeys with hu | ⟨b, hb⟩ | ⟨t, rfl⟩
    · exact htype u hu
    · exact hcontainer u b keys hb
    · exact hlist t
  next => exact htype u hu

end Everywhere

end Schema

namespace OptionType.Everywhere

variable {t : OptionType}

theorem part {u : OptionType} (h : t.Everywhere host p q) (hu : ∀ w, Part w u → Part w t) :
    u.Everywhere host p q :=
  fun w hw => h w (hu w hw)

theorem self (h : t.Everywhere host p q) : q t := (h t .self).1

theorem container {b : BasicType} {s : Schema} (h : t.Everywhere host p q)
    (ht : t.container? = some (b, s)) : s.Everywhere host p q :=
  (h t .self).2 b s ht

end OptionType.Everywhere

end Conform
