import Conform.Proofs.Schema.Levels

namespace Conform

-- Powers are those of the core library, also where more instances are in scope.
attribute [local instance (high)] instPowNat

/-- Entries whose keys differ, as values too, and whose defaults equal themselves. -/
structure Entry.Plain (es : List Entry) : Prop where
  distinct : DistinctKeys es
  unreserved : ∀ e ∈ es, e.key ≠ .atom SchemaKey.wildcardName
  comparable : ∀ e ∈ es, ∀ v, e.spec.default? = some v → v.hasNaN = false

/-- An arity that is an integer of 64 bits, and choices and arguments that equal themselves. -/
structure OptionType.Simple (t : OptionType) : Prop where
  arity : ∀ n, t = .function n → n ≤ 2 ^ (63 : Nat) - 1
  choices : ∀ vs, t = .oneOf (.values vs) → ∀ v ∈ vs, v.hasNaN = false
  arguments : ∀ f vs, t = .custom f vs → ∀ v ∈ vs, v.hasNaN = false

/-- A schema of which no level is deferred, with plain entries and simple types at every level. -/
structure Schema.Immediate (host : Host) (s : Schema) : Prop where
  everywhere : s.Everywhere host Entry.Plain OptionType.Simple
  produced : ∀ t, s.Within host t → t.isDeferred = false

def OptionType.Immediate (host : Host) (t : OptionType) : Prop :=
  ∀ u, Part u t → u.Simple ∧ ∀ b s, u.container? = some (b, s) → s.Immediate host

structure OptionSpec.Immediate (host : Host) (spec : OptionSpec) : Prop where
  type : spec.type.Immediate host
  keys : ∀ s, spec.keys? = some s → s.Immediate host

variable {host : Host}

namespace OptionType.Immediate

variable {t : OptionType}

theorem basic (b : BasicType) : (OptionType.basic b).Immediate host := by
  intro u hu
  cases hu
  exact ⟨⟨by simp, by simp, by simp⟩, by simp [container?]⟩

end OptionType.Immediate

namespace Schema.Immediate

variable {s t : Schema}

theorem contained (h : s.Immediate host) (ht : s.Contains host t) : t.Immediate host where
  everywhere := h.everywhere.contained ht
  produced u hu := h.produced u (.head ht hu)

theorem not_deferred {d : Deferred} : ¬(deferred d).Immediate host := by
  intro h
  have := h.produced _ .refl
  simp [isDeferred] at this

theorem plain {es : List Entry} (h : (entries es).Immediate host) : Entry.Plain es :=
  h.everywhere.entries (.entries es)

theorem spec {es : List Entry} (h : (entries es).Immediate host) {e : Entry} (he : e ∈ es) :
    e.spec.Immediate host where
  type u hu := by
    refine ⟨(h.everywhere _ _ .refl (.entries es)).2 e he u hu, fun b t ht => ?_⟩
    exact h.contained (.type (.entries es) he hu ht)
  keys t ht := h.contained (.keys (.entries es) he ht)

end Schema.Immediate

end Conform
