import Conform.Proofs.Schema.Immediate
import Conform.Proofs.Schema.Inside
import Conform.Schema.Equality

namespace Conform

def OptionType.Comparable : OptionType → Prop
  | .oneOf (.values vs) => ∀ v ∈ vs, v.hasNaN = false
  | .custom _ args => ∀ v ∈ args, v.hasNaN = false
  | _ => True

/-- A schema in which all values equal themselves, as far as it is written out. -/
inductive Schema.Comparable : Schema → Prop where
  | entries {es} : (∀ e ∈ es, ∀ v, e.spec.default? = some v → v.hasNaN = false) →
      (∀ e ∈ es, ∀ u, OptionType.Part u e.spec.type → u.Comparable) →
      (∀ e ∈ es, ∀ t ∈ e.spec.schemas, Comparable t) → Comparable (.entries es)
  | deferred (d : Deferred) : Comparable (.deferred d)

theorem OptionType.Simple.comparable {t : OptionType} (h : t.Simple) : t.Comparable := by
  cases t with
  | oneOf choices =>
    cases choices with
    | values vs => exact h.choices vs rfl
    | range low high spent => exact trivial
  | custom f args => exact h.arguments f args rfl
  | _ => exact trivial

theorem Schema.Immediate.comparable {host : Host} {s : Schema} (h : s.Immediate host) :
    s.Comparable := by
  induction s using inside_induction with
  | deferred d => exact .deferred d
  | entries es ih =>
    refine .entries h.plain.comparable (fun e he u hu => ?_) fun e he t ht => ih e he t ht ?_
    · exact ((h.spec he).type u hu).1.comparable
    · exact h.contained (contains_iff.2 ⟨es, .entries es, e, he, ht⟩)

theorem Value.beq_list_self {vs : List Value} (h : ∀ v ∈ vs, v.hasNaN = false) :
    (vs == vs) = true := by
  induction vs with
  | nil => rfl
  | cons v vs ih =>
    rw [List.cons_beq_cons, beq_self_iff.2 (h v (by simp)),
      ih fun w hw => h w (List.mem_cons_of_mem _ hw)]
    rfl

theorem Value.beq_option_self {v? : Option Value} (h : ∀ v, v? = some v → v.hasNaN = false) :
    (v? == v?) = true := by
  cases v? with
  | none => rfl
  | some v => exact beq_self_iff.2 (h v rfl)

end Conform
