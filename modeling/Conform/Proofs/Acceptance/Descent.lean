import Conform.Proofs.Acceptance.Membership
import Conform.Proofs.Acceptance.Step
import Conform.Proofs.Value.Nesting

namespace Conform

namespace OptionType

/-- From the first type and the first value the way leads down to the second ones: to elements of
lists and tuples, and to keys and values of maps. If `unions` is the case, it also leads to the
alternatives of unions, which match the value of the union itself. -/
inductive Reaches (unions : Prop) : OptionType → Value → OptionType → Value → Prop where
  | here {t v} : Reaches unions t v t v
  | mapKey {key value pairs p u w} : p ∈ pairs → Reaches unions key p.1 u w →
      Reaches unions (.mapOf key value) (.map pairs) u w
  | mapValue {key value pairs p u w} : p ∈ pairs → Reaches unions value p.2 u w →
      Reaches unions (.mapOf key value) (.map pairs) u w
  | listElement {t v items item u w} : v.asList? = some items → item ∈ items →
      Reaches unions t item u w → Reaches unions (.listOf t) v u w
  | tupleElement {ts items p u w} : p ∈ ts.zip items → Reaches unions p.1 p.2 u w →
      Reaches unions (.tupleOf ts) (.tuple items) u w
  | alternative {t ts v u w} : unions → t ∈ ts → Reaches unions t v u w →
      Reaches unions (.union ts) v u w

/-- Inside a value of the type there is a container of options, which the schema declares. -/
def Holds (unions : Prop) (t : OptionType) (v : Value) (s : Schema) (item : Value) : Prop :=
  ∃ u b, Reaches unions t v u item ∧ u.container? = some (b, s) ∧ b.Member item

variable {unions : Prop} {t u : OptionType} {v w : Value}

theorem Reaches.part (h : Reaches unions t v u w) : Part u t := by
  induction h with
  | here => exact .self
  | mapKey _ _ ih => exact .mapKey ih
  | mapValue _ _ ih => exact .mapValue ih
  | listElement _ _ _ ih => exact .listElement ih
  | tupleElement hp _ ih => exact .tupleElement (List.of_mem_zip hp).1 ih
  | alternative _ ht _ ih => exact .alternative ht ih

theorem Holds.here {b : BasicType} {s : Schema} (ht : t.container? = some (b, s))
    (hv : b.Member v) : t.Holds unions v s v :=
  ⟨t, b, .here, ht, hv⟩

theorem Holds.of_reaches {s : Schema} {item : Value}
    (hreaches : ∀ {u' w'}, Reaches unions u w u' w' → Reaches unions t v u' w')
    (h : u.Holds unions w s item) : t.Holds unions v s item := by
  obtain ⟨u', b, hu', hcontainer, hmember⟩ := h
  exact ⟨u', b, hreaches hu', hcontainer, hmember⟩

end OptionType

theorem OptionType.Reaches.holds {unions : Prop} {t u : OptionType} {v w : Value}
    (h : Reaches unions t v u w) : v.Holds w := by
  induction h with
  | here => exact .refl
  | mapKey hp _ ih => exact .head (List.mem_append_left _ (List.mem_map_of_mem hp)) ih
  | mapValue hp _ ih => exact .head (List.mem_append_right _ (List.mem_map_of_mem hp)) ih
  | listElement hitems hitem _ ih => exact .head (Value.mem_children_of_asList? hitems hitem) ih
  | tupleElement hp _ ih => exact .head (List.of_mem_zip hp).2 ih
  | alternative _ _ _ ih => exact ih

theorem OptionType.isSome_ofValue? {t : OptionType} {b : BasicType} {s : Schema}
    (ht : t.container? = some (b, s)) {item options : Value} (h : b.accept? item = some options) :
    (Options.ofValue? options).isSome := by
  have hmember : b.Member item := BasicType.accept?_isSome.1 (by simp [h])
  rw [BasicType.ofValue?_of_accept? h]
  cases t with
  | keywordListOf s =>
    cases ht
    obtain rfl | ⟨pairs, rfl⟩ := hmember <;> rfl
  | nonEmptyKeywordListOf s =>
    cases ht
    obtain ⟨pair, pairs, rfl⟩ := hmember
    rfl
  | mapOfKeys s =>
    cases ht
    obtain ⟨pairs, rfl⟩ := hmember
    rfl
  | _ => cases ht

theorem OptionType.Holds.isSome_ofValue? {unions : Prop} {t : OptionType} {s : Schema}
    {v item : Value} (h : t.Holds unions v s item) : (Options.ofValue? item).isSome := by
  obtain ⟨u, b, -, hcontainer, hmember⟩ := h
  obtain ⟨options, hoptions⟩ := Option.isSome_iff_exists.1 (BasicType.accept?_isSome.2 hmember)
  rw [← BasicType.ofValue?_of_accept? hoptions]
  exact OptionType.isSome_ofValue? hcontainer hoptions

/-- The schemas that the value of an option is led to are contained in the schema of the option. -/
theorem Schema.Contains.of_holds {host : Host} {s t : Schema} {es : List Entry}
    (hes : s.Resolves host es) {e : Entry} (he : e ∈ es) {unions : Prop} {v item : Value}
    (h : e.spec.effectiveType.Holds unions v t item) : s.Contains host t := by
  obtain ⟨u, b, hreaches, hcontainer, -⟩ := h
  exact .of_effectiveType hes he hreaches.part hcontainer

theorem Schema.accept_congr {v w : Value} (hv : (Options.ofValue? v).isSome)
    (h : Options.ofValue? v = Options.ofValue? w) (host : Host) (fuel : Nat) (s : Schema)
    (redact : Bool) : s.accept host fuel v redact = s.accept host fuel w redact := by
  obtain ⟨o, ho⟩ := Option.isSome_iff_exists.1 hv
  cases fuel with
  | zero => rw [accept_zero, accept_zero]
  | succ fuel => rw [accept_succ, accept_succ, ← h, ho]

theorem OptionType.accept_options {t : OptionType} {b : BasicType} {s : Schema}
    (ht : t.container? = some (b, s)) {item options : Value} (h : b.accept? item = some options)
    (host : Host) (fuel : Nat) (redact : Bool) :
    s.accept host fuel options redact = s.accept host fuel item redact :=
  Schema.accept_congr (isSome_ofValue? ht h) (BasicType.ofValue?_of_accept? h) host fuel s redact

end Conform
