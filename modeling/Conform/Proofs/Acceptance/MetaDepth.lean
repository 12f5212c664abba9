import Conform.Proofs.Acceptance.Depth
import Conform.Proofs.Acceptance.MetaAcceptance

namespace Conform

open Run

variable {host : Host} {fuel : Nat}

theorem Context.ends_mismatch (cx : Context) (label : Label) (v : Value) (expected : Expectation) :
    (cx.mismatch label v expected).Ends :=
  ends_reject _

theorem Context.ends_verdict (cx : Context) (validator : Function) (v returned : Value) :
    (cx.verdict validator v returned).Ends := by
  unfold verdict
  split
  · exact ends_pure _
  · exact ends_reject _
  · exact ends_fault _

namespace OptionSpec

variable {acceptance : Acceptance} {redact : Bool} {spec : OptionSpec} {key : Value}

theorem ends_acceptValue {v : Value}
    (h : ∀ label cx, (acceptance spec.effectiveType label v cx).Ends) :
    (spec.acceptValue acceptance redact key v).Ends := by
  rw [Ends, result_acceptValue]
  exact h _ _

theorem ends_settle {received : List Value} {v? : Option Value}
    (h : ∀ v, v?.or spec.default? = some v →
      ∀ label cx, (acceptance spec.effectiveType label v cx).Ends) :
    (spec.settle acceptance redact key received v?).Ends := by
  intro hexhausted
  rcases settle_eq_error.1 hexhausted with ⟨-, -, hf⟩ | ⟨-, v, hv, hf⟩
  · cases hf
  · exact ends_acceptValue (h v hv) hf

end OptionSpec

namespace Options

variable {acceptance : Acceptance} {redact : Bool}

theorem ends_settleAll {ps : List (Value × Value)} {declared : List (Value × OptionSpec)}
    (h : ∀ d ∈ declared, ∀ v, (Pairs.find? ps d.1).or d.2.default? = some v →
      ∀ label cx, (acceptance d.2.effectiveType label v cx).Ends) (received : List Value) :
    (settleAll acceptance redact ps received declared).Ends := by
  induction declared generalizing received with
  | nil => exact ends_pure _
  | cons d declared ih =>
    obtain ⟨key, spec⟩ := d
    have hrest := ih fun d hd => h d (List.mem_cons_of_mem _ hd)
    rw [settleAll]
    refine ends_bind.2 ⟨OptionSpec.ends_settle (h (key, spec) (by simp)), fun settled _ => ?_⟩
    cases settled with
    | none => exact hrest received
    | some v => exact ends_map.2 (hrest _)

theorem ends_accept {es : List Entry} (hes : Entry.Regular es) {o : Options}
    (h : ∀ d ∈ Entry.expand es (Pairs.keys o.pairs), ∀ v,
      (Pairs.find? o.pairs d.1).or d.2.default? = some v →
        ∀ label cx, (acceptance d.2.effectiveType label v cx).Ends) :
    (o.accept acceptance redact es).Ends := by
  by_cases hunknown : unknown es o = []
  · rw [accept_of_known hes hunknown, ends_map]
    exact ends_settleAll h _
  · rw [accept_of_unknown hunknown]
    exact ends_reject _

end Options

namespace OptionType

variable {label : Label} {v : Value} {cx : Context}

theorem ends_accept_basic (b : BasicType) :
    (accept host (fuel + 1) (.basic b) label v cx).Ends := by
  rw [accept_basic]
  split
  · exact ends_pure _
  · exact cx.ends_mismatch _ _ _

theorem ends_accept_oneOf (choices : Choices) :
    (accept host (fuel + 1) (.oneOf choices) label v cx).Ends := by
  rw [accept_oneOf]
  split
  · exact ends_pure _
  · exact cx.ends_mismatch _ _ _

theorem ends_accept_function (arity : Nat) :
    (accept host (fuel + 1) (.function arity) label v cx).Ends := by
  rw [accept_function]
  split
  · split
    · exact ends_pure _
    · exact ends_reject _
  · exact cx.ends_mismatch _ _ _

theorem ends_accept_container {t : OptionType} {b : BasicType} {s : Schema}
    (ht : t.container? = some (b, s))
    (h : ∀ w, w.depth = v.depth → ∀ redact, (s.accept host fuel w redact).Ends) :
    (accept host (fuel + 1) t label v cx).Ends := by
  rw [accept_container _ _ _ _ _ ht]
  split
  next w hw =>
    have hdepth : w.depth = v.depth := by
      rcases BasicType.eq_of_accept? hw with rfl | ⟨-, rfl, rfl⟩ <;> rfl
    exact ends_mapRejection.2 (h w hdepth _)
  next => exact cx.ends_mismatch _ _ _

theorem ends_accept_union {ts : List OptionType}
    (h : ∀ t ∈ ts, (accept host fuel t label v cx).Ends) :
    (accept host (fuel + 1) (.union ts) label v cx).Ends := by
  rw [accept_union]
  refine ends_bind.2 ⟨ends_firstAccepted h, fun outcome _ => ?_⟩
  cases outcome with
  | ok w => exact ends_pure _
  | error es => exact ends_reject _

theorem ends_accept_docText : (accept host (fuel + 2) .docText label v cx).Ends := by
  apply ends_accept_union
  intro t ht
  simp only [List.mem_cons, List.not_mem_nil, or_false] at ht
  rcases ht with rfl | rfl
  · exact ends_accept_basic _
  · exact ends_accept_oneOf _

theorem ends_read {nested : Value → ExceptT ReadError Run Schema} {v : Value}
    (h : ∀ s, s.depth < v.depth → (nested s).run.Ends) : (read nested v).run.Ends := by
  have hr := Congruence.of_run (r := fun _ x _ => x.Ends) (fun a => ends_pure a) fun hx hf =>
    ends_bind.2 ⟨hx, fun a _ => hf a⟩
  exact @Congruence.read _ _ _ _ _ _ _ nested nested hr v h

end OptionType

theorem Run.ends_judged {r : Run Value} (h : r.Ends) : r.judged.Ends := by
  refine ends_bind.2 ⟨ends_attempt.2 h, fun outcome _ => ?_⟩
  cases outcome with
  | ok n => exact ends_pure _
  | error e => exact ends_bind.2 ⟨ends_emit _, fun _ _ => ends_pure _⟩

namespace Schema

theorem ends_checkNested {judge : Value → Run (Option ValidationError)} {v : Value}
    (h : (judge v).Ends) : (checkNested judge v).run.Ends := by
  cases hv : v.isProducer with
  | true =>
    rw [checkNested_of_producer hv]
    exact ends_pure _
  | false =>
    rw [checkNested_of_data hv]
    exact ends_map.2 h

theorem accept_metaReference (handle : Nat) (v : Value) (redact : Bool) :
    (metaReference handle).accept host (fuel + 2) v redact =
      metaSchema.accept host (fuel + 2) v redact := by
  rw [accept_succ, accept_succ, metaReference, resolve?, Host.schemaOf]
  rw [metaSchema, resolve?_entries, resolve?_entries]

end Schema

theorem OptionType.ends_accept_typeCheck {label : Label} {v : Value} {cx : Context}
    (h : ∀ s : Value, s.depth ≤ v.depth → ∀ redact, (metaSchema.accept host fuel s redact).Ends) :
    (accept host (fuel + 2) (.custom typeCheck []) label v cx).Ends := by
  rw [accept_custom, Function.call_succ]
  refine ends_bind.2 ⟨ends_map.2 (ends_read fun s hs => ?_), fun returned _ => ?_⟩
  · exact Schema.ends_checkNested (ends_judged (h s (Nat.le_of_lt hs) false))
  · exact ends_bind.2 ⟨ends_emit _, fun _ _ => cx.ends_verdict _ _ _⟩

theorem OptionType.ends_accept_nestedSchema {label : Label} {v : Value} {cx : Context}
    (h : ∀ s : Value, s.depth ≤ v.depth → ∀ redact,
      (metaSchema.accept host (fuel + 2) s redact).Ends) :
    (accept host (fuel + 4) .nestedSchema label v cx).Ends := by
  apply ends_accept_union
  intro t ht
  simp only [List.mem_cons, List.not_mem_nil, or_false] at ht
  rcases ht with rfl | rfl | rfl
  · exact ends_accept_function _
  all_goals
    apply ends_accept_container rfl
    intro s hs redact
    rw [Schema.accept_metaReference]
    exact h s (Nat.le_of_eq hs) redact

namespace Schema

theorem ends_accept_of_entries {s : Schema} {es : List Entry} (hs : s.IsMeta)
    (hes : s.resolve? host fuel = some es) {v : Value} {redact : Bool}
    (h : ∀ e ∈ es, ∀ w : Value, w.depth < v.depth ∨ e.spec.default? = some w → ∀ label cx,
      (OptionType.accept host fuel e.spec.type label w cx).Ends) :
    (s.accept host (fuel + 1) v redact).Ends := by
  have hresolves := resolves_of_resolve? hes
  rw [accept_succ]
  split
  next => exact ends_reject _
  next o ho =>
    rw [hes]
    refine ends_bind.2 ⟨ends_pure _, fun es' hes' => ?_⟩
    cases hes'
    apply Options.ends_accept (hs.everywhere.entries hresolves)
    intro d hd w hw
    obtain ⟨e, he, hspec⟩ := Entry.spec_of_mem_expand (Pairs.pairwise_keys _) hd
    obtain ⟨-, hkeys, -⟩ := (hs.entries hresolves).2 e he
    rw [← hspec, OptionSpec.effectiveType, hkeys]
    refine h e he w ?_
    rcases Option.or_eq_some_iff.1 hw with hfind | ⟨-, hdefault⟩
    · obtain ⟨p, hp, rfl⟩ := Option.map_eq_some_iff.1 hfind
      exact .inl (Value.depth_lt_of_mem_options ho (List.mem_of_find?_eq_some hp))
    · rw [hspec]
      exact .inr hdefault

theorem ends_accept_specFields {v : Value} {redact : Bool}
    (h : ∀ s : Value, s.depth ≤ v.depth → ∀ redact,
      (metaSchema.accept host (fuel + 2) s redact).Ends) :
    (specFields.accept host (fuel + 5) v redact).Ends := by
  refine ends_accept_of_entries .fields (resolve?_entries _ _ _) fun e he w hw label cx => ?_
  have hpos := v.depth_pos
  simp only [List.mem_cons, List.not_mem_nil, or_false] at he
  rcases he with rfl | rfl | rfl | rfl | rfl | rfl | rfl | rfl | rfl | rfl
  · -- The default of the type is an atom, and no value is less deep than an atom.
    have hdepth : w.depth ≤ v.depth := by
      rcases hw with hw | hw
      · exact Nat.le_of_lt hw
      · cases hw
        exact hpos
    exact OptionType.ends_accept_typeCheck fun s hs => h s (Nat.le_trans hs hdepth)
  · exact OptionType.ends_accept_basic _
  · exact OptionType.ends_accept_basic _
  · rcases hw with hw | hw
    · exact OptionType.ends_accept_nestedSchema fun s hs => h s (by omega)
    · cases hw
  · exact OptionType.ends_accept_basic _
  · exact OptionType.ends_accept_basic _
  · exact OptionType.ends_accept_docText
  · exact OptionType.ends_accept_basic _
  · exact OptionType.ends_accept_docText
  · exact OptionType.ends_accept_basic _

/-- Acceptance by the schema of schemas ends within five steps for each level of the value. -/
theorem ends_accept_metaSchema {v : Value} {redact : Bool} (h : 5 * v.depth + 2 ≤ fuel) :
    (metaSchema.accept host fuel v redact).Ends := by
  induction fuel using Nat.strongRecOn generalizing v redact with
  | _ fuel ih =>
    -- Five steps lead to the schemas in the rules, which are nested less deep than the options.
    have hpos := v.depth_pos
    obtain ⟨n, rfl⟩ : ∃ n, fuel = n + 7 := ⟨fuel - 7, by omega⟩
    refine ends_accept_of_entries .root (resolve?_entries _ _ _) fun e he w hw label cx => ?_
    rw [List.mem_singleton] at he
    subst he
    rcases hw with hw | hw
    · apply OptionType.ends_accept_container rfl
      intro u hu redact
      apply ends_accept_specFields
      intro s hs redact
      exact ih (n + 2) (by omega) (by omega)
    · cases hw

end Schema

end Conform
