import Conform.Proofs.Acceptance.Conformance
import Conform.Proofs.Acceptance.Step
import Conform.Proofs.Schema.MetaLevels
import Conform.Proofs.Schema.RoundTrip

namespace Conform

open Run (Reads)

variable {host : Host}

def OptionType.Accepts (host : Host) (t : OptionType) (v : Value) : Prop :=
  ∃ fuel label cx n, (t.accept host fuel label v cx).result = .ok n

def Schema.Accepts (host : Host) (s : Schema) (v : Value) : Prop :=
  ∃ fuel redact n, (s.accept host fuel v redact).result = .ok n

theorem Schema.Accepts.present {s : Schema} {es : List Entry} {v : Value} {o : Options}
    (h : s.Accepts host v) (hes : s.Resolves host es) (hregular : Entry.Regular es)
    (ho : Options.ofValue? v = some o) {d : Value × OptionSpec}
    (hd : d ∈ Entry.expand es (Pairs.keys o.pairs)) {value : Value}
    (hvalue : Pairs.find? o.pairs d.1 = some value) : d.2.effectiveType.Accepts host value := by
  obtain ⟨fuel, redact, n, h⟩ := h
  cases fuel with
  | zero =>
    rw [accept_zero] at h
    cases h
  | succ fuel =>
    rw [accept_succ, ho] at h
    obtain ⟨es', hes', h⟩ := Run.bind_eq_ok.1 h
    cases (resolves_of_resolve? (Run.ofOption_eq_ok.1 hes')).unique hes
    obtain ⟨-, kvs, hsettled, -⟩ := (Options.accept_eq_ok hregular).1 h
    obtain ⟨w, -, hw⟩ := hsettled.accepts hd (v := value) (by rw [hvalue]; rfl)
    exact ⟨fuel, _, _, w, hw⟩

theorem OptionType.Accepts.container {t : OptionType} {b : BasicType} {s : Schema} {v : Value}
    (h : t.Accepts host v) (ht : t.container? = some (b, s)) :
    ∃ w, b.accept? v = some w ∧ s.Accepts host w := by
  obtain ⟨fuel, label, cx, n, h⟩ := h
  cases fuel with
  | zero =>
    rw [accept_zero] at h
    cases h
  | succ fuel =>
    rw [accept_container _ _ _ _ _ ht] at h
    split at h
    next w hw => exact ⟨w, hw, fuel, cx.redact, n, Run.mapRejection_eq_ok.1 h⟩
    next => cases h

theorem OptionType.Accepts.union {ts : List OptionType} {v : Value}
    (h : (union ts).Accepts host v) : ∃ t ∈ ts, t.Accepts host v := by
  obtain ⟨fuel, label, cx, n, h⟩ := h
  cases fuel with
  | zero =>
    rw [accept_zero] at h
    cases h
  | succ fuel =>
    rw [accept_union] at h
    obtain ⟨outcome, houtcome, h⟩ := Run.bind_eq_ok.1 h
    cases outcome with
    | ok accepted =>
      obtain ⟨t, ht, haccepted⟩ := Run.firstAccepted_eq_ok houtcome
      exact ⟨t, ht, fuel, label, cx, accepted, haccepted⟩
    | error es => cases h

theorem OptionType.Accepts.function {arity : Nat} {v : Value}
    (h : (function arity).Accepts host v) : ∃ f, f.arity = arity ∧ v = .function f := by
  obtain ⟨fuel, label, cx, n, h⟩ := h
  cases fuel with
  | zero =>
    rw [accept_zero] at h
    cases h
  | succ fuel =>
    rw [accept_function] at h
    split at h
    next f =>
      split at h
      next harity => exact ⟨f, harity, rfl⟩
      next => cases h
    next => cases h

theorem Schema.accepts_metaReference {handle : Nat} {v : Value}
    (h : (metaReference handle).Accepts host v) : metaSchema.Accepts host v := by
  obtain ⟨fuel, redact, n, h⟩ := h
  cases fuel with
  | zero =>
    rw [accept_zero] at h
    cases h
  | succ fuel =>
    rw [accept_succ] at h
    refine ⟨fuel + 1, redact, n, ?_⟩
    rw [accept_succ]
    cases ho : Options.ofValue? v with
    | none =>
      rw [ho] at h
      cases h
    | some o =>
      rw [ho] at h
      obtain ⟨es, hes, h⟩ := Run.bind_eq_ok.1 h
      have hresolves := resolves_metaReference (resolves_of_resolve? (Run.ofOption_eq_ok.1 hes))
      rw [resolves_metaSchema hresolves] at h
      dsimp only
      rw [metaSchema, resolve?_entries]
      exact h

theorem Run.judged_eq_none {r : Run Value} (h : r.judged.result = .ok none) :
    ∃ n, r.result = .ok n := by
  obtain ⟨outcome, hattempt, h⟩ := bind_eq_ok.1 h
  cases outcome with
  | error e =>
    obtain ⟨_, -, h⟩ := bind_eq_ok.1 h
    cases h
  | ok n => exact ⟨n, attempt_eq_ok.1 hattempt⟩

theorem Schema.isProducer_toValue (es : List Entry) : (entries es).toValue.isProducer = false := by
  rcases toValue_entries es with h | ⟨pairs, h, -⟩
  · rw [h]
    rfl
  · rw [h]
    rfl

theorem Schema.accept?_toValue {es : List Entry} {b : BasicType} {w : Value}
    (h : b.accept? (entries es).toValue = some w) : w = (entries es).toValue := by
  rcases BasicType.eq_of_accept? h with rfl | ⟨-, hlist, -⟩
  · rfl
  · rcases toValue_entries es with h | ⟨pairs, h, -⟩
    · rw [h] at hlist
      cases hlist
    · rw [h] at hlist
      cases hlist

namespace Entry

variable {es : List Entry}

theorem distinct_dataPairs (hd : DistinctKeys es)
    (hreserved : ∀ e ∈ es, e.key ≠ .atom SchemaKey.wildcardName) :
    Pairs.Distinct (dataPairs es) := by
  have hkeys : es.Pairwise fun d e => d.key ≠ e.key := List.pairwise_map.1 hd
  refine List.pairwise_map.2 (hkeys.imp_of_mem fun {d e} hd he hne => ?_)
  rw [Bool.eq_false_iff]
  intro hde
  exact hne (SchemaKey.toValue_inj (hreserved d hd) (hreserved e he)
    (SchemaKey.toValue_eq_of_beq hde))

theorem find?_dataPairs (h : Plain es) {e : Entry} (he : e ∈ es) :
    Pairs.find? (dataPairs es) e.key.toValue = some e.spec.toValue :=
  Pairs.find?_of_mem (distinct_dataPairs h.distinct h.unreserved) (List.mem_map_of_mem he)
    (Value.beq_self_iff.2 e.key.hasNaN_toValue)

end Entry

theorem Schema.Accepts.rules {es : List Entry} (hes : Entry.Plain es)
    (h : metaSchema.Accepts host (entries es).toValue) {e : Entry} (he : e ∈ es) :
    specFields.Accepts host e.spec.toValue := by
  obtain ⟨o, ho, hpairs⟩ := ofValue?_toValue es
  have heverywhere : metaSchema.Everywhere host Entry.Regular OptionType.ChecksTypes :=
    IsMeta.root.everywhere
  have hregular := heverywhere.entries (.entries _)
  have hkey : e.key.toValue ∈ Pairs.keys o.pairs := by
    rw [hpairs, Pairs.keys_of_distinct (Entry.distinct_dataPairs hes.distinct hes.unreserved)]
    exact List.mem_map_of_mem (List.mem_map_of_mem he)
  have hwildcard := Entry.find?_of_mem hregular.distinct (List.mem_singleton_self _)
  have hd := Entry.mem_expand_of_wildcard hwildcard hkey
    (by simp [Entry.explicit, SchemaKey.option?])
  have haccepts := h.present (.entries _) hregular ho hd
    (by rw [hpairs, Entry.find?_dataPairs hes he])
  obtain ⟨w, hw, haccepts⟩ := haccepts.container rfl
  rw [OptionSpec.toValue_eq] at hw ⊢
  cases hw
  exact haccepts

theorem OptionSpec.accepts_field {spec : OptionSpec}
    (h : Schema.specFields.Accepts host spec.toValue) {es : List Entry}
    (hes : Schema.specFields = .entries es) {name : String} {field : OptionSpec}
    (hfield : ⟨.atom name, field⟩ ∈ es) {v : Value} (hv : spec.fields.lookup name = some v) :
    field.effectiveType.Accepts host v := by
  have hresolves : Schema.specFields.Resolves host es := by
    rw [hes]
    exact .entries es
  have hregular := Schema.IsMeta.fields.everywhere.entries hresolves
  rw [toValue_eq] at h
  refine h.present hresolves hregular rfl (d := (.atom name, field))
    (Entry.mem_expand_of_explicit _ hfield rfl (Pairs.pairwise_keys _)) ?_
  rw [← hv, ← Pairs.find?_map_atom]

theorem Schema.Accepts.keys {spec : OptionSpec} (h : specFields.Accepts host spec.toValue)
    {s : Schema} (hs : s.Immediate host) (hkeys : spec.keys? = some s) :
    metaSchema.Accepts host s.toValue := by
  cases s with
  | deferred d => exact absurd hs Immediate.not_deferred
  | entries es =>
    have hlookup : spec.fields.lookup "keys" = some (entries es).toValue := by
      rw [OptionSpec.lookup_keys, hkeys]
      rfl
    have hnested : OptionType.nestedSchema.Accepts host (entries es).toValue :=
      OptionSpec.accepts_field h rfl (.tail _ (.tail _ (.tail _ (.head _)))) hlookup
    obtain ⟨t, ht, haccepts⟩ := hnested.union
    simp only [List.mem_cons, List.not_mem_nil, or_false] at ht
    rcases ht with rfl | rfl | rfl
    · -- The data form of entries is no function.
      obtain ⟨f, harity, hf⟩ := haccepts.function
      have := isProducer_toValue es
      rw [hf, Value.isProducer, harity] at this
      cases this
    · obtain ⟨w, hw, haccepts⟩ := haccepts.container rfl
      rw [accept?_toValue hw] at haccepts
      exact accepts_metaReference haccepts
    · obtain ⟨w, hw, haccepts⟩ := haccepts.container rfl
      rw [accept?_toValue hw] at haccepts
      exact accepts_metaReference haccepts

end Conform
