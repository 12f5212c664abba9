import Conform.Proofs.Acceptance.Conformance
import Conform.Proofs.Acceptance.Step

namespace Conform

def Options.firsts (o : Options) : List (Value × Value) := Pairs.firsts o.pairs

/-- The options to consider, if the pairs that count are `ps`: those declared with a key of their
own, in order, and under the wildcard the keys of `ps` that are not. -/
def Entry.considered (es : List Entry) (ps : List (Value × Value)) : List (Value × OptionSpec) :=
  explicit es ++
    match find? es .wildcard with
    | none => []
    | some spec => (undeclared es (ps.map Prod.fst)).map (·, spec)

namespace OptionSpec

def verdict (acceptance : Acceptance) (redact : Bool) (spec : OptionSpec) (key v : Value) :
    Except Failure Value :=
  (acceptance spec.effectiveType (.option key) v ⟨key, redact || spec.redact⟩).result

/-- How an option alone fails: it is absent and required, or its value is not accepted. The value
of an absent option is its default. -/
inductive Fails (acceptance : Acceptance) (redact : Bool) (ps : List (Value × Value))
    (received : List Value) (d : Value × OptionSpec) : Failure → Prop where
  | missing : Pairs.find? ps d.1 = none → d.2.required = true →
      Fails acceptance redact ps received d
        (.invalid { key := .single d.1, reason := .missingOption d.1 received })
  | rejected {v f} : (Pairs.find? ps d.1 = none → d.2.required = false) →
      (Pairs.find? ps d.1).or d.2.default? = some v →
      d.2.verdict acceptance redact d.1 v = .error f → Fails acceptance redact ps received d f

variable {acceptance : Acceptance} {redact : Bool} {ps : List (Value × Value)}
variable {received : List Value} {d : Value × OptionSpec} {f : Failure}

theorem fails_iff : Fails acceptance redact ps received d f ↔
    (d.2.settle acceptance redact d.1 received (Pairs.find? ps d.1)).result = .error f := by
  rw [settle_eq_error]
  simp only [result_acceptValue]
  constructor
  · intro h
    cases h with
    | missing hfind hrequired => exact .inl ⟨hfind, hrequired, rfl⟩
    | rejected hpresent hv hf => exact .inr ⟨hpresent, _, hv, hf⟩
  · rintro (⟨hfind, hrequired, rfl⟩ | ⟨hpresent, v, hv, hf⟩)
    · exact .missing hfind hrequired
    · exact .rejected hpresent hv hf

theorem exists_settle_of_not_fails (h : ∀ received f, ¬Fails acceptance redact ps received d f)
    (received : List Value) :
    ∃ w?, (d.2.settle acceptance redact d.1 received (Pairs.find? ps d.1)).result = .ok w? := by
  cases hresult : (d.2.settle acceptance redact d.1 received (Pairs.find? ps d.1)).result with
  | ok w? => exact ⟨w?, rfl⟩
  | error f => exact absurd (fails_iff.2 hresult) (h received f)

end OptionSpec

def Options.fillable (es : List Entry) (o : Options) : List (Value × OptionSpec) :=
  (Entry.explicit es).filter fun d => (Pairs.find? o.firsts d.1).isNone && d.2.default?.isSome

/-- How a container is accepted, option by option. -/
structure Options.Pointwise (acceptance : Acceptance) (redact : Bool) (es : List Entry)
    (o : Options) (result : Except Failure Value) : Prop where
  /-- Without a wildcard, undeclared keys count before all else. -/
  undeclared : Entry.find? es .wildcard = none →
    Entry.undeclared es (o.firsts.map Prod.fst) ≠ [] →
    result = .error (.invalid {
      key := .unknown (Entry.undeclared es (o.firsts.map Prod.fst))
      reason := .unknownOptions (Entry.undeclared es (o.firsts.map Prod.fst))
        ((Entry.explicit es).map Prod.fst) })
  /-- Then the first option that fails counts. The options received are those that count and the
  ones filled in before. -/
  failure : Entry.find? es .wildcard ≠ none ∨ Entry.undeclared es (o.firsts.map Prod.fst) = [] →
    ∀ before d after f, Entry.considered es o.firsts = before ++ d :: after →
      (∀ b ∈ before, ∀ received f, ¬OptionSpec.Fails acceptance redact o.firsts received b f) →
      OptionSpec.Fails acceptance redact o.firsts
        (o.firsts.map Prod.fst ++ Options.defaulted o.firsts before) d f →
      result = .error f
  /-- If none fails, the pairs that count take what the matcher makes of their values, and the
  defaults of absent options follow. -/
  success : Entry.find? es .wildcard ≠ none ∨ Entry.undeclared es (o.firsts.map Prod.fst) = [] →
    (∀ d ∈ Entry.considered es o.firsts, ∀ received f,
      ¬OptionSpec.Fails acceptance redact o.firsts received d f) →
    ∃ kept filled, result = .ok ({ o with pairs := kept ++ filled } : Options).toValue ∧
      List.Forall₂ (fun p p' => p'.1 = p.1 ∧ ∃ spec, (p.1, spec) ∈ Entry.considered es o.firsts ∧
        spec.verdict acceptance redact p.1 p.2 = .ok p'.2) o.firsts kept ∧
      List.Forall₂ (fun d p => p.1 = d.1 ∧ ∃ v, d.2.default? = some v ∧
        d.2.verdict acceptance redact d.1 v = .ok p.2) (Options.fillable es o) filled

namespace Options

variable {acceptance : Acceptance} {redact : Bool} {es : List Entry} {o : Options}

theorem keys_eq (o : Options) : Pairs.keys o.pairs = o.firsts.map Prod.fst :=
  Pairs.keys_eq_map_firsts o.pairs

theorem find?_firsts (o : Options) (key : Value) :
    Pairs.find? o.firsts key = Pairs.find? o.pairs key :=
  Pairs.find?_firsts o.pairs key

theorem expand_eq_considered (es : List Entry) (o : Options) :
    Entry.expand es (Pairs.keys o.pairs) = Entry.considered es o.firsts := by
  rw [Entry.expand_eq (Pairs.pairwise_keys _), keys_eq]
  rfl

theorem unknown_of_no_wildcard (h : Entry.find? es .wildcard = none) :
    unknown es o = Entry.undeclared es (o.firsts.map Prod.fst) := by
  unfold unknown Entry.undeclared
  rw [expand_eq_considered, keys_eq, Entry.considered, h, List.append_nil]

theorem unknown_eq_nil (hnan : ∀ p ∈ o.pairs, p.1.hasNaN = false)
    (h : Entry.find? es .wildcard ≠ none ∨ Entry.undeclared es (o.firsts.map Prod.fst) = []) :
    unknown es o = [] := by
  cases hwildcard : Entry.find? es .wildcard with
  | none =>
    rw [unknown_of_no_wildcard hwildcard]
    exact h.resolve_left fun hne => hne hwildcard
  | some spec =>
    obtain ⟨e, he, hkey, -⟩ := Entry.mem_of_find? hwildcard
    exact unknown_eq_nil_iff.2 fun p hp => ⟨hnan p hp, e, he, .inr hkey⟩

theorem exists_of_settleAll_eq_error {ps : List (Value × Value)}
    {declared : List (Value × OptionSpec)} {received : List Value} {f : Failure}
    (h : (settleAll acceptance redact ps received declared).result = .error f) :
    ∃ d ∈ declared, ∃ received,
      (d.2.settle acceptance redact d.1 received (Pairs.find? ps d.1)).result = .error f := by
  induction declared generalizing received with
  | nil => cases h
  | cons d declared ih =>
    rw [settleAll] at h
    rcases Run.bind_eq_error.1 h with h | ⟨w?, -, h⟩
    · exact ⟨d, by simp, received, h⟩
    · have hrest : ∃ received,
          (settleAll acceptance redact ps received declared).result = .error f := by
        cases w? with
        | none => exact ⟨_, h⟩
        | some w => exact ⟨_, Run.map_eq_error.1 h⟩
      obtain ⟨received, hrest⟩ := hrest
      obtain ⟨d', hd', h⟩ := ih hrest
      exact ⟨d', List.mem_cons_of_mem _ hd', h⟩

theorem accept_of_undeclared (hwildcard : Entry.find? es .wildcard = none)
    (h : Entry.undeclared es (o.firsts.map Prod.fst) ≠ []) :
    o.accept acceptance redact es =
      .reject { key := .unknown (Entry.undeclared es (o.firsts.map Prod.fst)),
                reason := .unknownOptions (Entry.undeclared es (o.firsts.map Prod.fst))
                  ((Entry.explicit es).map Prod.fst) } := by
  have hunknown := unknown_of_no_wildcard (o := o) hwildcard
  rw [accept_of_unknown (by rwa [hunknown]), hunknown, expand_eq_considered, Entry.considered,
    hwildcard, List.append_nil]

theorem accept_of_fails (hes : Entry.Regular es) (hknown : unknown es o = [])
    {before after : List (Value × OptionSpec)} {d : Value × OptionSpec} {f : Failure}
    (hsplit : Entry.considered es o.firsts = before ++ d :: after)
    (hbefore : ∀ b ∈ before, ∀ received f,
      ¬OptionSpec.Fails acceptance redact o.firsts received b f)
    (hd : OptionSpec.Fails acceptance redact o.firsts
      (o.firsts.map Prod.fst ++ defaulted o.firsts before) d f) :
    (o.accept acceptance redact es).result = .error f := by
  rw [accept_of_known hes hknown, Run.map_eq_error, expand_eq_considered, hsplit, keys_eq]
  have hfind : ∀ ds, defaulted o.pairs ds = defaulted o.firsts ds := by
    intro ds
    simp only [defaulted, find?_firsts]
  refine settleAll_eq_error (fun b hb => ?_) ?_
  · rw [← find?_firsts]
    exact OptionSpec.exists_settle_of_not_fails (hbefore b hb) _
  · rw [← find?_firsts, hfind]
    exact OptionSpec.fails_iff.1 hd

/-- Nothing is filled in under a wildcard, as it covers only what is there. -/
theorem filter_considered (hnan : ∀ p ∈ o.pairs, p.1.hasNaN = false) :
    ((Entry.considered es o.firsts).filter fun d =>
      (Pairs.find? o.firsts d.1).isNone && d.2.default?.isSome) = fillable es o := by
  unfold Entry.considered
  rw [List.filter_append]
  refine (congrArg _ (List.filter_eq_nil_iff.2 fun d hd => ?_)).trans (List.append_nil _)
  split at hd
  · simp at hd
  · obtain ⟨key, hkey, rfl⟩ := List.mem_map.1 hd
    obtain ⟨p, hp, rfl⟩ := List.mem_map.1 (List.mem_filter.1 hkey).1
    have hself := Value.beq_self_iff.2 (hnan p (Pairs.mem_of_mem_firsts hp))
    have hsome : (Pairs.find? o.firsts p.1).isSome := Pairs.isSome_find?.2 ⟨p, hp, hself⟩
    simp [Option.isNone_eq_false_iff.2 hsome]

theorem forall₂_filterMap {α β : Type} {r : α → β → Prop} {f : α → Option β} {as : List α}
    (h : ∀ a ∈ as, ∃ b, f a = some b ∧ r a b) : List.Forall₂ r as (as.filterMap f) := by
  induction as with
  | nil => exact .nil
  | cons a as ih =>
    obtain ⟨b, hb, hr⟩ := h a (by simp)
    rw [List.filterMap_cons, hb]
    exact .cons hr (ih fun a' ha' => h a' (List.mem_cons_of_mem _ ha'))

namespace Settled

variable {kvs : List (Value × Value)}

theorem verdict (h : Settled acceptance redact es o kvs) {d : Value × OptionSpec}
    (hd : d ∈ Entry.considered es o.firsts) {v : Value}
    (hv : (Pairs.find? o.firsts d.1).or d.2.default? = some v) :
    ∃ w, Pairs.find? kvs d.1 = some w ∧ d.2.verdict acceptance redact d.1 v = .ok w := by
  rw [← expand_eq_considered] at hd
  rw [find?_firsts] at hv
  exact h.accepts hd hv

theorem updated_verdicts (h : Settled acceptance redact es o kvs) (hknown : unknown es o = []) :
    List.Forall₂ (fun p p' => p'.1 = p.1 ∧ ∃ spec, (p.1, spec) ∈ Entry.considered es o.firsts ∧
      spec.verdict acceptance redact p.1 p.2 = .ok p'.2) o.firsts (Pairs.updated kvs o.pairs) := by
  apply forall₂_filterMap
  intro p hp
  have hknows := unknown_eq_nil_iff.1 hknown p (Pairs.mem_of_mem_firsts hp)
  have hkey : p.1 ∈ Pairs.keys o.pairs := by
    rw [keys_eq]
    exact List.mem_map_of_mem hp
  obtain ⟨spec, hmem⟩ := Entry.exists_mem_expand hkey hknows
  rw [expand_eq_considered] at hmem
  have hfind : Pairs.find? o.firsts p.1 = some p.2 :=
    Pairs.find?_of_mem (Pairs.distinct_firsts _) hp (Value.beq_self_iff.2 hknows.1)
  obtain ⟨w, hw, hverdict⟩ := h.verdict hmem (by rw [hfind]; rfl)
  exact ⟨(p.1, w), by rw [hw]; rfl, rfl, spec, hmem, hverdict⟩

theorem added_verdicts (h : Settled acceptance redact es o kvs)
    (hnan : ∀ p ∈ o.pairs, p.1.hasNaN = false) :
    List.Forall₂ (fun d p => p.1 = d.1 ∧ ∃ v, d.2.default? = some v ∧
      d.2.verdict acceptance redact d.1 v = .ok p.2) (fillable es o) (Pairs.added kvs o.pairs) := by
  have hadded : Pairs.added kvs o.pairs =
      (fillable es o).filterMap fun d => (Pairs.find? kvs d.1).map (d.1, ·) := by
    refine (congrArg (List.filter _) h.values).trans ?_
    rw [List.filter_filterMap, expand_eq_considered, ← filter_considered hnan,
      List.filterMap_filter]
    apply List.filterMap_congr
    intro d hd
    rw [← expand_eq_considered] at hd
    obtain ⟨-, hrel⟩ := OptionSpec.settle_eq_ok.1 (h.settles d hd)
    rw [find?_firsts]
    generalize Pairs.find? kvs d.1 = w? at hrel
    cases hfind : Pairs.find? o.pairs d.1 with
    | some v => cases w? <;> simp [hfind]
    | none =>
      rw [hfind] at hrel
      generalize d.2.default? = default? at hrel
      cases hrel <;> simp [hfind]
  rw [hadded]
  apply forall₂_filterMap
  intro d hd
  rw [← filter_considered hnan] at hd
  obtain ⟨hmem, hfill⟩ := List.mem_filter.1 hd
  simp only [Bool.and_eq_true, Option.isNone_iff_eq_none, Option.isSome_iff_exists] at hfill
  obtain ⟨habsent, v, hv⟩ := hfill
  obtain ⟨w, hw, hverdict⟩ := h.verdict hmem (by rw [habsent, hv]; rfl)
  exact ⟨(d.1, w), by rw [hw]; rfl, rfl, v, hv, hverdict⟩

end Settled

theorem pointwise_accept (hes : Entry.Regular es) (hnan : ∀ p ∈ o.pairs, p.1.hasNaN = false) :
    Pointwise acceptance redact es o (o.accept acceptance redact es).result where
  undeclared hwildcard h := by
    rw [accept_of_undeclared hwildcard h]
    rfl
  failure hdeclared before d after f hsplit hbefore hd :=
    accept_of_fails hes (unknown_eq_nil hnan hdeclared) hsplit hbefore hd
  success hdeclared hfails := by
    have hknown := unknown_eq_nil hnan hdeclared
    obtain ⟨n, hn⟩ : ∃ n, (o.accept acceptance redact es).result = .ok n := by
      cases hresult : (o.accept acceptance redact es).result with
      | ok n => exact ⟨n, rfl⟩
      | error f =>
        rw [accept_of_known hes hknown, Run.map_eq_error, expand_eq_considered] at hresult
        obtain ⟨d, hd, received, hsettle⟩ := exists_of_settleAll_eq_error hresult
        rw [← find?_firsts] at hsettle
        exact absurd (OptionSpec.fails_iff.2 hsettle) (hfails d hd received f)
    obtain ⟨-, kvs, hsettled, rfl⟩ := (accept_eq_ok hes).1 hn
    rw [hsettled.storeAll_eq hes.distinct hknown] at hn
    exact ⟨_, _, hn, hsettled.updated_verdicts hknown, hsettled.added_verdicts hnan⟩

end Options

/-- Acceptance by a schema without repeated or renamed keys is pointwise, whatever the schemas and
types inside of it are. -/
theorem Schema.accept_pointwise {host : Host} {fuel : Nat} {s : Schema} {es : List Entry}
    {v : Value} {o : Options} (redact : Bool) (hes : s.resolve? host fuel = some es)
    (hregular : Entry.Regular es) (ho : Options.ofValue? v = some o)
    (hnan : ∀ p ∈ o.pairs, p.1.hasNaN = false) :
    Options.Pointwise (OptionType.accept host fuel) redact es o
      (s.accept host (fuel + 1) v redact).result := by
  rw [accept_succ, ho, hes]
  exact Options.pointwise_accept hregular hnan

/-- A server needs a port, has a host, and may be told lists of anything. -/
def serverEntries : List Entry := [
  ⟨.atom "port", { type := .basic .posInteger, required := true }⟩,
  ⟨.string "host", { type := .basic .string, default? := some (.string "localhost") }⟩,
  ⟨.wildcard, .ofType (.listOf (.basic .any))⟩]

def serverHost : Host where
  call _ _ := .nil
  produce _ := .empty

def serverOptions : Options :=
  ⟨.map, [(.atom "port", .integer 80), (.atom "tags", .keyword []), (.atom "port", .nil)]⟩

theorem pointwise_server :
    Entry.Regular serverEntries ∧ (∀ p ∈ serverOptions.pairs, p.1.hasNaN = false) ∧
      Options.Pointwise (OptionType.accept serverHost 8) true serverEntries serverOptions
        (Schema.accept serverHost 9 (.entries serverEntries) serverOptions.toValue
          true).result := by
  have hregular : Entry.Regular serverEntries := ⟨by unfold Entry.DistinctKeys; decide, by decide⟩
  have hnan : ∀ p ∈ serverOptions.pairs, p.1.hasNaN = false := by
    simp [serverOptions, Value.hasNaN]
  exact ⟨hregular, hnan, Schema.accept_pointwise true rfl hregular rfl hnan⟩

end Conform
