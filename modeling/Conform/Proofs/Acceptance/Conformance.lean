import Conform.Proofs.Acceptance.Membership
import Conform.Proofs.Acceptance.Settlement

namespace Conform

/-- Whether an option is as its rules say, given what is under its key, if anything. The values
that the option may have are those with the property `p`. -/
def OptionSpec.Suits (p : Value → Prop) (spec : OptionSpec) : Option Value → Prop
  | some v => p v
  | none => spec.required = false ∧ ∀ v, spec.default? = some v → p v

namespace Entry

variable {es : List Entry} {ps : List (Value × Value)}

theorem mem_expand_of_explicit {e : Entry} {key : Value} (present : List Value) (he : e ∈ es)
    (hkey : e.key.option? = some key) (h : present.Pairwise fun k l => (k == l) = false) :
    (key, e.spec) ∈ expand es present := by
  rw [expand_eq h]
  exact List.mem_append_left _ (mem_explicit.2 ⟨e, he, hkey, rfl⟩)

/-- The first wildcard covers every key that is present, unless the key has an entry of its own. -/
theorem mem_expand_of_wildcard {spec : OptionSpec} (hfind : find? es .wildcard = some spec)
    {key : Value} (hkey : key ∈ Pairs.keys ps)
    (hother : ∀ d ∈ explicit es, (d.1 == key) = false) :
    (key, spec) ∈ expand es (Pairs.keys ps) := by
  rw [expand_eq (Pairs.pairwise_keys ps), hfind]
  refine List.mem_append_right _ (List.mem_map.2 ⟨key, ?_, rfl⟩)
  rw [undeclared, List.mem_filter]
  refine ⟨hkey, ?_⟩
  simpa using hother

theorem exists_mem_expand {key : Value} (hkey : key ∈ Pairs.keys ps) (h : Knows es key) :
    ∃ spec, (key, spec) ∈ expand es (Pairs.keys ps) := by
  obtain ⟨-, e, he, hk | hwildcard⟩ := h
  · exact ⟨e.spec, mem_expand_of_explicit _ he hk (Pairs.pairwise_keys _)⟩
  · by_cases hexplicit : ∃ d ∈ explicit es, (d.1 == key) = true
    · obtain ⟨d, hmem, hdk⟩ := hexplicit
      obtain ⟨e', he', hk', -⟩ := mem_explicit.1 hmem
      rw [← SchemaKey.eq_of_beq hk' hdk] at hk'
      exact ⟨e'.spec, mem_expand_of_explicit _ he' hk' (Pairs.pairwise_keys _)⟩
    · obtain ⟨spec, hfind⟩ : ∃ spec, find? es .wildcard = some spec := by
        rw [← Option.isSome_iff_exists, find?, Option.isSome_map, List.find?_isSome]
        exact ⟨e, he, beq_iff_eq.2 hwildcard⟩
      refine ⟨spec, mem_expand_of_wildcard hfind hkey fun d hmem => ?_⟩
      rw [Bool.eq_false_iff]
      exact fun hdk => hexplicit ⟨d, hmem, hdk⟩

theorem declares_of_mem_expand {d : Value × OptionSpec} (h : d ∈ expand es (Pairs.keys ps)) :
    Declares es ps d.1 d.2 := by
  rw [expand_eq (Pairs.pairwise_keys ps)] at h
  rcases List.mem_append.1 h with h | h
  · obtain ⟨e, he, hkey, hspec⟩ := mem_explicit.1 h
    rw [← hspec]
    exact .explicit he hkey
  · split at h
    · simp at h
    next spec hfind =>
      obtain ⟨e, he, hwildcard, rfl⟩ := mem_of_find? hfind
      obtain ⟨key, hkey, rfl⟩ := List.mem_map.1 h
      obtain ⟨hkey, hother⟩ := List.mem_filter.1 hkey
      obtain ⟨p, hp, rfl⟩ := Pairs.mem_of_mem_keys hkey
      refine .wildcard he hwildcard hp fun d hd hkey => ?_
      simp only [Bool.not_eq_true', List.any_eq_false] at hother
      refine hother (p.1, d.spec) (mem_explicit.2 ⟨d, hd, hkey, rfl⟩) ?_
      exact SchemaKey.beq_self_of_option? hkey

theorem knows_of_mem_expand {d : Value × OptionSpec} (h : d ∈ expand es (Pairs.keys ps))
    {key : Value} (hkey : (d.1 == key) = true) : Knows es key := by
  refine ⟨Value.beq_self_iff.1 (BEq.trans (BEq.symm hkey) hkey), ?_⟩
  obtain ⟨k, spec⟩ := d
  cases declares_of_mem_expand h with
  | explicit he hk =>
    rw [SchemaKey.eq_of_beq hk hkey]
    exact ⟨_, he, .inl hk⟩
  | wildcard he hwildcard => exact ⟨_, he, .inr hwildcard⟩

theorem exists_of_declares (hd : DistinctKeys es) {key : Value} {spec : OptionSpec}
    (h : Declares es ps key spec) (hkey : (key == key) = true) :
    ∃ d ∈ expand es (Pairs.keys ps), (d.1 == key) = true ∧ d.2 = spec := by
  cases h with
  | explicit he hk =>
    exact ⟨_, mem_expand_of_explicit _ he hk (Pairs.pairwise_keys ps), hkey, rfl⟩
  | @wildcard e p he hwildcard hp hother =>
    -- The key that counts is the first one that is equal to this one.
    obtain ⟨k, hk, hpk⟩ : ∃ k ∈ Pairs.keys ps, (p.1 == k) = true := by
      rcases Pairs.exists_mem_keys hp with hk | hk
      · exact ⟨p.1, hk, hkey⟩
      · exact hk
    have hfind := find?_of_mem hd he
    rw [hwildcard] at hfind
    refine ⟨(k, e.spec), mem_expand_of_wildcard hfind hk ?_, BEq.symm hpk, rfl⟩
    intro d hmem
    obtain ⟨e', he', hk', -⟩ := mem_explicit.1 hmem
    rw [Bool.eq_false_iff]
    intro hdk
    have heq := SchemaKey.eq_of_beq hk' (BEq.trans hdk (BEq.symm hpk))
    rw [← heq] at hk'
    exact hother e' he' hk'

theorem Declares.eq_of_mem_expand (hd : DistinctKeys es) {key : Value} {spec : OptionSpec}
    (h : Declares es ps key spec) {d : Value × OptionSpec} (hmem : d ∈ expand es (Pairs.keys ps))
    (hkey : (d.1 == key) = true) : d.2 = spec := by
  have hself : (key == key) = true := BEq.trans (BEq.symm hkey) hkey
  obtain ⟨d', hmem', hkey', rfl⟩ := exists_of_declares hd h hself
  have hdistinct := distinct_expand hd (Pairs.pairwise_keys ps)
  have hfind := Pairs.find?_of_mem hdistinct hmem hkey
  rw [Pairs.find?_of_mem hdistinct hmem' hkey'] at hfind
  exact (Option.some.inj hfind).symm

end Entry

open Entry

theorem Options.unknown_eq_nil_iff {es : List Entry} {o : Options} :
    unknown es o = [] ↔ ∀ p ∈ o.pairs, Knows es p.1 := by
  constructor
  · intro h p hp
    obtain ⟨d, hmem, hdp⟩ := isSome_find?_expand h hp
    exact knows_of_mem_expand hmem hdp
  · intro h
    apply List.filter_eq_nil_iff.2
    intro key hkey
    obtain ⟨p, hp, rfl⟩ := Pairs.mem_of_mem_keys hkey
    obtain ⟨spec, hmem⟩ := exists_mem_expand hkey (h p hp)
    simp only [Bool.not_eq_true', Bool.not_eq_false, List.any_eq_true]
    exact ⟨_, hmem, Value.beq_self_iff.2 (h p hp).1⟩

/-- Options conform to entries if all keys are known and each option to check suits its rules. -/
theorem Schema.conforms_iff {host : Host} {s : Schema} {es : List Entry} (hes : s.Resolves host es)
    (hd : DistinctKeys es) {v : Value} {o : Options} (ho : Options.ofValue? v = some o) :
    s.Conforms host v ↔ Options.unknown es o = [] ∧
      ∀ d ∈ expand es (Pairs.keys o.pairs),
        d.2.Suits (d.2.effectiveType.Member host) (Pairs.find? o.pairs d.1) := by
  rw [Options.unknown_eq_nil_iff]
  constructor
  · intro h
    obtain ⟨hes', ho', hknown, hpresent, hrequired, hdefault⟩ := h
    cases hes.unique hes'
    cases ho.symm.trans ho'
    refine ⟨hknown, fun d hmem => ?_⟩
    have hdeclares := declares_of_mem_expand hmem
    cases hfind : Pairs.find? o.pairs d.1 with
    | some v => exact hpresent _ _ v hdeclares hfind
    | none =>
      refine ⟨hrequired _ _ hdeclares hfind, fun v hv => ?_⟩
      exact hdefault _ _ v hdeclares hfind hv
  · rintro ⟨hknown, hsuits⟩
    -- A wildcard is declared for every present key, and expanded for the first equal one.
    have hdeclared : ∀ key spec, Declares es o.pairs key spec →
        spec.Suits (spec.effectiveType.Member host) (Pairs.find? o.pairs key) := by
      intro key spec hdeclares
      have hself : (key == key) = true := by
        cases hdeclares with
        | explicit he hk => exact SchemaKey.beq_self_of_option? hk
        | wildcard he hwildcard hp hother => exact Value.beq_self_iff.2 (hknown _ hp).1
      obtain ⟨d, hmem, hdk, rfl⟩ := exists_of_declares hd hdeclares hself
      rw [← Pairs.find?_congr _ hdk]
      exact hsuits d hmem
    refine .intro hes ho hknown ?_ ?_ ?_
    · intro key spec v hdeclares hfind
      have := hdeclared key spec hdeclares
      rwa [hfind] at this
    · intro key spec hdeclares hfind
      have := hdeclared key spec hdeclares
      rw [hfind] at this
      exact this.1
    · intro key spec v hdeclares hfind hv
      have := hdeclared key spec hdeclares
      rw [hfind] at this
      exact this.2 v hv

end Conform
