import Conform.Proofs.Compiled.MetaGrammar

namespace Conform

/-- A schema as it is read: it is written out, and at every level no key is the atom that stands for
the wildcard, and the types are readable. -/
inductive Schema.Readable : Schema → Prop where
  | entries {es} : (∀ e ∈ es, e.key ≠ .atom SchemaKey.wildcardName) →
      (∀ e ∈ es, ∀ u, OptionType.Part u e.spec.type → u.Readable) →
      (∀ e ∈ es, ∀ t ∈ e.spec.schemas, Readable t) → Readable (.entries es)

theorem Schema.Readable.written {s : Schema} (h : s.Readable) : s.Written := by
  induction h with
  | entries _ _ _ ih => exact written_entries.2 ih

theorem SchemaKey.ne_wildcard_of_ofValue? {v : Value} {k : SchemaKey} (h : ofValue? v = some k) :
    k ≠ .atom wildcardName := by
  rintro rfl
  obtain ⟨hname, -⟩ := (Grammar.key_eq_atom_iff h).1 rfl
  exact hname rfl

namespace Grammar

section

variable {host : Host} {v : Value} {n : Nat}

structure Passes (host : Host) (n : Nat) (v : Value) : Prop where
  conforms : metaSchema.Conforms host v
  reads : ∃ s, Schema.readWithin n v = .ok s ∧ s.Orderly

theorem not_reads_of_producer {s : Value} {u : Schema} (hs : s.isProducer = true) :
    Schema.readWithin n s ≠ .ok u := by
  cases s with
  | function f => cases n <;> simp [Schema.readWithin, Schema.dataPairs, bind, Except.bind]
  | _ => simp [Value.isProducer] at hs

/-- A value passes if it is a level of the grammar and the schemas in it pass. -/
theorem passes_succ (hd : DistinctLevel v) :
    Passes host (n + 1) v ↔ IsLevel (Passes host n) v := by
  constructor
  · rintro ⟨hconforms, s, hread, horderly⟩
    obtain ⟨o, es, ho, -, rfl⟩ := readWithin_eq_ok.1 hread
    obtain ⟨hplaced, hinner⟩ := Schema.orderly_entries.1 horderly
    have hrules : ∀ o', Options.ofValue? v = some o' → ∀ r ∈ o'.pairs,
        IsRules (Admits host) r.2 := by
      intro o' ho' r hr
      exact ((conforms_iff hd ho').1 hconforms r hr).2
    refine (isLevel_of_read hd hread hrules hplaced hinner).mono fun w _ hw => ?_
    obtain ⟨hadmits, u, hu, hok⟩ := hw
    refine ⟨hadmits.resolve_left fun hproducer => ?_, u, hu, hok⟩
    exact not_reads_of_producer hproducer hu
  · intro h
    obtain ⟨es, hread, hplaced, hinner⟩ := read_of_isLevel hd (h.mono fun w _ hw => hw.reads)
    refine ⟨?_, .entries es, hread, Schema.orderly_entries.2 ⟨hplaced, hinner⟩⟩
    obtain ⟨ho, hkeys, hrules, -, -⟩ := h.mono fun w _ hw => (.inr hw.conforms : Admits host w)
    refine (conforms_iff hd ho).2 fun p hp => ⟨?_, hrules p hp⟩
    rcases hkeys p hp with ⟨name, hname⟩ | ⟨name, hname⟩
    all_goals rw [hname]; rfl

theorem passes_iff (hv : Distinct v) (hn : v.depth ≤ n) : Passes host n v ↔ IsSchema v := by
  induction n generalizing v with
  | zero =>
    have := v.depth_pos
    omega
  | succ n ih =>
    have hnested : ∀ w, Nests v w → (Passes host n w ↔ IsSchema w) := by
      intro w hw
      have := hw.depth_lt
      exact ih (hv.nested hw) (by omega)
    rw [passes_succ hv.level, isSchema_iff]
    constructor
    · exact fun h => h.mono fun w hw => (hnested w hw).1
    · exact fun h => h.mono fun w hw => (hnested w hw).2

theorem readable_of_readSpec {nested : Value → Except ReadError Schema} {spec : OptionSpec}
    (h : OptionSpec.read nested v = .ok spec) {u : OptionType}
    (hu : OptionType.Part u spec.type) : u.Readable := by
  obtain ⟨htype, -, -⟩ := of_read h
  cases ht : v.get? (.atom "type") with
  | none =>
    rw [ht] at htype
    rw [← Except.ok.inj htype] at hu
    cases hu
    exact trivial
  | some t =>
    rw [ht] at htype
    exact readable_of_readType htype hu

theorem readable_of_read {s : Schema} (h : Schema.readWithin n v = .ok s) : s.Readable := by
  induction n generalizing v s with
  | zero => cases h
  | succ n ih =>
    obtain ⟨o, es, -, hes, rfl⟩ := readWithin_eq_ok.1 h
    refine .entries (fun e he => ?_) (fun e he u hu => ?_) fun e he t ht => ?_
    · obtain ⟨p, hp, -⟩ := (exists_readAs hes).2 e he
      exact SchemaKey.ne_wildcard_of_ofValue? hp.key
    · obtain ⟨p, hp, -⟩ := (exists_readAs hes).2 e he
      exact readable_of_readSpec hp.spec hu
    · obtain ⟨p, hp, -⟩ := (exists_readAs hes).2 e he
      exact schemas_of_read hp.spec (fun _ _ hu => ih hu) t ht

end

end Grammar

namespace Schema

open Grammar

variable {host : Host} {fuel : Nat} {v : Value}

theorem ofValue_eq_ok {s : Schema} : (ofValue host fuel v).result = .ok s ↔
    (checkData host fuel [] v).result = .ok () ∧ Schema.read v = .ok s ∧
      (s.checkPlacement host fuel).result = .ok () := by
  unfold ofValue
  rw [Run.bind_unit_eq_ok]
  refine and_congr_right fun _ => ?_
  cases hread : Schema.read v with
  | error e =>
    constructor
    · intro h
      cases h
    · rintro ⟨h, -⟩
      cases h
  | ok t =>
    rw [Run.bind_unit_eq_ok]
    constructor
    · rintro ⟨hplacement, ht⟩
      cases ht
      exact ⟨rfl, hplacement⟩
    · rintro ⟨ht, hplacement⟩
      cases ht
      exact ⟨hplacement, rfl⟩

theorem conforms_of_ofValue {s : Schema} (h : (ofValue host fuel v).result = .ok s) :
    metaSchema.Conforms host v ∧ Schema.read v = .ok s ∧ s.Orderly := by
  obtain ⟨hdata, hread, hplacement⟩ := ofValue_eq_ok.1 h
  refine ⟨accepts_metaSchema.1 (accepts_of_checkData hdata), hread, ?_⟩
  exact orderly_of_checkPlacement (readable_of_read hread).written hplacement

theorem isSchema_of_ofValue (hv : Grammar.Distinct v) {s : Schema}
    (h : (ofValue host fuel v).result = .ok s) : IsSchema v := by
  obtain ⟨hconforms, hread, horderly⟩ := conforms_of_ofValue h
  exact (passes_iff hv (Nat.le_refl _)).1 ⟨hconforms, s, hread, horderly⟩

theorem failsOnly_ofValue (hv : Grammar.Distinct v) (hfuel : 5 * v.depth + 2 ≤ fuel) :
    (ofValue host fuel v).FailsOnly (¬IsSchema v) := by
  have hpasses : IsSchema v → Passes host v.depth v := (passes_iff hv (Nat.le_refl _)).2
  refine Run.failsOnly_bind ((failsOnly_checkData hfuel).mono fun hnot h => ?_) fun _ => ?_
  · exact hnot (accepts_metaSchema.2 (hpasses h).conforms)
  · split
    next e he =>
      refine Run.failsOnly_fault fun h => ?_
      obtain ⟨s, hs, -⟩ := (hpasses h).reads
      cases he.symm.trans hs
    next t ht =>
      have hplacement : (t.checkPlacement host fuel).FailsOnly (¬t.Orderly) :=
        failsOnly_checkPlacement (readable_of_read ht).written
      refine Run.failsOnly_bind (hplacement.mono fun hnot h => ?_) fun _ => Run.failsOnly_pure _
      obtain ⟨s, hs, horderly⟩ := (hpasses h).reads
      cases ht.symm.trans hs
      exact hnot horderly

/-- Data in which nothing stands twice, at any level, is read as a schema if and only if it is in
the grammar. Five steps for each level of the data, and two more, are depth enough: what is not in
the grammar then meets a fault. -/
theorem ofValue_iff_isSchema (hv : Grammar.Distinct v) (hfuel : 5 * v.depth + 2 ≤ fuel) :
    ((∃ s, (ofValue host fuel v).result = .ok s) ↔ IsSchema v) ∧
      (¬IsSchema v → ∃ f, (ofValue host fuel v).result = .error (.fault f)) := by
  have hfails : (ofValue host fuel v).FailsOnly (¬IsSchema v) := failsOnly_ofValue hv hfuel
  exact hfails.decides fun _ hs => isSchema_of_ofValue hv hs

end Schema

namespace Grammar

theorem inField_iff {s v : Value} {name : String} :
    InField s name v ↔ name = "type" ∧ Inline s v ∨ name = "keys" ∧ s = v := by
  constructor
  · intro h
    cases h with
    | type hs => exact .inl ⟨rfl, hs⟩
    | keys => exact .inr ⟨rfl, rfl⟩
  · rintro (⟨rfl, hs⟩ | ⟨rfl, rfl⟩)
    · exact .type hs
    · exact .keys

theorem distinct_of_pairs {v : Value} {o : Options} (ho : Options.ofValue? v = some o)
    (hkeys : Pairs.Distinct o.pairs)
    (hfields : ∀ p ∈ o.pairs, ∃ fields, fields? p.2 = some fields ∧ (fields.map Prod.fst).Nodup ∧
      ∀ f ∈ fields, ∀ w, InField w f.1 f.2 → Distinct w) : Distinct v := by
  intro w hw
  rcases hw.cases_head with rfl | ⟨u, hu, huw⟩
  · refine ⟨fun o' ho' => ?_, fun o' ho' p hp fields hp' => ?_⟩
    · cases ho.symm.trans ho'
      exact hkeys
    · cases ho.symm.trans ho'
      obtain ⟨_, hfields, hnodup, -⟩ := hfields p hp
      cases hfields.symm.trans hp'
      exact hnodup
  · obtain ⟨ho', hp, hp', hf, hu⟩ := hu
    cases ho.symm.trans ho'
    obtain ⟨_, hfields, -, hnested⟩ := hfields _ hp
    cases hfields.symm.trans hp'
    exact hnested _ hf u hu w huw

theorem distinct_atoms {fields : List (String × Value)} (h : (fields.map Prod.fst).Nodup) :
    Pairs.Distinct (fields.map fun f => (Value.atom f.1, f.2)) := by
  refine List.pairwise_map.2 ((List.pairwise_map.1 h).imp fun hne => ?_)
  change Value.beq _ _ = false
  rw [Value.beq]
  exact beq_false_of_ne hne

end Grammar

open Grammar

def backendData : Value :=
  .map [(.string "url", .keyword [("type", .atom "string"), ("required", .bool true)])]

/-- The type of a mode: a flag or a keyword list without any options. -/
def modeType : Value :=
  TypeTag.union.data [.list [.atom "boolean", TypeTag.keywordList.data [.list []]]]

/-- The options of a proxy. The first one is renamed, and the backends are a list of maps. -/
def proxyData (target : String) : Value :=
  .keyword [
    ("upstreams", .keyword [("rename_to", .atom target)]),
    ("backends", .keyword [("type", TypeTag.list.data [.atom "map"]), ("keys", backendData)]),
    ("mode", .keyword [("type", modeType)])]

theorem distinct_proxyData (target : String) : Grammar.Distinct (proxyData target) := by
  have hatom : ∀ w name, ¬Inline w (.atom name) := by
    intro w name h
    cases h
  have hmaps : ∀ w, ¬Inline w (TypeTag.list.data [.atom "map"]) := by
    have htype : IsType (fun _ => False) (TypeTag.list.data [.atom "map"]) := .list (.basic .map)
    exact fun w => htype.inline
  have hmode : ∀ w, Inline w modeType → w = .list [] := by
    have htype : IsType (· = .list []) modeType := by
      refine .union fun item hitem => ?_
      simp only [List.mem_cons, List.not_mem_nil, or_false] at hitem
      rcases hitem with rfl | rfl
      · exact .basic .boolean
      · exact .keywordList rfl
    exact fun w => htype.inline
  have hempty : Grammar.Distinct (.list []) :=
    distinct_of_pairs rfl .nil fun p hp => absurd hp List.not_mem_nil
  have hbackend : Grammar.Distinct backendData := by
    refine distinct_of_pairs rfl (by unfold Pairs.Distinct; decide) fun p hp => ?_
    rw [List.mem_singleton] at hp
    subst hp
    exact ⟨_, rfl, by decide, by simp [inField_iff, hatom]⟩
  refine distinct_of_pairs rfl (distinct_atoms (by simp)) fun p hp => ?_
  simp only [List.map_cons, List.map_nil, List.mem_cons, List.not_mem_nil, or_false] at hp
  rcases hp with rfl | rfl | rfl
  · exact ⟨_, rfl, by simp, by simp [inField_iff]⟩
  · exact ⟨_, rfl, by simp, by simp [inField_iff, hmaps, hbackend]⟩
  · refine ⟨_, rfl, by simp, ?_⟩
    simp only [List.mem_singleton, forall_eq, inField_iff]
    rintro w (⟨-, hw⟩ | ⟨hkeys, -⟩)
    · rw [hmode w hw]
      exact hempty
    · simp at hkeys

theorem not_isSchema_proxyData : ¬IsSchema (proxyData "upstreams") := by
  intro h
  obtain ⟨ho, -, -, -, htargets⟩ := isSchema_iff.1 h
  cases ho
  obtain ⟨-, p, hp, htarget⟩ := htargets [] _ _ rfl _ rfl "upstreams" (.head _)
  simp only [List.map_cons, List.map_nil, List.mem_cons, List.not_mem_nil, or_false] at hp
  rcases hp with rfl | rfl
  all_goals simp at htarget

/-- The upstreams may be renamed to what is declared further down, and not to themselves. -/
theorem proxyData_recognized : IsSchema (proxyData "backends") ∧
    ∃ f, (Schema.ofValue Host.bare 40 (proxyData "upstreams")).result = .error (.fault f) := by
  have hread : ∃ s, (Schema.ofValue Host.bare 40 (proxyData "backends")).result = .ok s :=
    ⟨_, by with_unfolding_all rfl⟩
  have hdepth : ∀ target, 5 * (proxyData target).depth + 2 ≤ 40 := by
    intro target
    simp [proxyData, backendData, modeType, TypeTag.data, Value.depth, Value.depthItems,
      Value.depthFields, Value.depthPairs]
  constructor
  · exact (Schema.ofValue_iff_isSchema (distinct_proxyData _) (hdepth _)).1.1 hread
  · exact (Schema.ofValue_iff_isSchema (distinct_proxyData _) (hdepth _)).2 not_isSchema_proxyData

end Conform
