import Conform.Proofs.Compiled.Recognition

namespace Conform

namespace Grammar

/-- The data forms of schemas, as far as the selected pairs and fields go at every level: a
container whose keys are atoms and strings, with keyword lists of legal fields under them. -/
inductive IsFormed (sel : Selection) : Value → Prop where
  | intro {o v} : Options.ofValue? v = some o →
      (∀ p ∈ o.pairs, (∃ name, p.1 = .atom name) ∨ ∃ name, p.1 = .string name) →
      (∀ p ∈ sel.pairs o.pairs, RulesBy sel (IsFormed sel) p.2) → IsFormed sel v

/-- At one level nothing is hidden by something else under the same key or of the same name. -/
structure ExposedLevel (v : Value) : Prop where
  pairs : ∀ o, Options.ofValue? v = some o → ∀ p ∈ o.pairs, Pairs.find? o.pairs p.1 = some p.2
  fields : ∀ o, Options.ofValue? v = some o → ∀ p ∈ o.pairs, ∀ fields, fields? p.2 = some fields →
    ∀ f ∈ fields, fields.lookup f.1 = some f.2

/-- Nothing is hidden at any level. -/
def Exposed (v : Value) : Prop :=
  ∀ w, Relation.ReflTransGen Nests v w → ExposedLevel w

variable {v : Value}

theorem Exposed.level (h : Exposed v) : ExposedLevel v := h v .refl

theorem Exposed.nested {w : Value} (h : Exposed v) (hw : Nests v w) : Exposed w :=
  fun u hu => h u (.head hw hu)

theorem IsFormed.all (h : IsFormed .firsts v) (hv : Exposed v) : IsFormed .all v := by
  -- The schemas in the rules are nested less deep.
  induction hn : v.depth using Nat.strongRecOn generalizing v with
  | ind n ih =>
  subst hn
  obtain @⟨o, _, ho, hkeys, hrules⟩ := h
  refine .intro ho hkeys fun p hp => ?_
  have hfirst : RulesBy .firsts (IsFormed .firsts) p.2 := by
    obtain ⟨q, hq, -, heq⟩ := Pairs.exists_mem_firsts (hv.level.pairs o ho p hp)
    rw [← heq]
    exact hrules q hq
  obtain ⟨hfields, hfirst⟩ := hfirst
  refine .intro hfields fun f hf => ?_
  have hlookup := hv.level.fields o ho p hp _ hfields f hf
  refine (hfirst f (Pairs.mem_firsts_iff.2 hlookup)).mono fun s hs hformed => ?_
  have hnests : Nests v s := .intro ho hp hfields hf hs
  exact ih s.depth hnests.depth_lt hformed (hv.nested hnests) rfl

theorem isFormed_of_conforms {host : Host} {n : Nat} {s : Schema}
    (hconforms : metaSchema.Conforms host v) (hread : Schema.readWithin n v = .ok s) :
    IsFormed .firsts v := by
  -- What stands in a field that comes first has been both admitted and read.
  induction n generalizing v s with
  | zero => cases hread
  | succ n ih =>
    obtain ⟨o, ho, hnan, hrules⟩ := conforms_iff_firsts.1 hconforms
    obtain ⟨o', es, ho', hes, rfl⟩ := readWithin_eq_ok.1 hread
    cases ho.symm.trans ho'
    refine .intro ho (fun p hp => ?_) fun p hp => ?_
    · obtain ⟨e, he, -⟩ := (exists_readAs hes).1 p hp
      exact atom_or_string he.key
    · obtain ⟨e, he, -⟩ := (exists_readAs hes).1 p (Pairs.mem_of_mem_firsts hp)
      obtain ⟨hfields, hfirst⟩ := hrules p hp
      refine .intro hfields fun f hf => (hfirst f hf).mono fun w hw hadmits => ?_
      have hget : p.2.get? (.atom f.1) = some f.2 := by
        rw [get?_of_fields? hfields]
        exact Pairs.mem_firsts_iff.1 hf
      obtain ⟨u, hu, -⟩ := nested_of_read (r := fun _ => True) he.spec (by simp) hget hw
      exact ih (hadmits.resolve_left fun hproducer => not_reads_of_producer hproducer hu) hu

end Grammar

open Grammar

/-- Data that is read as a schema is well formed at every level in what comes first, under each key
and of each name. Where nothing else is hidden behind it, everything is well formed. -/
theorem Schema.isFormed_of_ofValue {host : Host} {fuel : Nat} {v : Value} {s : Schema}
    (h : (ofValue host fuel v).result = .ok s) :
    IsFormed .firsts v ∧ (Exposed v → IsFormed .all v) := by
  obtain ⟨hconforms, hread, -⟩ := conforms_of_ofValue h
  have hformed : IsFormed .firsts v := isFormed_of_conforms hconforms hread
  exact ⟨hformed, hformed.all⟩

namespace Grammar

theorem exposed_of_pairs {v : Value} {o : Options} (ho : Options.ofValue? v = some o)
    (hpairs : ∀ p ∈ o.pairs, Pairs.find? o.pairs p.1 = some p.2 ∧
      ∃ fields, fields? p.2 = some fields ∧ ∀ f ∈ fields, fields.lookup f.1 = some f.2 ∧
        ∀ w, InField w f.1 f.2 → Exposed w) : Exposed v := by
  intro w hw
  rcases hw.cases_head with rfl | ⟨u, hu, huw⟩
  · refine ⟨fun o' ho' p hp => ?_, fun o' ho' p hp fields hfields f hf => ?_⟩
    · cases ho.symm.trans ho'
      exact (hpairs p hp).1
    · cases ho.symm.trans ho'
      obtain ⟨-, _, hfields', h⟩ := hpairs p hp
      cases hfields'.symm.trans hfields
      exact (h f hf).1
  · obtain ⟨ho', hp, hfields, hf, hu⟩ := hu
    cases ho.symm.trans ho'
    obtain ⟨-, _, hfields', h⟩ := hpairs _ hp
    cases hfields'.symm.trans hfields
    exact (h _ hf).2 u hu w huw

end Grammar

/-- A cache has a size and options of its own. The size is declared twice, in the same way. -/
def cacheData : Value :=
  .keyword [
    ("size", .keyword [("type", .atom "pos_integer"), ("required", .bool true)]),
    ("store", .keyword [("doc", .bool false), ("keys", .map [(.string "path", .list [])])]),
    ("size", .keyword [("type", .atom "pos_integer"), ("required", .bool true)])]

theorem exposed_cacheData : Grammar.Exposed cacheData := by
  have hatom : ∀ w name, ¬Inline w (.atom name) := by
    intro w name h
    cases h
  have hpath : Grammar.Exposed (.map [(.string "path", .list [])]) := by
    refine exposed_of_pairs rfl fun p hp => ?_
    cases List.mem_singleton.1 hp
    exact ⟨by with_unfolding_all rfl, [], rfl, by simp⟩
  refine exposed_of_pairs rfl fun p hp => ?_
  simp only [List.map_cons, List.map_nil, List.mem_cons, List.not_mem_nil, or_false] at hp
  rcases hp with rfl | rfl | rfl
  · exact ⟨by with_unfolding_all rfl, _, rfl, by simp [inField_iff, hatom, List.lookup_cons]⟩
  · exact ⟨by with_unfolding_all rfl, _, rfl, by simp [inField_iff, hpath, List.lookup_cons]⟩
  · exact ⟨by with_unfolding_all rfl, _, rfl, by simp [inField_iff, hatom, List.lookup_cons]⟩

theorem cacheData_formed :
    (∃ s, (Schema.ofValue .bare 40 cacheData).result = .ok s) ∧ IsFormed .all cacheData := by
  obtain ⟨s, hs⟩ : ∃ s, (Schema.ofValue .bare 40 cacheData).result = .ok s :=
    ⟨_, by with_unfolding_all rfl⟩
  exact ⟨⟨s, hs⟩, (Schema.isFormed_of_ofValue hs).2 exposed_cacheData⟩

/-- Options that are declared twice, the second time by no rules at all. -/
def brokenData : Value :=
  .keyword [("size", .keyword []), ("size", .integer 5)]

/-- The second declaration is hidden from the check, and read as one without rules. -/
theorem brokenData_unformed :
    (Schema.ofValue .bare 40 brokenData).result = .ok (.entries [
      ⟨.atom "size", .ofType (.basic .any)⟩, ⟨.atom "size", .ofType (.basic .any)⟩]) ∧
    ¬IsFormed .all brokenData := by
  refine ⟨by with_unfolding_all rfl, fun h => ?_⟩
  obtain ⟨ho, -, hrules⟩ := h
  cases ho
  obtain ⟨hfields, -⟩ := hrules (.atom "size", .integer 5) (.tail _ (.head _))
  cases hfields

end Conform
