import Conform.Proofs.Pairs.Storage
import Conform.Proofs.Value.Reflexivity
import Conform.Schema.Basic

namespace Conform

theorem SchemaKey.beq_self_of_option? {k : SchemaKey} {v : Value} (h : k.option? = some v) :
    (v == v) = true := by
  rw [Value.beq_self_iff]
  cases k <;> simp only [option?, Option.some.injEq, reduceCtorEq] at h <;> subst h <;> rfl

theorem SchemaKey.eq_of_beq {k : SchemaKey} {v w : Value} (h : k.option? = some v)
    (hvw : (v == w) = true) : w = v := by
  change Value.beq v w = true at hvw
  cases k <;> simp only [option?, Option.some.injEq, reduceCtorEq] at h <;> subst h
  all_goals
    cases w <;> simp only [Value.beq, Bool.false_eq_true, beq_iff_eq] at hvw
    subst hvw
    rfl

theorem SchemaKey.option?_inj {k l : SchemaKey} {v : Value} (hk : k.option? = some v)
    (hl : l.option? = some v) : k = l := by
  have h : k.option? = l.option? := hk.trans hl.symm
  cases k <;> cases l <;> simp [option?] at h <;> simp [h]

namespace Entry

def DistinctKeys (es : List Entry) : Prop := (es.map Entry.key).Nodup

instance (es : List Entry) : Decidable (DistinctKeys es) :=
  inferInstanceAs (Decidable (es.map Entry.key).Nodup)

theorem DistinctKeys.perm {es es' : List Entry} (h : DistinctKeys es) (hp : es.Perm es') :
    DistinctKeys es' :=
  (hp.map key).nodup_iff.1 h

/-- No key is declared twice, and no option is renamed. -/
structure Regular (es : List Entry) : Prop where
  distinct : DistinctKeys es
  unrenamed : ∀ e ∈ es, e.spec.renameTo? = none

/-- No key is declared twice, no option is renamed, and none has a default. -/
structure Undefaulted (es : List Entry) : Prop extends Regular es where
  undefaulted : ∀ e ∈ es, e.spec.default? = none

def explicit (es : List Entry) : List (Value × OptionSpec) :=
  es.filterMap fun e => e.key.option?.map (·, e.spec)

def undeclared (es : List Entry) (present : List Value) : List Value :=
  present.filter fun key => !(explicit es).any fun d => d.1 == key

theorem mem_explicit {es : List Entry} {d : Value × OptionSpec} :
    d ∈ explicit es ↔ ∃ e ∈ es, e.key.option? = some d.1 ∧ e.spec = d.2 := by
  simp only [explicit, List.mem_filterMap, Option.map_eq_some_iff]
  constructor
  · rintro ⟨e, he, v, hv, rfl⟩
    exact ⟨e, he, hv, rfl⟩
  · rintro ⟨e, he, hv, hs⟩
    exact ⟨e, he, d.1, hv, by rw [hs]⟩

theorem distinct_explicit {es : List Entry} (h : DistinctKeys es) :
    Pairs.Distinct (explicit es) := by
  have hkeys : es.Pairwise fun d e => d.key ≠ e.key := List.pairwise_map.1 h
  refine hkeys.filterMap _ ?_
  intro d e hde x hx y hy
  obtain ⟨v, hv, rfl⟩ := Option.map_eq_some_iff.1 hx
  obtain ⟨w, hw, rfl⟩ := Option.map_eq_some_iff.1 hy
  rw [Bool.eq_false_iff]
  intro hvw
  have hw' := SchemaKey.eq_of_beq hv hvw
  subst hw'
  exact hde (SchemaKey.option?_inj hv hw)

theorem mem_of_find? {es : List Entry} {key : SchemaKey} {spec : OptionSpec}
    (h : find? es key = some spec) : ∃ e ∈ es, e.key = key ∧ e.spec = spec := by
  obtain ⟨e, he, rfl⟩ := Option.map_eq_some_iff.1 h
  exact ⟨e, List.mem_of_find?_eq_some he, by simpa using List.find?_some he, rfl⟩

theorem find?_of_mem {es : List Entry} (h : DistinctKeys es) {e : Entry} (he : e ∈ es) :
    find? es e.key = some e.spec := by
  unfold find?
  induction es with
  | nil => simp at he
  | cons d es ih =>
    rw [List.find?_cons]
    rcases List.mem_cons.1 he with rfl | he
    · simp
    · obtain ⟨hd, hes⟩ := List.nodup_cons.1 h
      have hne : d.key ≠ e.key := fun hkey => hd (hkey ▸ List.mem_map_of_mem he)
      rw [beq_false_of_ne hne]
      exact ih hes he

/-- The options to check are the explicit ones and, under a wildcard, the undeclared keys. -/
theorem expand_eq {es : List Entry} {present : List Value}
    (h : present.Pairwise fun k l => (k == l) = false) :
    expand es present = explicit es ++
      match find? es .wildcard with
      | none => []
      | some spec => (undeclared es present).map (·, spec) := by
  unfold expand find?
  cases hw : es.find? fun e => e.key == .wildcard with
  | none => simp [explicit]
  | some w =>
    -- The keys that are present differ, so those added on the way hide none that follow.
    have hfold : ∀ ds : List (Value × OptionSpec),
        present.foldl (fun declared key =>
          if declared.any fun d => d.1 == key then declared else declared ++ [(key, w.spec)]) ds =
        ds ++ (present.filter fun key => !ds.any fun d => d.1 == key).map (·, w.spec) := by
      clear hw
      induction present with
      | nil => simp
      | cons k present ih =>
        intro ds
        rw [List.foldl_cons, ih h.of_cons, List.filter_cons]
        cases hk : ds.any fun d => d.1 == k with
        | true => simp
        | false =>
          have hrest : (present.filter fun key => !(ds ++ [(k, w.spec)]).any fun d => d.1 == key) =
              present.filter fun key => !ds.any fun d => d.1 == key := by
            apply List.filter_congr
            intro l hl
            rw [List.any_append, List.any_cons, List.rel_of_pairwise_cons h hl]
            simp
          simp only [Bool.false_eq_true, if_false, Bool.not_false, if_true, List.map_cons, hrest]
          simp
    exact hfold _

theorem spec_of_mem_expand {es : List Entry} {present : List Value}
    (h : present.Pairwise fun k l => (k == l) = false) {d : Value × OptionSpec}
    (hd : d ∈ expand es present) : ∃ e ∈ es, e.spec = d.2 := by
  rw [expand_eq h] at hd
  rcases List.mem_append.1 hd with hd | hd
  · obtain ⟨e, he, -, hs⟩ := mem_explicit.1 hd
    exact ⟨e, he, hs⟩
  · split at hd
    · simp at hd
    next spec hw =>
      obtain ⟨e, he, rfl⟩ := Option.map_eq_some_iff.1 hw
      obtain ⟨k, -, rfl⟩ := List.mem_map.1 hd
      exact ⟨e, List.mem_of_find?_eq_some he, rfl⟩

theorem distinct_expand {es : List Entry} (hes : DistinctKeys es) {present : List Value}
    (h : present.Pairwise fun k l => (k == l) = false) : Pairs.Distinct (expand es present) := by
  rw [expand_eq h]
  refine List.pairwise_append.2 ⟨distinct_explicit hes, ?_, ?_⟩
  · split
    · exact .nil
    · exact List.pairwise_map.2 (h.sublist List.filter_sublist)
  · intro d hd x hx
    split at hx
    · simp at hx
    · obtain ⟨k, hk, rfl⟩ := List.mem_map.1 hx
      have hany := (List.mem_filter.1 hk).2
      simp only [Bool.not_eq_true', List.any_eq_false] at hany
      simpa using hany d hd

/-- A key that is equal to a declared one is equal to itself, and so is every declared key. -/
theorem beq_self_of_mem_expand {es : List Entry} {present : List Value}
    (h : present.Pairwise fun k l => (k == l) = false)
    (hknown : ∀ k ∈ present, ∃ d ∈ expand es present, (d.1 == k) = true) {d : Value × OptionSpec}
    (hd : d ∈ expand es present) : (d.1 == d.1) = true := by
  have hmem := hd
  rw [expand_eq h] at hmem
  rcases List.mem_append.1 hmem with hmem | hmem
  · obtain ⟨e, -, hk, -⟩ := mem_explicit.1 hmem
    exact SchemaKey.beq_self_of_option? hk
  · split at hmem
    · simp at hmem
    next spec hw =>
      -- Equality is no more than symmetric and transitive, but something is equal to the key.
      obtain ⟨k, hk, rfl⟩ := List.mem_map.1 hmem
      obtain ⟨d', -, hdk⟩ := hknown k (List.mem_filter.1 hk).1
      exact BEq.trans (BEq.symm hdk) hdk

end Entry

end Conform
