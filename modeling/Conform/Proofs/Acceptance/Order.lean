import Mathlib.Data.List.Nodup
import Conform.Proofs.Acceptance.Idempotence
import Conform.Proofs.Acceptance.Pointwise

namespace Conform

namespace Entry

variable {es es' : List Entry} {present present' : List Value}

theorem Regular.perm (h : Regular es) (hp : es.Perm es') : Regular es' where
  distinct := h.distinct.perm hp
  unrenamed e he := h.unrenamed e (hp.mem_iff.2 he)

theorem explicit_perm (hp : es.Perm es') : (explicit es).Perm (explicit es') :=
  hp.filterMap _

theorem find?_perm (hd : DistinctKeys es) (hp : es.Perm es') (key : SchemaKey) :
    find? es key = find? es' key := by
  cases hfind : find? es' key with
  | none =>
    have hnone : ∀ e ∈ es', e.key ≠ key := by simpa [find?] using hfind
    simpa [find?] using fun e he => hnone e (hp.mem_iff.1 he)
  | some spec =>
    obtain ⟨e, he, rfl, rfl⟩ := mem_of_find? hfind
    exact find?_of_mem hd (hp.mem_iff.2 he)

theorem undeclared_perm (hp : es.Perm es') (hpresent : present.Perm present') :
    (undeclared es present).Perm (undeclared es' present') := by
  have hany : ∀ key : Value, (explicit es).any (fun d => d.1 == key) =
      (explicit es').any fun d => d.1 == key := fun key => (explicit_perm hp).any_eq
  unfold undeclared
  simp only [hany]
  exact hpresent.filter _

theorem expand_perm (hd : DistinctKeys es) (hp : es.Perm es')
    (hkeys : present.Pairwise fun k l => (k == l) = false) (hpresent : present.Perm present') :
    (expand es present).Perm (expand es' present') := by
  have hkeys' : present'.Pairwise fun k l => (k == l) = false :=
    hpresent.pairwise hkeys fun h => by rwa [BEq.comm]
  rw [expand_eq hkeys, expand_eq hkeys', find?_perm hd hp]
  refine (explicit_perm hp).append ?_
  split
  · exact .nil
  · exact (undeclared_perm hp hpresent).map _

theorem Knows.perm {key : Value} (h : Knows es key) (hp : es.Perm es') : Knows es' key :=
  ⟨h.1, h.2.imp fun _ he => ⟨hp.mem_iff.1 he.1, he.2⟩⟩

end Entry

namespace Options

variable {acceptance : Acceptance} {redact : Bool} {es es' : List Entry} {o o' : Options}
variable {kvs : List (Value × Value)}

/-- A container of the same shape, with the same pairs in any order. -/
structure Reordered (o o' : Options) : Prop where
  shape : o'.shape = o.shape
  pairs : o.pairs.Perm o'.pairs

theorem unknown_perm (hp : es.Perm es') (ho : o.Reordered o') (h : unknown es o = []) :
    unknown es' o' = [] := by
  rw [unknown_eq_nil_iff]
  intro p hmem
  exact (unknown_eq_nil_iff.1 h p (ho.pairs.mem_iff.2 hmem)).perm hp

theorem Settled.perm (h : Settled acceptance redact es o kvs) (hes : Entry.DistinctKeys es)
    (hp : es.Perm es') (ho : o.Reordered o') (hd : Pairs.Distinct o.pairs) :
    ∃ kvs', kvs.Perm kvs' ∧ Settled acceptance redact es' o' kvs' := by
  have hexpand : (Entry.expand es (Pairs.keys o.pairs)).Perm
      (Entry.expand es' (Pairs.keys o'.pairs)) :=
    Entry.expand_perm hes hp (Pairs.pairwise_keys _) (Pairs.keys_perm hd ho.pairs)
  let kvs' := (Entry.expand es' (Pairs.keys o'.pairs)).filterMap fun d =>
    (Pairs.find? kvs d.1).map (d.1, ·)
  have hkvs : kvs.Perm kvs' := (List.Perm.of_eq h.values).trans (hexpand.filterMap _)
  have hfind : ∀ k, Pairs.find? kvs' k = Pairs.find? kvs k := fun k =>
    (Pairs.find?_perm (h.distinct hes) hkvs k).symm
  refine ⟨kvs', hkvs, fun d hmem => ?_, ?_⟩
  · -- Whether an option is settled does not depend on the keys received so far.
    rw [hfind, ← Pairs.find?_perm hd ho.pairs]
    have hsettle := h.settles d (hexpand.mem_iff.2 hmem)
    exact OptionSpec.settle_eq_ok.2 (OptionSpec.settle_eq_ok.1 hsettle)
  · simp only [hfind]
    rfl

theorem Reordered.symm (h : o.Reordered o') : o'.Reordered o :=
  ⟨h.shape.symm, h.pairs.symm⟩

def named (ps : List (Value × Value)) : List (String × Value) :=
  ps.map fun p => (p.1.fieldName, p.2)

theorem distinct_named {ps : List (Value × Value)} :
    Pairs.Distinct (named ps) ↔ (ps.map fun p => p.1.fieldName).Nodup := by
  unfold Pairs.Distinct named List.Nodup
  rw [List.pairwise_map, List.pairwise_map]
  simp only [beq_eq_false_iff_ne]

theorem distinct_named_of_atoms {ps : List (Value × Value)} (hd : Pairs.Distinct ps)
    (hatom : ∀ p ∈ ps, ∃ name, p.1 = .atom name) : Pairs.Distinct (named ps) := by
  refine List.pairwise_map.2 (hd.imp_of_mem fun {p q} hp hq hne => ?_)
  obtain ⟨name, hname⟩ := hatom p hp
  obtain ⟨name', hname'⟩ := hatom q hq
  rw [hname, hname'] at hne ⊢
  change Value.beq _ _ = false at hne
  simpa [Value.beq, Value.fieldName] using hne

/-- Where the names in two parts of a keyword list are pairwise different in each, the order within
the parts does not matter to what stands under a key. -/
theorem get?_named_perm {ps ps' qs qs' : List (Value × Value)} (hps : Pairs.Distinct (named ps))
    (hqs : Pairs.Distinct (named qs)) (hp : ps.Perm ps') (hq : qs.Perm qs') (key : Value) :
    (Value.keyword (named (ps ++ qs))).get? key =
      (Value.keyword (named (ps' ++ qs'))).get? key := by
  cases key with
  | atom name =>
    change (named (ps ++ qs)).lookup name = (named (ps' ++ qs')).lookup name
    have happend : ∀ ps qs, named (ps ++ qs) = named ps ++ named qs := fun _ _ => List.map_append
    simp only [← Pairs.find?_eq_lookup, happend, Pairs.find?_append]
    rw [Pairs.find?_perm hps (hp.map _), Pairs.find?_perm hqs (hq.map _)]
    rfl
  | _ => rfl

theorem distinct_named_updated (ho : o.WellShaped) (hshape : o.shape = .keyword)
    (hd : Pairs.Distinct (Pairs.updated kvs o.pairs)) :
    Pairs.Distinct (named (Pairs.updated kvs o.pairs)) := by
  refine distinct_named_of_atoms hd fun p hp => ?_
  obtain ⟨q, hq, hp⟩ := List.mem_filterMap.1 hp
  obtain ⟨v, -, rfl⟩ := Option.map_eq_some_iff.1 hp
  exact ho hshape q (Pairs.mem_of_mem_firsts hq)

theorem Settled.distinct_named_added (h : Settled acceptance redact es o kvs)
    (hknown : unknown es o = [])
    (hnames : ((fillable es o).map fun d => d.1.fieldName).Nodup) :
    Pairs.Distinct (named (Pairs.added kvs o.pairs)) := by
  have hnan : ∀ p ∈ o.pairs, p.1.hasNaN = false := fun p hp =>
    (unknown_eq_nil_iff.1 hknown p hp).1
  have hsame : List.Forall₂ (· = ·) ((fillable es o).map fun d => d.1.fieldName)
      ((Pairs.added kvs o.pairs).map fun p => p.1.fieldName) := by
    rw [List.forall₂_map_left_iff, List.forall₂_map_right_iff]
    exact (h.added_verdicts hnan).imp fun d p hp => by rw [hp.1]
  rw [List.forall₂_eq_eq_eq] at hsame
  rw [distinct_named, ← hsame]
  exact hnames

theorem accept_perm (hes : Entry.Regular es) (hp : es.Perm es') (ho : o.Reordered o')
    (hd : Pairs.Distinct o.pairs) (hshaped : o.WellShaped) {n : Value}
    (h : (o.accept acceptance redact es).result = .ok n) :
    ∃ m m' : Options, n = m.toValue ∧ (o'.accept acceptance redact es').result = .ok m'.toValue ∧
      m.Reordered m' ∧
      ((o.shape = .keyword → ((fillable es o).map fun d => d.1.fieldName).Nodup) →
        ∀ key, m.toValue.get? key = m'.toValue.get? key) := by
  have hes' : Entry.Regular es' := hes.perm hp
  obtain ⟨hknown, kvs, hsettled, rfl⟩ := (accept_eq_ok hes).1 h
  have hknown' : unknown es' o' = [] := unknown_perm hp ho hknown
  obtain ⟨kvs', hkvs, hsettled'⟩ := hsettled.perm hes.distinct hp ho hd
  have hfind := fun k => Pairs.find?_perm (hsettled.distinct hes.distinct) hkvs k
  have hupdated := Pairs.updated_perm hd ho.pairs hfind
  have hadded := Pairs.added_perm hd ho.pairs hkvs
  have hdistinct : Pairs.Distinct (Pairs.storeAll kvs o.pairs) :=
    Pairs.distinct_storeAll (hsettled.distinct hes.distinct) fun _ hp =>
      hsettled.isSome_find? hknown hp
  rw [hsettled.storeAll_eq hes.distinct hknown] at hdistinct ⊢
  refine ⟨_, _, rfl, (accept_eq_ok hes').2 ⟨hknown', kvs', hsettled', rfl⟩, ?_, ?_⟩
  · rw [hsettled'.storeAll_eq hes'.distinct hknown']
    exact ⟨ho.shape, hupdated.append hadded⟩
  · intro hnames key
    rw [hsettled'.storeAll_eq hes'.distinct hknown']
    obtain ⟨shape, pairs⟩ := o
    obtain ⟨shape', pairs'⟩ := o'
    cases ho.shape
    cases shape with
    | map => exact Pairs.find?_perm hdistinct (hupdated.append hadded) key
    | keyword =>
      have hgiven := distinct_named_updated hshaped rfl (List.pairwise_append.1 hdistinct).1
      have hfilled := hsettled.distinct_named_added hknown (hnames rfl)
      exact get?_named_perm hgiven hfilled hupdated hadded key

end Options

namespace Schema

variable {host : Host} {fuel : Nat} {s s' : Schema} {es es' : List Entry} {v v' : Value}
variable {o o' : Options}

/-- Let a schema have pairwise different keys and no renamed options, and options pairwise different
keys. In any order of the entries and of the options they are accepted or not, and the normal forms
hold the same pairs. They hold the same under each key, in a keyword list if no two options are
filled in under the same name. -/
theorem accept_reordered (redact : Bool) (hes : s.resolve? host fuel = some es)
    (hes' : s'.resolve? host fuel = some es') (hregular : Entry.Regular es) (hp : es.Perm es')
    (ho : Options.ofValue? v = some o) (ho' : Options.ofValue? v' = some o')
    (hd : Pairs.Distinct o.pairs) (hreordered : o.Reordered o') :
    ((∃ n, (s.accept host (fuel + 1) v redact).result = .ok n) ↔
      ∃ n', (s'.accept host (fuel + 1) v' redact).result = .ok n') ∧
    ∀ n n', (s.accept host (fuel + 1) v redact).result = .ok n →
      (s'.accept host (fuel + 1) v' redact).result = .ok n' →
      (∃ m m' : Options, n = m.toValue ∧ n' = m'.toValue ∧ m.Reordered m') ∧
      ((o.shape = .keyword → ((Options.fillable es o).map fun d => d.1.fieldName).Nodup) →
        ∀ key, n.get? key = n'.get? key) := by
  have haccept : s.accept host (fuel + 1) v redact =
      o.accept (OptionType.accept host fuel) redact es := by
    rw [accept_succ, ho, hes]
    rfl
  have haccept' : s'.accept host (fuel + 1) v' redact =
      o'.accept (OptionType.accept host fuel) redact es' := by
    rw [accept_succ, ho', hes']
    rfl
  have hshaped : o.WellShaped := Options.wellShaped_of_ofValue? ho
  have hshaped' : o'.WellShaped := Options.wellShaped_of_ofValue? ho'
  rw [haccept, haccept']
  refine ⟨⟨?_, ?_⟩, fun n n' hn hn' => ?_⟩
  · rintro ⟨n, hn⟩
    obtain ⟨-, m', -, hm', -⟩ := Options.accept_perm hregular hp hreordered hd hshaped hn
    exact ⟨_, hm'⟩
  · -- The other direction is the first one, with the two orders exchanged.
    rintro ⟨n', hn'⟩
    obtain ⟨-, m, -, hm, -⟩ := Options.accept_perm (hregular.perm hp) hp.symm hreordered.symm
      (hd.perm hreordered.pairs) hshaped' hn'
    exact ⟨_, hm⟩
  · obtain ⟨m, m', rfl, hm', hpairs, hget⟩ :=
      Options.accept_perm hregular hp hreordered hd hshaped hn
    cases hn'.symm.trans hm'
    exact ⟨⟨m, m', rfl, rfl, hpairs⟩, hget⟩

end Schema

def serverFields : List (String × Value) := [("tags", .list [.nil]), ("port", .integer 80)]

theorem reordered_server :
    (Schema.accept serverHost 9 (.entries serverEntries) (.keyword serverFields) false).result =
      .ok (.keyword (serverFields ++ [("host", .string "localhost")])) ∧
    ∃ n, (Schema.accept serverHost 9 (.entries serverEntries.reverse)
        (.keyword serverFields.reverse) false).result = .ok n ∧
      ∀ key, (Value.keyword (serverFields ++ [("host", .string "localhost")])).get? key =
        n.get? key := by
  have hregular : Entry.Regular serverEntries := ⟨by decide, by decide⟩
  have hdistinct : Pairs.Distinct (serverFields.map fun f => (Value.atom f.1, f.2)) := by
    simp only [Pairs.Distinct, serverFields, List.map_cons, List.map_nil, List.pairwise_pair]
    change Value.beq _ _ = false
    simp [Value.beq]
  have hperm : (serverFields.map fun f => (Value.atom f.1, f.2)).Perm
      (serverFields.reverse.map fun f => (Value.atom f.1, f.2)) :=
    (List.reverse_perm serverFields).symm.map _
  have hreordered : Options.Reordered ⟨.keyword, serverFields.map fun f => (.atom f.1, f.2)⟩
      ⟨.keyword, serverFields.reverse.map fun f => (.atom f.1, f.2)⟩ :=
    ⟨rfl, hperm⟩
  have hfillable : (Options.fillable serverEntries
      ⟨.keyword, serverFields.map fun f => (.atom f.1, f.2)⟩).map (fun d => d.1.fieldName) =
      ["host"] := by
    with_unfolding_all rfl
  have haccept : (Schema.accept serverHost 9 (.entries serverEntries) (.keyword serverFields)
      false).result = .ok (.keyword (serverFields ++ [("host", .string "localhost")])) := by
    with_unfolding_all rfl
  have hread : ∀ fields, Options.ofValue? (.keyword fields) =
      some ⟨.keyword, fields.map fun f => (.atom f.1, f.2)⟩ := fun _ => rfl
  obtain ⟨hiff, hsame⟩ := Schema.accept_reordered false (Schema.resolve?_entries serverHost 8 _)
    (Schema.resolve?_entries serverHost 8 _) hregular (List.reverse_perm serverEntries).symm
    (hread serverFields) (hread serverFields.reverse) hdistinct hreordered
  obtain ⟨n, hn⟩ := hiff.1 ⟨_, haccept⟩
  refine ⟨haccept, n, hn, (hsame _ n haccept hn).2 fun _ => ?_⟩
  rw [hfillable]
  exact List.nodup_singleton _

/-- A mode that is an atom, and one that is a string, each with a default of its own. -/
def modeEntries : List Entry := [
  ⟨.atom "mode", { type := .basic .any, default? := some (.integer 1) }⟩,
  ⟨.string "mode", { type := .basic .any, default? := some (.integer 2) }⟩]

/-- In a keyword list both modes are filled in under one name, and the first of them counts. -/
theorem modeEntries_order :
    Entry.Regular modeEntries ∧
    (Schema.accept serverHost 9 (.entries modeEntries) (.keyword []) false).result =
      .ok (.keyword [("mode", .integer 1), ("mode", .integer 2)]) ∧
    (Schema.accept serverHost 9 (.entries modeEntries.reverse) (.keyword []) false).result =
      .ok (.keyword [("mode", .integer 2), ("mode", .integer 1)]) ∧
    (Value.keyword [("mode", .integer 1), ("mode", .integer 2)]).get? (.atom "mode") ≠
      (Value.keyword [("mode", .integer 2), ("mode", .integer 1)]).get? (.atom "mode") := by
  refine ⟨⟨by decide, by decide⟩, by with_unfolding_all rfl, by with_unfolding_all rfl, ?_⟩
  simp [Value.get?]

end Conform
