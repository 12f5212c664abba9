import Conform.Proofs.Acceptance.Renaming

namespace Conform

variable {acceptance : Acceptance} {redact : Bool}

namespace Options

/-- An option leads to a key if it is renamed to the key, or to another option that leads there. -/
inductive Leads (declared : List (Value × OptionSpec)) (k : Value) : Value × OptionSpec → Prop where
  | direct {d target} : d ∈ declared → d.2.renameTo? = some target → .atom target = k →
      Leads declared k d
  | chain {d next target} : d ∈ declared → d.2.renameTo? = some target → next.1 = .atom target →
      Leads declared k next → Leads declared k d

variable {declared : List (Value × OptionSpec)} {k given : Value} {d : Value × OptionSpec}
  {ps ps' : List (Value × Value)}

theorem Leads.mem (h : Leads declared k d) : d ∈ declared := by
  cases h with
  | direct hd _ _ | chain hd _ _ _ => exact hd

theorem Leads.ne_none (h : Leads declared k d) : d.2.renameTo? ≠ none := by
  cases h with
  | direct _ htarget _ | chain _ htarget _ _ => simp [htarget]

/-- A value is held under the key, and the options that lead to it have neither a value nor a
default. -/
structure Untouched (declared : List (Value × OptionSpec)) (k given : Value)
    (ps : List (Value × Value)) : Prop where
  held : Pairs.find? ps k = some given
  absent : ∀ d, Leads declared k d → Pairs.find? ps d.1 = none
  default : ∀ d, Leads declared k d → d.2.default? = none

theorem eq_of_accept (hnone : Pairs.find? ps d.1 = none) (hdefault : d.2.default? = none)
    (h : (d.2.accept acceptance redact d.1 ps).result = .ok ps') : ps' = ps := by
  rcases OptionSpec.accept_eq_ok.1 h with ⟨-, rfl⟩ | ⟨_, _, _, hsupply, -, -⟩
  · rfl
  · rcases OptionSpec.supply_eq_some hsupply with ⟨hfind, -⟩ | ⟨-, hsome, -⟩
    · rw [hnone] at hfind
      cases hfind
    · rw [hdefault] at hsome
      cases hsome

theorem find?_of_leads (hdistinct : Pairs.Distinct declared) (hd : d ∈ declared)
    (hleads : ¬Leads declared k d) (h : (d.2.accept acceptance redact d.1 ps).result = .ok ps')
    {d' : Value × OptionSpec} (hd' : Leads declared k d') :
    Pairs.find? ps' d'.1 = Pairs.find? ps d'.1 := by
  refine OptionSpec.find?_accept h (hdistinct.ne_of_mem hd hd'.mem ?_) fun target htarget => ?_
  · rintro rfl
    exact hleads hd'
  · rw [Bool.eq_false_iff]
    intro hbeq
    exact hleads (.chain hd htarget (SchemaKey.eq_of_beq (k := .atom target) rfl hbeq) hd')

namespace Untouched

theorem accept (hps : Untouched declared k given ps) (hdistinct : Pairs.Distinct declared)
    (hd : d ∈ declared) (hk : (d.1 == k) = false)
    (h : (d.2.accept acceptance redact d.1 ps).result = .ok ps') :
    Untouched declared k given ps' := by
  by_cases hleads : Leads declared k d
  · rwa [eq_of_accept (hps.absent d hleads) (hps.default d hleads) h]
  · have hheld : Pairs.find? ps' k = some given := by
      rw [OptionSpec.find?_accept h hk fun target htarget => ?_, hps.held]
      rw [Bool.eq_false_iff]
      intro hbeq
      exact hleads (.direct hd htarget (SchemaKey.eq_of_beq (k := .atom target) rfl hbeq).symm)
    refine ⟨hheld, fun d' hd' => ?_, hps.default⟩
    rw [find?_of_leads hdistinct hd hleads h hd', hps.absent d' hd']

theorem acceptAll {ds : List (Value × OptionSpec)} (hps : Untouched declared k given ps)
    (hdistinct : Pairs.Distinct declared) (hds : ∀ d ∈ ds, d ∈ declared ∧ (d.1 == k) = false)
    (h : (acceptAll acceptance redact ds ps).result = .ok ps') :
    Untouched declared k given ps' := by
  refine Run.foldlM_invariant (Untouched declared k given) ?_ hps h
  intro d hd pairs pairs' hpairs hstep
  exact hpairs.accept hdistinct (hds d hd).1 (hds d hd).2 hstep

theorem turn (hps : Untouched declared d.1 given ps) (hdistinct : Pairs.Distinct declared)
    (hd : d ∈ declared) (hkey : (d.1 == d.1) = true) (hname : d.2.renameTo? = none)
    (h : (d.2.accept acceptance redact d.1 ps).result = .ok ps') :
    ∃ w, (acceptance d.2.effectiveType (.option d.1) given ⟨d.1, redact || d.2.redact⟩).result =
      .ok w ∧ Untouched declared d.1 w ps' := by
  have hleads : ¬Leads declared d.1 d := fun hd' => hd'.ne_none hname
  have habsent : ∀ d', Leads declared d.1 d' → Pairs.find? ps' d'.1 = none := fun d' hd' => by
    rw [find?_of_leads hdistinct hd hleads h hd', hps.absent d' hd']
  have hsupply : (d.2.supply d.1 ps).result = .ok (some (given, ps)) :=
    OptionSpec.supply_of_find? hps.held
  rcases OptionSpec.accept_eq_ok.1 h with ⟨hnone, -⟩ | ⟨v, supplied, w, hsome, haccepted, rfl⟩
  · cases hnone.symm.trans hsupply
  · cases hsome.symm.trans hsupply
    exact ⟨w, haccepted, OptionSpec.find?_place_self hname hkey, habsent, hps.default⟩

theorem accepted (hps : Untouched declared d.1 given ps) (hdistinct : Pairs.Distinct declared)
    (hd : d ∈ declared) (hkey : (d.1 == d.1) = true) (hname : d.2.renameTo? = none)
    (h : (Options.acceptAll acceptance redact declared ps).result = .ok ps') :
    ∃ w, (acceptance d.2.effectiveType (.option d.1) given ⟨d.1, redact || d.2.redact⟩).result =
      .ok w ∧ Pairs.find? ps' d.1 = some w := by
  obtain ⟨before, after, rfl⟩ := List.append_of_mem hd
  obtain ⟨held, hbefore, hrest⟩ := acceptAll_append_eq_ok.1 h
  obtain ⟨stored, hstep, hafter⟩ := acceptAll_cons_eq_ok.1 hrest
  obtain ⟨-, hds, hcross⟩ := List.pairwise_append.1 hdistinct
  -- The other options, before and after, leave the value alone.
  have hheld : Untouched _ d.1 given held := hps.acceptAll hdistinct
    (fun d' hd' => ⟨by simp [hd'], hcross d' hd' d (by simp)⟩) hbefore
  obtain ⟨w, haccepted, hstored⟩ := hheld.turn hdistinct hd hkey hname hstep
  have hfinal : Untouched _ d.1 w ps' := hstored.acceptAll hdistinct
    (fun d' hd' => ⟨by simp [hd'], Pairs.Distinct.ne_of_cons hds hd'⟩) hafter
  exact ⟨w, haccepted, hfinal.held⟩

end Untouched

section

variable {name : String}

theorem AtomFirst.append (h : AtomFirst name ps) (hsome : (Pairs.find? ps (.atom name)).isSome)
    (qs : List (Value × Value)) : AtomFirst name (ps ++ qs) := by
  induction h with
  | nil => cases hsome
  | here => exact .here
  | later hp _ ih =>
    rw [Pairs.find?_cons, ne_atom_of_fieldName hp] at hsome
    exact .later hp (ih hsome)

theorem AtomFirst.erase (h : AtomFirst name ps) {key : Value}
    (hkey : (key == Value.atom name) = false) : AtomFirst name (Pairs.erase key ps) := by
  induction h with
  | nil => exact .nil
  | here =>
    rw [Pairs.erase_cons, BEq.comm, hkey]
    exact .here
  | later hp _ ih =>
    rw [Pairs.erase_cons]
    split
    · exact ih
    · exact .later hp ih

theorem AtomFirst.store (h : AtomFirst name ps) (hsome : (Pairs.find? ps (.atom name)).isSome)
    (key v : Value) : AtomFirst name (Pairs.store key v ps) := by
  induction h with
  | nil => cases hsome
  | here =>
    unfold Pairs.store
    split <;> exact .here
  | later hp h ih =>
    have hne := ne_atom_of_fieldName hp
    rw [Pairs.find?_cons, hne] at hsome
    unfold Pairs.store
    split
    next hbeq => exact .later hp (h.erase (by rw [← BEq.congr_left hbeq, hne]))
    next => exact .later hp (ih hsome)

theorem AtomFirst.accept (h : AtomFirst name ps) (hsome : (Pairs.find? ps (.atom name)).isSome)
    (hkept : (d.1 == Value.atom name) = true → d.2.renameTo? = none)
    (hstep : (d.2.accept acceptance redact d.1 ps).result = .ok ps') :
    AtomFirst name ps' ∧ (Pairs.find? ps' (.atom name)).isSome := by
  have hstore : ∀ key v ps, AtomFirst name ps → (Pairs.find? ps (.atom name)).isSome →
      AtomFirst name (Pairs.store key v ps) ∧
        (Pairs.find? (Pairs.store key v ps) (.atom name)).isSome := by
    intro key v ps h hsome
    refine ⟨h.store hsome key v, ?_⟩
    cases hkey : key == Value.atom name with
    | true =>
      rw [Pairs.find?_store_self _ _ hkey]
      rfl
    | false => rwa [Pairs.find?_store_of_ne _ _ hkey]
  rcases OptionSpec.accept_eq_ok.1 hstep with ⟨-, rfl⟩ | ⟨given, supplied, w, hsupply, -, rfl⟩
  · exact ⟨h, hsome⟩
  · have hsupplied : AtomFirst name supplied ∧ (Pairs.find? supplied (.atom name)).isSome := by
      rcases OptionSpec.supply_eq_some hsupply with ⟨-, rfl⟩ | ⟨-, -, rfl⟩
      · exact ⟨h, hsome⟩
      · refine ⟨h.append hsome _, ?_⟩
        rw [Pairs.find?_append, Option.isSome_or, hsome, Bool.true_or]
    unfold OptionSpec.place
    split
    next target htarget =>
      -- What is moved away is not the atom's own value.
      have hne : (d.1 == Value.atom name) = false := by
        rw [Bool.eq_false_iff]
        intro hbeq
        rw [hkept hbeq] at htarget
        cases htarget
      refine hstore _ _ _ (hsupplied.1.erase hne) ?_
      rw [Pairs.find?_erase_of_ne _ hne]
      exact hsupplied.2
    next => exact hstore _ _ _ hsupplied.1 hsupplied.2

theorem AtomFirst.acceptAll (h : AtomFirst name ps) (hsome : (Pairs.find? ps (.atom name)).isSome)
    (hkept : ∀ d ∈ declared, (d.1 == Value.atom name) = true → d.2.renameTo? = none)
    (hfinal : (acceptAll acceptance redact declared ps).result = .ok ps') : AtomFirst name ps' := by
  refine (Run.foldlM_invariant (fun pairs => AtomFirst name pairs ∧
    (Pairs.find? pairs (.atom name)).isSome) ?_ ⟨h, hsome⟩ hfinal).1
  intro d hd pairs pairs' hpairs hstep
  exact hpairs.1.accept hpairs.2 (hkept d hd) hstep

end

theorem get?_of_present {o : Options} (ho : o.WellShaped)
    (hpresent : (Pairs.find? o.pairs k).isSome)
    (hkept : ∀ d ∈ declared, (d.1 == k) = true → d.2.renameTo? = none)
    (h : (Options.acceptAll acceptance redact declared o.pairs).result = .ok ps') :
    ({ o with pairs := ps' } : Options).toValue.get? k = Pairs.find? ps' k := by
  obtain ⟨shape, pairs⟩ := o
  cases shape with
  | map => rfl
  | keyword =>
    obtain ⟨p, hp, hpk⟩ := Pairs.isSome_find?.1 hpresent
    obtain ⟨name, hname⟩ := ho rfl p hp
    rw [hname] at hpk
    obtain rfl := SchemaKey.eq_of_beq (k := .atom name) rfl hpk
    have hfirst : AtomFirst name pairs := atomFirst_of_forall fun q hq hfield => by
      obtain ⟨m, hm⟩ := ho rfl q hq
      rw [hm] at hfield ⊢
      exact congrArg Value.atom hfield
    exact (hfirst.acceptAll hpresent hkept h).get?

end Options

namespace Schema

variable {host : Host} {fuel : Nat} {c : Compiled} {es : List Entry}

/-- A supplied value is never replaced, as long as no default is moved over it. Let an option have
an entry of its own without renaming, and let a value be given for it and for no option that leads
to it by renaming. Where those have no defaults either, the normal options hold for it what its type
makes of the value given. -/
theorem supplied_accepted (hes : c.schema.Resolves host es) (hd : Entry.DistinctKeys es)
    {v n : Value} {o : Options} (ho : Options.ofValue? v = some o)
    (h : (c.validate host (fuel + 1) v).result = .ok n) {e : Entry} (he : e ∈ es) {key : Value}
    (hkey : e.key.option? = some key) (hname : e.spec.renameTo? = none) {given : Value}
    (hgiven : Pairs.find? o.pairs key = some given)
    (hothers : ∀ d, Options.Leads (Entry.expand es (Pairs.keys o.pairs)) key d →
      Pairs.find? o.pairs d.1 = none)
    (hdefault : ∀ d, Options.Leads (Entry.expand es (Pairs.keys o.pairs)) key d →
      d.2.default? = none) :
    ∃ accepted, (OptionType.accept host fuel e.spec.effectiveType (.option key) given
        ⟨key, e.spec.redact⟩).result = .ok accepted ∧
      n.get? key = some accepted := by
  change (c.schema.accept host (fuel + 1) v false).result = .ok n at h
  rw [accept_succ, ho] at h
  obtain ⟨es', hes', h⟩ := Run.bind_eq_ok.1 h
  cases (resolves_of_resolve? (Run.ofOption_eq_ok.1 hes')).unique hes
  obtain ⟨hknown, final, hfinal, rfl⟩ := Options.acceptAll_of_accept h
  have hkeys := Pairs.pairwise_keys o.pairs
  have hdistinct := Entry.distinct_expand hd hkeys
  have hself := SchemaKey.beq_self_of_option? hkey
  have hmem := Entry.mem_expand_of_explicit _ he hkey hkeys
  have hstart : Options.Untouched _ key given o.pairs := ⟨hgiven, hothers, hdefault⟩
  obtain ⟨w, haccepted, hw⟩ :=
    hstart.accepted (d := (key, e.spec)) hdistinct hmem hself hname hfinal
  refine ⟨w, haccepted, ?_⟩
  -- The name of a present option stands first in a keyword list, as what is filled in comes last.
  rw [Options.get?_of_present (Options.wellShaped_of_ofValue? ho) (by rw [hgiven]; rfl) ?_ hfinal]
  · exact hw
  · intro d hd' hbeq
    by_cases hsame : d = (key, e.spec)
    · rw [hsame]
      exact hname
    · rw [hdistinct.ne_of_mem hd' hmem hsame] at hbeq
      cases hbeq

end Schema

/-- An option that is called otherwise by now, perhaps with a default. -/
def oldEntries (default? : Option Value) : List Entry := [
  ⟨.atom "old", { type := .basic .integer, default?, renameTo? := some "new" }⟩,
  ⟨.atom "new", .ofType (.basic .integer)⟩]

def newPairs : List (Value × Value) := [(.atom "new", .integer 5)]

theorem oldEntries_supplied : Entry.DistinctKeys (oldEntries none) ∧ ∃ n accepted,
    (Compiled.validate .bare 10 ⟨.entries (oldEntries none)⟩
      (.keyword [("new", .integer 5)])).result = .ok n ∧
    (OptionType.accept .bare 9 (.basic .integer) (.option (.atom "new")) (.integer 5)
      ⟨.atom "new", false⟩).result = .ok accepted ∧
    n.get? (.atom "new") = some accepted := by
  have hdistinct : Entry.DistinctKeys (oldEntries none) := by
    unfold Entry.DistinctKeys
    decide
  have hresult : (Compiled.validate .bare 10 ⟨.entries (oldEntries none)⟩
      (.keyword [("new", .integer 5)])).result = .ok (.keyword [("new", .integer 5)]) := by
    with_unfolding_all rfl
  have hgiven : Pairs.find? newPairs (.atom "new") = some (.integer 5) := by with_unfolding_all rfl
  have hexpand : Entry.expand (oldEntries none) (Pairs.keys newPairs) =
      [(.atom "old", { type := .basic .integer, renameTo? := some "new" }),
        (.atom "new", .ofType (.basic .integer))] := by
    with_unfolding_all rfl
  have hrenamed : ∀ d ∈ Entry.expand (oldEntries none) (Pairs.keys newPairs),
      d.2.renameTo? ≠ none → Pairs.find? newPairs d.1 = none ∧ d.2.default? = none := by
    rw [hexpand]
    simp only [List.mem_cons, List.not_mem_nil, or_false]
    rintro d (rfl | rfl) hname
    · exact ⟨by with_unfolding_all rfl, rfl⟩
    · exact absurd rfl hname
  obtain ⟨accepted, haccepted, hget⟩ := Schema.supplied_accepted
    (e := ⟨.atom "new", .ofType (.basic .integer)⟩) (o := ⟨.keyword, newPairs⟩) (.entries _)
    hdistinct rfl hresult (by simp [oldEntries]) rfl rfl hgiven
    (fun d hd => (hrenamed d hd.mem hd.ne_none).1) fun d hd => (hrenamed d hd.mem hd.ne_none).2
  exact ⟨hdistinct, _, accepted, hresult, haccepted, hget⟩

/-- A default that is moved replaces the value that was given. -/
theorem oldEntries_replaced :
    (Schema.compile .bare 60 (.entries (oldEntries (some (.integer 1))))).result =
      .ok ⟨.entries (oldEntries (some (.integer 1)))⟩ ∧
    (Compiled.validate .bare 10 ⟨.entries (oldEntries (some (.integer 1)))⟩
      (.keyword [("new", .integer 5)])).result = .ok (.keyword [("new", .integer 1)]) ∧
    (OptionType.accept .bare 9 (.basic .integer) (.option (.atom "new")) (.integer 5)
      ⟨.atom "new", false⟩).result = .ok (.integer 5) :=
  ⟨by with_unfolding_all rfl, by with_unfolding_all rfl, by with_unfolding_all rfl⟩

end Conform
