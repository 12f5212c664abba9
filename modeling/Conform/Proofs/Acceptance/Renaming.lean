import Conform.Proofs.Acceptance.Idempotence
import Conform.Proofs.Compiled.Placement

namespace Conform

variable {acceptance : Acceptance} {redact : Bool}

namespace OptionSpec

variable {spec : OptionSpec} {key : Value} {pairs : List (Value × Value)}

theorem accept_eq_ok {pairs' : List (Value × Value)} :
    (spec.accept acceptance redact key pairs).result = .ok pairs' ↔
      (spec.supply key pairs).result = .ok none ∧ pairs' = pairs ∨
        ∃ given supplied accepted, (spec.supply key pairs).result = .ok (some (given, supplied)) ∧
          (acceptance spec.effectiveType (.option key) given ⟨key, redact || spec.redact⟩).result =
            .ok accepted ∧ pairs' = spec.place key accepted supplied := by
  rw [accept_eq_bind, Run.bind_eq_ok]
  constructor
  · rintro ⟨_ | ⟨given, supplied⟩, hsupply, h⟩
    · cases h
      exact .inl ⟨hsupply, rfl⟩
    · obtain ⟨accepted, haccepted, rfl⟩ := Run.map_eq_ok.1 h
      rw [result_acceptValue] at haccepted
      exact .inr ⟨given, supplied, accepted, hsupply, haccepted, rfl⟩
  · rintro (⟨hsupply, rfl⟩ | ⟨given, supplied, accepted, hsupply, haccepted, rfl⟩)
    · exact ⟨none, hsupply, rfl⟩
    · refine ⟨some (given, supplied), hsupply, Run.map_eq_ok.2 ⟨accepted, ?_, rfl⟩⟩
      rw [result_acceptValue]
      exact haccepted

theorem supply_eq_some {given : Value} {supplied : List (Value × Value)}
    (h : (spec.supply key pairs).result = .ok (some (given, supplied))) :
    Pairs.find? pairs key = some given ∧ supplied = pairs ∨
      Pairs.find? pairs key = none ∧ spec.default? = some given ∧
        supplied = pairs ++ [(key, given)] := by
  unfold supply at h
  split at h
  next v hv =>
    cases h
    exact .inl ⟨hv, rfl⟩
  next hnone =>
    split at h
    · cases h
    · split at h
      next v hv =>
        cases h
        exact .inr ⟨hnone, hv, rfl⟩
      next => cases h

theorem supply_eq_none (h : (spec.supply key pairs).result = .ok none) :
    Pairs.find? pairs key = none := by
  unfold supply at h
  split at h
  next => cases h
  next hnone => exact hnone

theorem default?_of_supply_eq_none (h : (spec.supply key pairs).result = .ok none) :
    spec.default? = none := by
  unfold supply at h
  split at h
  · cases h
  · split at h
    · cases h
    · split at h
      next => cases h
      next hdefault => exact hdefault

theorem supply_of_find? {given : Value} (h : Pairs.find? pairs key = some given) :
    (spec.supply key pairs).result = .ok (some (given, pairs)) := by
  simp [supply, h]

variable {k : Value}

theorem find?_supplied {given : Value} {supplied : List (Value × Value)}
    (h : (spec.supply key pairs).result = .ok (some (given, supplied)))
    (hk : (key == k) = false) : Pairs.find? supplied k = Pairs.find? pairs k := by
  rcases supply_eq_some h with ⟨-, rfl⟩ | ⟨-, -, rfl⟩
  · rfl
  · rw [Pairs.find?_append, Pairs.find?_cons, hk]
    simp

theorem find?_supplied_self {given : Value} {supplied : List (Value × Value)}
    (h : (spec.supply key pairs).result = .ok (some (given, supplied)))
    (hkey : (key == key) = true) : Pairs.find? supplied key = some given := by
  rcases supply_eq_some h with ⟨hfind, rfl⟩ | ⟨hnone, -, rfl⟩
  · exact hfind
  · rw [Pairs.find?_append, hnone, Pairs.find?_cons, if_pos hkey]
    rfl

theorem find?_place_of_ne {v : Value} (hk : (key == k) = false)
    (htarget : ∀ target, spec.renameTo? = some target → (Value.atom target == k) = false) :
    Pairs.find? (spec.place key v pairs) k = Pairs.find? pairs k := by
  unfold place
  split
  next target ht =>
    rw [Pairs.find?_store_of_ne _ _ (htarget target ht), Pairs.find?_erase_of_ne _ hk]
  next => exact Pairs.find?_store_of_ne _ _ hk

theorem find?_place_target {v : Value} {target : String} (h : spec.renameTo? = some target) :
    Pairs.find? (spec.place key v pairs) (.atom target) = some v := by
  unfold place
  rw [h]
  exact Pairs.find?_store_self _ _ (Value.beq_self_iff.2 rfl)

theorem find?_place_self {v : Value} (h : spec.renameTo? = none) (hkey : (key == key) = true) :
    Pairs.find? (spec.place key v pairs) key = some v := by
  unfold place
  rw [h]
  exact Pairs.find?_store_self _ _ hkey

theorem find?_place_moved {v : Value} {target : String} (h : spec.renameTo? = some target)
    (hne : (Value.atom target == key) = false) :
    Pairs.find? (spec.place key v pairs) key = none := by
  unfold place
  rw [h]
  dsimp only
  rw [Pairs.find?_store_of_ne _ _ hne, Pairs.find?_erase_self]

theorem find?_accept {pairs' : List (Value × Value)}
    (h : (spec.accept acceptance redact key pairs).result = .ok pairs') (hk : (key == k) = false)
    (htarget : ∀ target, spec.renameTo? = some target → (Value.atom target == k) = false) :
    Pairs.find? pairs' k = Pairs.find? pairs k := by
  rcases accept_eq_ok.1 h with ⟨-, rfl⟩ | ⟨given, supplied, accepted, hsupply, -, rfl⟩
  · rfl
  · rw [find?_place_of_ne hk htarget, find?_supplied hsupply hk]

theorem isSome_find?_accept {pairs' : List (Value × Value)}
    (h : (spec.accept acceptance redact key pairs).result = .ok pairs') (hk : (key == k) = false)
    (hsome : (Pairs.find? pairs k).isSome) : (Pairs.find? pairs' k).isSome := by
  by_cases htarget : ∃ target, spec.renameTo? = some target ∧ (Value.atom target == k) = true
  · obtain ⟨target, ht, htk⟩ := htarget
    rcases accept_eq_ok.1 h with ⟨-, rfl⟩ | ⟨given, supplied, accepted, -, -, rfl⟩
    · exact hsome
    · rw [← Pairs.find?_congr _ htk, find?_place_target ht]
      rfl
  · rw [find?_accept h hk]
    · exact hsome
    · intro target ht
      rw [Bool.eq_false_iff]
      exact fun htk => htarget ⟨target, ht, htk⟩

end OptionSpec

namespace Options

abbrev acceptAll (acceptance : Acceptance) (redact : Bool) (declared : List (Value × OptionSpec))
    (ps : List (Value × Value)) : Run (List (Value × Value)) :=
  declared.foldlM (fun pairs (key, spec) => spec.accept acceptance redact key pairs) ps

/-- The turn of a declared option. When the options before it were treated, a value is supplied for
it; the type of the option accepts this value, and the accepted one is put in its place. -/
inductive Turn (acceptance : Acceptance) (redact : Bool) (declared : List (Value × OptionSpec))
    (ps : List (Value × Value)) (d : Value × OptionSpec) (given accepted : Value) :
    List (Value × Value) → Prop where
  | intro (before after : List (Value × OptionSpec)) (held supplied : List (Value × Value)) :
      declared = before ++ d :: after →
      (acceptAll acceptance redact before ps).result = .ok held →
      (d.2.supply d.1 held).result = .ok (some (given, supplied)) →
      (acceptance d.2.effectiveType (.option d.1) given ⟨d.1, redact || d.2.redact⟩).result =
        .ok accepted →
      Turn acceptance redact declared ps d given accepted (d.2.place d.1 accepted supplied)

variable {declared before after : List (Value × OptionSpec)} {d : Value × OptionSpec}
variable {ps held final : List (Value × Value)}

theorem acceptAll_append_eq_ok :
    (acceptAll acceptance redact (before ++ after) ps).result = .ok final ↔
      ∃ held, (acceptAll acceptance redact before ps).result = .ok held ∧
        (acceptAll acceptance redact after held).result = .ok final := by
  unfold acceptAll
  rw [List.foldlM_append, Run.bind_eq_ok]

theorem acceptAll_cons_eq_ok :
    (acceptAll acceptance redact (d :: after) ps).result = .ok final ↔
      ∃ held, (d.2.accept acceptance redact d.1 ps).result = .ok held ∧
        (acceptAll acceptance redact after held).result = .ok final := by
  unfold acceptAll
  rw [List.foldlM_cons, Run.bind_eq_ok]

theorem acceptAll_append_of_ok (h : (acceptAll acceptance redact before ps).result = .ok held) :
    (acceptAll acceptance redact (before ++ after) ps).result =
      (acceptAll acceptance redact after held).result := by
  unfold acceptAll at h ⊢
  rw [List.foldlM_append, Run.result_bind, h]
  rfl

theorem acceptAll_cons_of_ok (h : (d.2.accept acceptance redact d.1 ps).result = .ok held) :
    (acceptAll acceptance redact (d :: after) ps).result =
      (acceptAll acceptance redact after held).result := by
  unfold acceptAll
  rw [List.foldlM_cons, Run.result_bind, h]
  rfl

theorem acceptAll_cons_of_error {e : Failure}
    (h : (d.2.accept acceptance redact d.1 ps).result = .error e) :
    (acceptAll acceptance redact (d :: after) ps).result = .error e := by
  unfold acceptAll
  rw [List.foldlM_cons, Run.result_bind, h]
  rfl

theorem find?_acceptAll {k : Value} (hne : ∀ d ∈ declared, (d.1 == k) = false)
    (htarget : ∀ d ∈ declared, ∀ target, d.2.renameTo? = some target →
      (Value.atom target == k) = false)
    (h : (acceptAll acceptance redact declared ps).result = .ok final) :
    Pairs.find? final k = Pairs.find? ps k := by
  refine Run.foldlM_invariant (fun pairs => Pairs.find? pairs k = Pairs.find? ps k) ?_ rfl h
  intro d hd pairs pairs' hpairs hstep
  rw [OptionSpec.find?_accept hstep (hne d hd) (htarget d hd), hpairs]

theorem isSome_find?_acceptAll {k : Value} (hne : ∀ d ∈ declared, (d.1 == k) = false)
    (h : (acceptAll acceptance redact declared ps).result = .ok final)
    (hsome : (Pairs.find? ps k).isSome) : (Pairs.find? final k).isSome := by
  refine Run.foldlM_invariant (fun pairs => (Pairs.find? pairs k).isSome) ?_ hsome h
  intro d hd pairs pairs' hpairs hstep
  exact OptionSpec.isSome_find?_accept hstep (hne d hd) hpairs

/-- Every option that is renamed has its target among the options after it. -/
def Forward (declared : List (Value × OptionSpec)) : Prop :=
  ∀ before d after target, declared = before ++ d :: after → d.2.renameTo? = some target →
    ∃ spec, (Value.atom target, spec) ∈ after

theorem Forward.append {ds ws : List (Value × OptionSpec)} (h : Forward ds)
    (hws : ∀ w ∈ ws, w.2.renameTo? = none) : Forward (ds ++ ws) := by
  intro before d after target hd htarget
  have hmem : d ∉ ws := by
    intro hmem
    rw [hws d hmem] at htarget
    cases htarget
  rcases List.append_eq_append_iff.1 hd with ⟨as, -, rfl⟩ | ⟨bs, hds, hafter⟩
  · simp at hmem
  · rcases List.cons_eq_append_iff.1 hafter with ⟨rfl, rfl⟩ | ⟨bs, rfl, rfl⟩
    · simp at hmem
    · obtain ⟨spec, hspec⟩ := h before d bs target hds htarget
      exact ⟨spec, by simp [hspec]⟩

/-- Once an option had its turn nothing is put under its key. -/
theorem find?_final (hdistinct : Pairs.Distinct declared) (hforward : Forward declared)
    (hd : declared = before ++ d :: after)
    (h : (acceptAll acceptance redact after held).result = .ok final) :
    Pairs.find? final d.1 = Pairs.find? held d.1 := by
  rw [hd] at hdistinct
  obtain ⟨-, hafter, hcross⟩ := List.pairwise_append.1 hdistinct
  refine find?_acceptAll (fun d' hd' => ?_) (fun d' hd' target ht => ?_) h
  · exact Pairs.Distinct.ne_of_cons hafter hd'
  · -- The target of a later option is declared later still, so it is another key.
    obtain ⟨mid, rest, rfl⟩ := List.append_of_mem hd'
    obtain ⟨spec, hspec⟩ := hforward (before ++ d :: mid) d' rest target (by simp [hd]) ht
    exact Pairs.Distinct.ne_of_cons (q := (.atom target, spec)) hafter (by simp [hspec])

theorem find?_final_of_renamed (hdistinct : Pairs.Distinct declared) (hforward : Forward declared)
    (h : (acceptAll acceptance redact declared ps).result = .ok final) (hd : d ∈ declared)
    {target : String} (htarget : d.2.renameTo? = some target) :
    Pairs.find? final d.1 = none := by
  obtain ⟨before, after, hdeclared⟩ := List.append_of_mem hd
  rw [hdeclared, acceptAll_append_eq_ok] at h
  obtain ⟨held, -, h⟩ := h
  obtain ⟨held', hstep, hafter⟩ := acceptAll_cons_eq_ok.1 h
  rw [find?_final hdistinct hforward hdeclared hafter]
  rcases OptionSpec.accept_eq_ok.1 hstep with ⟨hnone, rfl⟩ | ⟨given, supplied, w, -, -, rfl⟩
  · exact OptionSpec.supply_eq_none hnone
  · -- The value was moved away to a key that is declared later, so another one.
    obtain ⟨spec, hspec⟩ := hforward before d after target hdeclared htarget
    rw [hdeclared] at hdistinct
    have hne := Pairs.Distinct.ne_of_cons (List.pairwise_append.1 hdistinct).2.1 hspec
    exact OptionSpec.find?_place_moved htarget hne

theorem turn_of_find? (hdistinct : Pairs.Distinct declared) (hforward : Forward declared)
    (h : (acceptAll acceptance redact declared ps).result = .ok final) (hd : d ∈ declared)
    (hkey : (d.1 == d.1) = true) {v : Value} (hv : Pairs.find? final d.1 = some v) :
    ∃ given stored, Turn acceptance redact declared ps d given v stored := by
  obtain ⟨before, after, hdeclared⟩ := List.append_of_mem hd
  have hrun := h
  rw [hdeclared, acceptAll_append_eq_ok] at hrun
  obtain ⟨held, hbefore, hrun⟩ := hrun
  obtain ⟨held', hstep, hafter⟩ := acceptAll_cons_eq_ok.1 hrun
  rw [find?_final hdistinct hforward hdeclared hafter] at hv
  rcases OptionSpec.accept_eq_ok.1 hstep with ⟨hnone, rfl⟩ | ⟨given, supplied, w, hsupply, hw, rfl⟩
  · rw [OptionSpec.supply_eq_none hnone] at hv
    cases hv
  · cases hname : d.2.renameTo? with
    | none =>
      rw [OptionSpec.find?_place_self hname hkey] at hv
      cases hv
      exact ⟨given, _, .intro before after held supplied hdeclared hbefore hsupply hw⟩
    | some target =>
      rw [← find?_final hdistinct hforward hdeclared hafter,
        find?_final_of_renamed hdistinct hforward h hd hname] at hv
      cases hv

theorem Turn.mem {given accepted : Value} {stored : List (Value × Value)}
    (h : Turn acceptance redact declared ps d given accepted stored) : d ∈ declared := by
  obtain ⟨before, after, held, supplied, rfl, -, -, -⟩ := h
  simp

theorem Turn.split {given accepted : Value} {stored : List (Value × Value)}
    (h : Turn acceptance redact declared ps d given accepted stored)
    (hfinal : (acceptAll acceptance redact declared ps).result = .ok final) :
    ∃ before after supplied, declared = before ++ d :: after ∧
      stored = d.2.place d.1 accepted supplied ∧
      (acceptAll acceptance redact (before ++ [d]) ps).result = .ok stored ∧
      (acceptAll acceptance redact after stored).result = .ok final := by
  obtain ⟨before, after, held, supplied, hdeclared, hbefore, hsupply, haccepted⟩ := h
  have hstep : (d.2.accept acceptance redact d.1 held).result =
      .ok (d.2.place d.1 accepted supplied) :=
    OptionSpec.accept_eq_ok.2 (.inr ⟨given, supplied, accepted, hsupply, haccepted, rfl⟩)
  rw [hdeclared, acceptAll_append_eq_ok] at hfinal
  obtain ⟨held', hbefore', hfinal⟩ := hfinal
  cases hbefore.symm.trans hbefore'
  obtain ⟨stored, hstep', hafter⟩ := acceptAll_cons_eq_ok.1 hfinal
  cases hstep.symm.trans hstep'
  refine ⟨before, after, supplied, hdeclared, rfl, ?_, hafter⟩
  exact acceptAll_append_eq_ok.2 ⟨held, hbefore, acceptAll_cons_eq_ok.2 ⟨_, hstep, rfl⟩⟩

theorem Turn.find?_final {given accepted : Value} {stored : List (Value × Value)}
    (h : Turn acceptance redact declared ps d given accepted stored)
    (hdistinct : Pairs.Distinct declared) (hforward : Forward declared)
    (hfinal : (acceptAll acceptance redact declared ps).result = .ok final)
    (hkey : (d.1 == d.1) = true) (hname : d.2.renameTo? = none) :
    Pairs.find? final d.1 = some accepted := by
  obtain ⟨before, after, supplied, hdeclared, hstored, -, hafter⟩ := h.split hfinal
  rw [Options.find?_final hdistinct hforward hdeclared hafter, hstored,
    OptionSpec.find?_place_self hname hkey]

theorem Turn.target {given accepted : Value} {stored : List (Value × Value)}
    (h : Turn acceptance redact declared ps d given accepted stored)
    (hdistinct : Pairs.Distinct declared) (hforward : Forward declared)
    (hfinal : (acceptAll acceptance redact declared ps).result = .ok final) {target : String}
    (htarget : d.2.renameTo? = some target) :
    ∃ spec given' accepted' stored', (Value.atom target, spec) ∈ declared ∧
      Turn acceptance redact declared ps (.atom target, spec) given' accepted' stored' := by
  obtain ⟨before, after, supplied, hdeclared, rfl, hthrough, hafter⟩ := h.split hfinal
  obtain ⟨spec, hspec⟩ := hforward before d after target hdeclared htarget
  obtain ⟨mid, rest, rfl⟩ := List.append_of_mem hspec
  obtain ⟨held, hmid, hrest⟩ := acceptAll_append_eq_ok.1 hafter
  obtain ⟨held', hstep, -⟩ := acceptAll_cons_eq_ok.1 hrest
  -- In between no option has the target as its own key, so the moved value stays or is replaced.
  have hsome : (Pairs.find? held (.atom target)).isSome := by
    refine isSome_find?_acceptAll (fun d' hd' => ?_) hmid ?_
    · rw [hdeclared] at hdistinct
      have hafter := (List.pairwise_append.1 hdistinct).2.1.of_cons
      exact (List.pairwise_append.1 hafter).2.2 d' hd' (.atom target, spec) (by simp)
    · rw [OptionSpec.find?_place_target htarget]
      rfl
  obtain ⟨given', hgiven'⟩ := Option.isSome_iff_exists.1 hsome
  have hsupply : (spec.supply (.atom target) held).result = .ok (some (given', held)) :=
    OptionSpec.supply_of_find? hgiven'
  have hheld : (acceptAll acceptance redact (before ++ [d] ++ mid) ps).result = .ok held :=
    acceptAll_append_eq_ok.2 ⟨_, hthrough, hmid⟩
  rcases OptionSpec.accept_eq_ok.1 hstep with ⟨hnone, -⟩ | ⟨w, ws, accepted', hw, haccepted, -⟩
  · cases hnone.symm.trans hsupply
  · cases hw.symm.trans hsupply
    exact ⟨spec, given', accepted', spec.place (.atom target) accepted' held,
      by simp [hdeclared], .intro _ rest held held (by simp [hdeclared]) hheld hsupply haccepted⟩

theorem accept_eq_acceptAll {es : List Entry} {o : Options} (h : unknown es o = []) :
    o.accept acceptance redact es =
      (fun pairs => ({ o with pairs } : Options).toValue) <$>
        acceptAll acceptance redact (Entry.expand es (Pairs.keys o.pairs)) o.pairs := by
  unfold accept
  rw [← bind_pure_comp]
  exact if_pos (by simpa [unknown] using h)

theorem acceptAll_of_accept {es : List Entry} {o : Options} {n : Value}
    (h : (o.accept acceptance redact es).result = .ok n) :
    unknown es o = [] ∧ ∃ final,
      (acceptAll acceptance redact (Entry.expand es (Pairs.keys o.pairs)) o.pairs).result =
        .ok final ∧ n = ({ o with pairs := final } : Options).toValue := by
  by_cases hunknown : unknown es o = []
  · rw [accept_eq_acceptAll hunknown] at h
    obtain ⟨final, hfinal, rfl⟩ := Run.map_eq_ok.1 h
    exact ⟨hunknown, final, hfinal, rfl⟩
  · rw [accept_of_unknown hunknown] at h
    cases h

/-- Where a key that is worked on comes from: it was given, a default was put under it, or a value
was moved to it. -/
inductive Sourced (declared : List (Value × OptionSpec)) (ps : List (Value × Value)) :
    Value → Prop where
  | given {p : Value × Value} : p ∈ ps → Sourced declared ps p.1
  | filledIn {d : Value × OptionSpec} : d ∈ declared → d.2.default?.isSome →
      d.2.renameTo? = none → Sourced declared ps d.1
  | target {d : Value × OptionSpec} {target : String} : d ∈ declared →
      d.2.renameTo? = some target → Sourced declared ps (.atom target)

theorem sourced_of_acceptAll (hkey : ∀ d ∈ declared, (d.1 == d.1) = true)
    (h : (acceptAll acceptance redact declared ps).result = .ok final) :
    ∀ p ∈ final, Sourced declared ps p.1 := by
  refine Run.foldlM_invariant (fun pairs => ∀ p ∈ pairs, Sourced declared ps p.1) ?_
    (fun p hp => .given hp) h
  intro d hd pairs pairs' hpairs hstep p hp
  rcases OptionSpec.accept_eq_ok.1 hstep with ⟨-, rfl⟩ | ⟨given, supplied, w, hsupply, -, rfl⟩
  · exact hpairs p hp
  · -- What is supplied has its key among those from before, or is the default.
    have hsupplied : ∀ q ∈ supplied, q ∈ pairs ∨ q.1 = d.1 ∧ d.2.default?.isSome := by
      intro q hq
      rcases OptionSpec.supply_eq_some hsupply with ⟨-, rfl⟩ | ⟨-, hdefault, rfl⟩
      · exact .inl hq
      · rcases List.mem_append.1 hq with hq | hq
        · exact .inl hq
        · rw [List.mem_singleton] at hq
          exact .inr ⟨by rw [hq], by rw [hdefault]; rfl⟩
    unfold OptionSpec.place at hp
    split at hp
    next target htarget =>
      rcases Pairs.fst_of_mem_store hp with ⟨hp, -⟩ | ⟨q, hq, hqp⟩
      · rw [hp]
        exact .target hd htarget
      · obtain ⟨hq, hne⟩ := Pairs.mem_erase.1 hq
        rcases hsupplied q hq with hq | ⟨hqd, -⟩
        · rw [← hqp]
          exact hpairs q hq
        · rw [hqd, hkey d hd] at hne
          cases hne
    next hname =>
      rcases Pairs.fst_of_mem_store hp with ⟨-, hnone⟩ | ⟨q, hq, hqp⟩
      · -- The key is there once a value is supplied.
        rw [OptionSpec.find?_supplied_self hsupply (hkey d hd)] at hnone
        cases hnone
      · rw [← hqp]
        rcases hsupplied q hq with hq | ⟨hqd, hdefault⟩
        · exact hpairs q hq
        · rw [hqd]
          exact .filledIn hd hdefault hname

theorem acceptAll_keys (hkey : ∀ d ∈ declared, (d.1 == d.1) = true)
    (hatoms : ∀ p ∈ ps, ∃ name, p.1 = .atom name)
    (h : (acceptAll acceptance redact declared ps).result = .ok final) :
    ∀ p ∈ final, (∃ name, p.1 = .atom name) ∨ ∃ d ∈ declared, d.2.default?.isSome ∧ p.1 = d.1 := by
  intro p hp
  have hsourced := sourced_of_acceptAll hkey h p hp
  generalize p.1 = key at hsourced
  cases hsourced with
  | given hq => exact .inl (hatoms _ hq)
  | filledIn hd hdefault => exact .inr ⟨_, hd, hdefault, rfl⟩
  | target => exact .inl ⟨_, rfl⟩

/-- If some key has this name as its text, the first one that has is the atom. -/
inductive AtomFirst (name : String) : List (Value × Value) → Prop where
  | nil : AtomFirst name []
  | here {v ps} : AtomFirst name ((.atom name, v) :: ps)
  | later {p ps} : p.1.fieldName ≠ name → AtomFirst name ps → AtomFirst name (p :: ps)

theorem atomFirst_of_forall {name : String}
    (h : ∀ p ∈ ps, p.1.fieldName = name → p.1 = .atom name) : AtomFirst name ps := by
  induction ps with
  | nil => exact .nil
  | cons p ps ih =>
    by_cases hp : p.1.fieldName = name
    · obtain ⟨key, v⟩ := p
      obtain rfl : key = .atom name := h _ (by simp) hp
      exact .here
    · exact .later hp (ih fun q hq => h q (List.mem_cons_of_mem _ hq))

theorem ne_atom_of_fieldName {name : String} {key : Value} (h : key.fieldName ≠ name) :
    (key == Value.atom name) = false := by
  rw [Bool.eq_false_iff]
  intro hbeq
  have heq := SchemaKey.eq_of_beq (k := .atom name) rfl (BEq.symm hbeq)
  exact h (by rw [heq]; rfl)

theorem AtomFirst.get? {name : String} (h : AtomFirst name ps) :
    (Value.keyword (ps.map fun p => (p.1.fieldName, p.2))).get? (.atom name) =
      Pairs.find? ps (.atom name) := by
  change (ps.map fun p => (p.1.fieldName, p.2)).lookup name = _
  induction h with
  | nil => rfl
  | @here v ps =>
    have hself : (Value.atom name == Value.atom name) = true := Value.beq_self_iff.2 rfl
    rw [List.map_cons, List.lookup_cons, Pairs.find?_cons, hself]
    simp [Value.fieldName]
  | later hp _ ih =>
    rw [List.map_cons, List.lookup_cons, Pairs.find?_cons, ne_atom_of_fieldName hp,
      beq_false_of_ne (Ne.symm hp), ih]
    rfl

end Options

namespace Entry

variable {es : List Entry}

/-- Where all keys are names, no default is filled in under the name of another option: a string
with a default and an atom are not the same name. -/
def Unambiguous (es : List Entry) : Prop :=
  ∀ d ∈ es, ∀ e ∈ es, ∀ name, d.key = .string name → d.spec.default?.isSome → e.key ≠ .atom name

theorem Placed.forward (h : Placed es) (hwildcard : ∀ e ∈ es, e.key = .wildcard →
    e.spec.renameTo? = none) {present : List Value}
    (hpresent : present.Pairwise fun k l => (k == l) = false) :
    Options.Forward (expand es present) := by
  rw [expand_eq hpresent]
  apply Options.Forward.append
  · intro before d after target hd htarget
    obtain ⟨es₁, es₂, rfl, -, hds⟩ := List.filterMap_eq_append_iff.1 hd
    obtain ⟨skipped, e, later, rfl, -, he, hafter⟩ := List.filterMap_eq_cons_iff.1 hds
    obtain ⟨_, -, rfl⟩ := Option.map_eq_some_iff.1 he
    obtain ⟨e', he', hkey⟩ := h.targets (es₁ ++ skipped) e later target (by simp) htarget
    refine ⟨e'.spec, ?_⟩
    rw [← hafter]
    exact List.mem_filterMap.2 ⟨e', he', by rw [hkey]; rfl⟩
  · intro w hw
    split at hw
    · simp at hw
    next spec hfind =>
      obtain ⟨e, he, hkey, rfl⟩ := mem_of_find? hfind
      obtain ⟨_, -, rfl⟩ := List.mem_map.1 hw
      exact hwildcard e he hkey

theorem Placed.exists_target (h : Placed es) {present : List Value}
    (hpresent : present.Pairwise fun k l => (k == l) = false) {d : Value × OptionSpec}
    (hd : d ∈ expand es present) {target : String} (htarget : d.2.renameTo? = some target) :
    ∃ e ∈ es, e.key = .atom target := by
  obtain ⟨e, he, hspec⟩ := spec_of_mem_expand hpresent hd
  obtain ⟨before, later, rfl⟩ := List.append_of_mem he
  obtain ⟨e', he', hkey⟩ := h.targets before e later target rfl (by rw [hspec, htarget])
  exact ⟨e', by simp [he'], hkey⟩

theorem mem_expand_atom (hd : DistinctKeys es) {present : List Value}
    (hpresent : present.Pairwise fun k l => (k == l) = false) {e : Entry} (he : e ∈ es)
    {key : Value} (hkey : e.key.option? = some key) {spec : OptionSpec}
    (hmem : (key, spec) ∈ expand es present) : spec = e.spec := by
  have hself := SchemaKey.beq_self_of_option? hkey
  have hfind := Pairs.find?_of_mem (distinct_expand hd hpresent) hmem hself
  have hfind' := Pairs.find?_of_mem (distinct_expand hd hpresent)
    (mem_expand_of_explicit present he hkey hpresent) hself
  exact Option.some.inj (hfind.symm.trans hfind')

theorem Unambiguous.get? (h : Unambiguous es) {o : Options} (ho : o.WellShaped)
    (hdeclared : ∀ d ∈ expand es (Pairs.keys o.pairs), (d.1 == d.1) = true)
    (hshape : o.shape = .keyword) {final : List (Value × Value)}
    (hfinal : (Options.acceptAll acceptance redact (expand es (Pairs.keys o.pairs)) o.pairs).result
      = .ok final) {e : Entry} (he : e ∈ es) {name : String} (hkey : e.key = .atom name) :
    ({ o with pairs := final } : Options).toValue.get? (.atom name) =
      Pairs.find? final (.atom name) := by
  have hvalue : ({ o with pairs := final } : Options).toValue =
      .keyword (final.map fun p => (p.1.fieldName, p.2)) := by
    rw [Options.toValue, hshape]
  rw [hvalue]
  -- A key with the text of the atom was given, and then it is the atom, as all keys are atoms; or
  -- it was filled in, and then it is declared, and no string of this name is.
  refine (Options.atomFirst_of_forall fun p hp hname => ?_).get?
  rcases Options.acceptAll_keys hdeclared (ho hshape) hfinal p hp with
    ⟨m, hm⟩ | ⟨⟨key, spec⟩, hd, hdefault, hpd⟩
  · rw [hm] at hname ⊢
    exact congrArg Value.atom hname
  · change p.1 = key at hpd
    rw [hpd] at hname ⊢
    cases declares_of_mem_expand hd with
    | @explicit d _ hmem hoption =>
      cases hd' : d.key with
      | wildcard => simp [hd', SchemaKey.option?] at hoption
      | atom m =>
        simp only [hd', SchemaKey.option?, Option.some.injEq] at hoption
        subst hoption
        exact congrArg Value.atom hname
      | string m =>
        simp only [hd', SchemaKey.option?, Option.some.injEq] at hoption
        subst hoption
        change m = name at hname
        subst hname
        exact absurd hkey (h d hmem e he m hd' hdefault)
    | @wildcard d q hmem hwildcard hq =>
      obtain ⟨m, hm⟩ := ho hshape q hq
      change q.1.fieldName = name at hname
      change q.1 = _
      rw [hm] at hname ⊢
      exact congrArg Value.atom hname

theorem get?_normal {v : Value} {o : Options} {final : List (Value × Value)}
    (h : o.shape = .keyword → Unambiguous es) (ho : Options.ofValue? v = some o)
    (hdeclared : ∀ d ∈ expand es (Pairs.keys o.pairs), (d.1 == d.1) = true)
    (hfinal : (Options.acceptAll acceptance redact (expand es (Pairs.keys o.pairs)) o.pairs).result
      = .ok final) {e : Entry} (he : e ∈ es) {name : String} (hkey : e.key = .atom name) :
    ({ o with pairs := final } : Options).toValue.get? (.atom name) =
      Pairs.find? final (.atom name) := by
  by_cases hshape : o.shape = .keyword
  · exact (h hshape).get? (Options.wellShaped_of_ofValue? ho) hdeclared hshape hfinal he hkey
  · have hmap : o.shape = .map := by cases h : o.shape <;> simp_all
    rw [Options.toValue, hmap]
    rfl

end Entry

namespace Schema

variable {host : Host} {s : Schema} {es : List Entry} {limit fuel : Nat} {c : Compiled}

/-- Let a schema compile whose keys are pairwise different and whose wildcard is not renamed. When
options are accepted, each renamed option has another declared one as its target. This one has a
turn of its own with the moved value, or a later one, and what its type then accepts is what the
normal options hold under its key, or what is passed on if it is renamed itself. So nothing is left
under a declared key but what its type accepted. -/
theorem renamed_accepted (hcompile : (s.compile host limit).result = .ok c)
    (hes : s.Resolves host es) (hd : Entry.DistinctKeys es)
    (hwildcard : ∀ e ∈ es, e.key = .wildcard → e.spec.renameTo? = none)
    {v n : Value} {o : Options} (ho : Options.ofValue? v = some o)
    (hnames : o.shape = .keyword → Entry.Unambiguous es)
    (h : (c.validate host (fuel + 1) v).result = .ok n) :
    let turn := Options.Turn (OptionType.accept host fuel) false
      (Entry.expand es (Pairs.keys o.pairs)) o.pairs
    (∀ d given accepted stored target, turn d given accepted stored →
      d.2.renameTo? = some target → ∃ e ∈ es, e.key = .atom target ∧
        ∃ given' accepted' stored', turn (.atom target, e.spec) given' accepted' stored' ∧
          (e.spec.renameTo? = none → n.get? (.atom target) = some accepted') ∧
          ∀ next, e.spec.renameTo? = some next →
            Pairs.find? stored' (.atom next) = some accepted') ∧
    ∀ e ∈ es, ∀ name, e.key = .atom name → ∀ w, n.get? (.atom name) = some w →
      ∃ given stored, turn (.atom name, e.spec) given w stored := by
  intro turn
  obtain ⟨rfl, -, -⟩ := compile_eq_ok.1 hcompile
  have hplaced := placed_of_compile hcompile hes
  change (s.accept host (fuel + 1) v false).result = .ok n at h
  rw [accept_succ, ho] at h
  obtain ⟨es', hes', h⟩ := Run.bind_eq_ok.1 h
  cases (resolves_of_resolve? (Run.ofOption_eq_ok.1 hes')).unique hes
  obtain ⟨hknown, final, hfinal, rfl⟩ := Options.acceptAll_of_accept h
  have hkeys := Pairs.pairwise_keys o.pairs
  have hdistinct := Entry.distinct_expand hd hkeys
  have hforward := hplaced.forward hwildcard hkeys
  have hself : ∀ d ∈ Entry.expand es (Pairs.keys o.pairs), (d.1 == d.1) = true := fun d hmem =>
    Entry.beq_self_of_mem_expand hkeys (fun k => Options.exists_declared hknown) hmem
  have hget : ∀ e ∈ es, ∀ name, e.key = .atom name →
      ({ o with pairs := final } : Options).toValue.get? (.atom name) =
        Pairs.find? final (.atom name) := fun e he name hkey =>
    Entry.get?_normal hnames ho hself hfinal he hkey
  have hmem : ∀ e ∈ es, ∀ name, e.key = .atom name →
      (.atom name, e.spec) ∈ Entry.expand es (Pairs.keys o.pairs) := fun e he name hkey =>
    Entry.mem_expand_of_explicit _ he (by rw [hkey]; rfl) hkeys
  constructor
  · -- The target comes after the renamed option, so the moved value is there when it has its turn.
    intro d given accepted stored target hturn htarget
    obtain ⟨spec, given', accepted', stored', hspec, hturn'⟩ :=
      hturn.target hdistinct hforward hfinal htarget
    obtain ⟨e, he, hkey⟩ := hplaced.exists_target hkeys hturn.mem htarget
    cases Entry.mem_expand_atom hd hkeys he (by rw [hkey]; rfl) hspec
    refine ⟨e, he, hkey, given', accepted', stored', hturn', fun hname => ?_, fun next hnext => ?_⟩
    · rw [hget e he target hkey]
      exact hturn'.find?_final hdistinct hforward hfinal (hself _ hspec) hname
    · obtain ⟨_, _, supplied, -, rfl, -, -⟩ := hturn'.split hfinal
      exact OptionSpec.find?_place_target hnext
  · intro e he name hkey w hw
    rw [hget e he name hkey] at hw
    exact Options.turn_of_find? hdistinct hforward hfinal (hmem e he name hkey)
      (hself _ (hmem e he name hkey)) hw

end Schema

/-- Arguments that are options by now, after two changes of the name, and anything else. -/
def renamedEntries : List Entry := [
  ⟨.atom "args", { type := .basic .any, renameTo? := some "opts" }⟩,
  ⟨.atom "opts", { type := .basic .keywordList, renameTo? := some "options" }⟩,
  ⟨.wildcard, .ofType (.basic .any)⟩,
  ⟨.atom "options", .ofType (.listOf (.basic .integer))⟩]

def renamedPairs : List (Value × Value) := [(.atom "name", .nil), (.atom "args", .list [])]

theorem renamedEntries_turn :
    (Schema.compile .bare 60 (.entries renamedEntries)).result = .ok ⟨.entries renamedEntries⟩ ∧
    ∃ n given stored,
      (Compiled.validate .bare 10 ⟨.entries renamedEntries⟩
        (.keyword [("name", .nil), ("args", .list [])])).result = .ok n ∧
      n.get? (.atom "options") = some (.list []) ∧
      Options.Turn (OptionType.accept .bare 9) false
        (Entry.expand renamedEntries (Pairs.keys renamedPairs)) renamedPairs
        (.atom "options", .ofType (.listOf (.basic .integer))) given (.list []) stored := by
  have hcompile : (Schema.compile .bare 60 (.entries renamedEntries)).result =
      .ok ⟨.entries renamedEntries⟩ := by
    with_unfolding_all rfl
  have hvalidate : (Compiled.validate .bare 10 ⟨.entries renamedEntries⟩
      (.keyword [("name", .nil), ("args", .list [])])).result =
      .ok (.keyword [("name", .nil), ("options", .list [])]) := by
    with_unfolding_all rfl
  have hdistinct : Entry.DistinctKeys renamedEntries := by unfold Entry.DistinctKeys; decide
  have hunambiguous : Entry.Unambiguous renamedEntries := by
    simp [Entry.Unambiguous, renamedEntries, OptionSpec.ofType]
  have hturns := Schema.renamed_accepted hcompile (.entries _) hdistinct (by decide) rfl
    (fun _ => hunambiguous) hvalidate
  obtain ⟨given, stored, hturn⟩ := hturns.2 ⟨.atom "options", .ofType (.listOf (.basic .integer))⟩
    (by simp [renamedEntries]) "options" rfl (.list []) rfl
  exact ⟨hcompile, _, given, stored, hvalidate, rfl, hturn⟩

/-- Everything becomes a port, which is an integer. -/
def catchAllEntries : List Entry := [
  ⟨.wildcard, { type := .basic .any, renameTo? := some "port" }⟩,
  ⟨.atom "port", .ofType (.basic .integer)⟩]

/-- A wildcard is expanded after all other options, so what it moves has no turn at its target. -/
theorem catchAll_unaccepted :
    (Schema.compile .bare 60 (.entries catchAllEntries)).result = .ok ⟨.entries catchAllEntries⟩ ∧
    (Compiled.validate .bare 10 ⟨.entries catchAllEntries⟩
      (.keyword [("name", .string "http")])).result = .ok (.keyword [("port", .string "http")]) ∧
    ∀ fuel label given cx,
      (OptionType.accept .bare fuel (.basic .integer) label given cx).result ≠
        .ok (.string "http") := by
  refine ⟨by with_unfolding_all rfl, by with_unfolding_all rfl, fun fuel label given cx h => ?_⟩
  cases fuel with
  | zero =>
    rw [OptionType.accept_zero] at h
    cases h
  | succ fuel =>
    rw [OptionType.accept_basic] at h
    split at h
    next n hn =>
      cases h
      cases given <;> cases hn
    next => cases h

end Conform
