import Conform.Proofs.Acceptance.Conformance
import Conform.Proofs.Acceptance.Step
import Conform.Compiled

namespace Conform

namespace Options

variable {acceptance : Acceptance} {redact : Bool} {es : List Entry} {o : Options}
variable {kvs : List (Value × Value)}

/-- The keys of a keyword list are atoms. -/
def WellShaped (o : Options) : Prop :=
  o.shape = .keyword → ∀ p ∈ o.pairs, ∃ name, p.1 = .atom name

theorem wellShaped_of_ofValue? {v : Value} (h : ofValue? v = some o) : o.WellShaped := by
  unfold ofValue? at h
  split at h
  · cases h
    intro _ p hp
    obtain ⟨q, -, rfl⟩ := List.mem_map.1 hp
    exact ⟨q.1, rfl⟩
  · cases h
    intro hshape
    cases hshape
  · cases h
    simp [WellShaped]
  · cases h

theorem ofValue?_toValue (h : o.WellShaped) : ofValue? o.toValue = some o := by
  obtain ⟨shape, pairs⟩ := o
  cases shape with
  | map => rfl
  | keyword =>
    simp only [toValue, ofValue?, List.map_map, Option.some.injEq, Options.mk.injEq, true_and]
    refine (List.map_congr_left fun p hp => ?_).trans (List.map_id _)
    obtain ⟨name, hname⟩ := h rfl p hp
    obtain ⟨key, v⟩ := p
    cases hname
    rfl

namespace Settled

theorem mem (h : Settled acceptance redact es o kvs) {kv : Value × Value} (hkv : kv ∈ kvs) :
    ∃ d ∈ Entry.expand es (Pairs.keys o.pairs), d.1 = kv.1 ∧
      (Pairs.find? o.pairs kv.1 = none → d.2.default?.isSome) := by
  rw [h.values] at hkv
  obtain ⟨d, hd, hkv⟩ := List.mem_filterMap.1 hkv
  obtain ⟨w, hw, rfl⟩ := Option.map_eq_some_iff.1 hkv
  refine ⟨d, hd, rfl, fun habsent => ?_⟩
  obtain ⟨-, hrel⟩ := OptionSpec.settle_eq_ok.1 (h.settles d hd)
  rw [hw, habsent] at hrel
  generalize d.2.default? = default? at hrel
  cases hrel
  rfl

theorem beq_self (h : Settled acceptance redact es o kvs) (hknown : unknown es o = [])
    {kv : Value × Value} (hkv : kv ∈ kvs) : (kv.1 == kv.1) = true := by
  obtain ⟨d, hd, hkey, -⟩ := h.mem hkv
  rw [← hkey]
  exact Entry.beq_self_of_mem_expand (Pairs.pairwise_keys _) (fun k => exists_declared hknown) hd

/-- What is filled in is the default of an option with a key of its own. -/
theorem added (h : Settled acceptance redact es o kvs) (hknown : unknown es o = [])
    {kv : Value × Value} (hkv : kv ∈ Pairs.added kvs o.pairs) :
    ∃ e ∈ es, e.key.option? = some kv.1 ∧ e.spec.default?.isSome := by
  obtain ⟨hkv, habsent⟩ := List.mem_filter.1 hkv
  have hself := h.beq_self hknown hkv
  rw [Option.isNone_iff_eq_none] at habsent
  obtain ⟨⟨key, spec⟩, hd, hkey, hdefault⟩ := h.mem hkv
  change key = kv.1 at hkey
  rw [← hkey] at hself habsent hdefault ⊢
  cases Entry.declares_of_mem_expand hd with
  | explicit he hkey => exact ⟨_, he, hkey, hdefault habsent⟩
  | wildcard he hwildcard hp hother =>
    -- A wildcard covers keys that are present only.
    rw [Pairs.find?_eq_none.1 habsent _ hp] at hself
    cases hself

theorem expand_eq (h : Settled acceptance redact es o kvs) (hes : Entry.DistinctKeys es)
    (hknown : unknown es o = []) :
    Entry.expand es (Pairs.keys (Pairs.storeAll kvs o.pairs)) =
      Entry.expand es (Pairs.keys o.pairs) := by
  have hundeclared : Entry.undeclared es (Pairs.keys (Pairs.storeAll kvs o.pairs)) =
      Entry.undeclared es (Pairs.keys o.pairs) := by
    unfold Entry.undeclared
    rw [Pairs.keys_storeAll (h.distinct hes) fun p hp => h.isSome_find? hknown hp,
      List.filter_append]
    refine (congrArg _ (List.filter_eq_nil_iff.2 fun key hkey => ?_)).trans (List.append_nil _)
    obtain ⟨kv, hkv, rfl⟩ := List.mem_map.1 hkey
    obtain ⟨e, he, hkey, -⟩ := h.added hknown hkv
    simp only [Bool.not_eq_true', Bool.not_eq_false, List.any_eq_true]
    exact ⟨(kv.1, e.spec), Entry.mem_explicit.2 ⟨e, he, hkey, rfl⟩,
      SchemaKey.beq_self_of_option? hkey⟩
  rw [Entry.expand_eq (Pairs.pairwise_keys _), Entry.expand_eq (Pairs.pairwise_keys _), hundeclared]

theorem find?_storeAll (h : Settled acceptance redact es o kvs) (hes : Entry.DistinctKeys es)
    {d : Value × OptionSpec} (hd : d ∈ Entry.expand es (Pairs.keys o.pairs)) :
    Pairs.find? (Pairs.storeAll kvs o.pairs) d.1 = Pairs.find? kvs d.1 := by
  rw [Pairs.find?_storeAll (h.distinct hes)]
  obtain ⟨-, hrel⟩ := OptionSpec.settle_eq_ok.1 (h.settles d hd)
  generalize Pairs.find? kvs d.1 = w? at hrel ⊢
  generalize Pairs.find? o.pairs d.1 = v? at hrel ⊢
  cases w? with
  | some w => rfl
  | none =>
    cases v? with
    | some v => cases hrel
    | none => rfl

end Settled

def Repeats (acceptance : Acceptance) (t : OptionType) : Prop :=
  ∀ label v cx n, (acceptance t label v cx).result = .ok n →
    ∀ label' cx', (acceptance t label' n cx').result = .ok n

theorem Settled.again (h : Settled acceptance redact es o kvs) (hes : Entry.DistinctKeys es)
    (hknown : unknown es o = []) (hrepeats : ∀ e ∈ es, Repeats acceptance e.spec.effectiveType)
    (redact' : Bool) :
    Settled acceptance redact' es { o with pairs := Pairs.storeAll kvs o.pairs } kvs where
  settles d hd := by
    rw [h.expand_eq hes hknown] at hd
    obtain ⟨hpresent, hrel⟩ := OptionSpec.settle_eq_ok.1 (h.settles d hd)
    rw [h.find?_storeAll hes hd, OptionSpec.settle_eq_ok]
    generalize Pairs.find? kvs d.1 = w? at hrel ⊢
    cases w? with
    | some w =>
      refine ⟨by simp, .some ?_⟩
      obtain ⟨e, he, hspec⟩ := Entry.spec_of_mem_expand (Pairs.pairwise_keys _) hd
      generalize (Pairs.find? o.pairs d.1).or d.2.default? = v? at hrel
      cases hrel with
      | some hw =>
        rw [OptionSpec.result_acceptValue] at hw ⊢
        rw [← hspec] at hw ⊢
        exact hrepeats e he _ _ _ _ hw _ _
    | none =>
      generalize hsupplied : (Pairs.find? o.pairs d.1).or d.2.default? = v? at hrel
      cases hrel
      obtain ⟨habsent, hdefault⟩ := Option.or_eq_none_iff.1 hsupplied
      refine ⟨fun _ => hpresent habsent, ?_⟩
      rw [hdefault]
      exact .none
  values := by
    rw [h.expand_eq hes hknown]
    exact h.values

theorem unknown_storeAll (h : Settled acceptance redact es o kvs) (hes : Entry.DistinctKeys es)
    (hknown : unknown es o = []) :
    unknown es { o with pairs := Pairs.storeAll kvs o.pairs } = [] := by
  apply List.filter_eq_nil_iff.2
  intro key hkey
  simp only [Bool.not_eq_true', Bool.not_eq_false, List.any_eq_true]
  rw [h.expand_eq hes hknown]
  rw [Pairs.keys_storeAll (h.distinct hes) fun p hp => h.isSome_find? hknown hp] at hkey
  rcases List.mem_append.1 hkey with hkey | hkey
  · exact exists_declared hknown hkey
  · obtain ⟨kv, hkv, rfl⟩ := List.mem_map.1 hkey
    have hmem := (List.mem_filter.1 hkv).1
    obtain ⟨d, hd, hdk, -⟩ := h.mem hmem
    refine ⟨d, hd, ?_⟩
    rw [hdk]
    exact h.beq_self hknown hmem

theorem wellShaped_storeAll (h : Settled acceptance redact es o kvs) (hes : Entry.DistinctKeys es)
    (hknown : unknown es o = [])
    (hatom : ∀ e ∈ es, ∀ name, e.key = .string name → e.spec.default? = none) (ho : o.WellShaped) :
    WellShaped { o with pairs := Pairs.storeAll kvs o.pairs } := by
  intro hshape p hp
  dsimp only at hp
  rw [h.storeAll_eq hes hknown] at hp
  rcases List.mem_append.1 hp with hp | hp
  · obtain ⟨q, hq, hp⟩ := List.mem_filterMap.1 hp
    obtain ⟨w, -, rfl⟩ := Option.map_eq_some_iff.1 hp
    exact ho hshape q (Pairs.mem_of_mem_firsts hq)
  · obtain ⟨e, he, hkey, hdefault⟩ := h.added hknown hp
    cases hname : e.key with
    | atom name =>
      rw [hname] at hkey
      exact ⟨name, (Option.some.inj hkey).symm⟩
    | string name =>
      rw [hatom e he name hname] at hdefault
      cases hdefault
    | wildcard =>
      rw [hname] at hkey
      cases hkey

/-- A container without string keys to fill in is accepted in its normal form, as it is. -/
theorem accept_again (hes : Entry.Regular es)
    (hatom : ∀ e ∈ es, ∀ name, e.key = .string name → e.spec.default? = none)
    (hrepeats : ∀ e ∈ es, Repeats acceptance e.spec.effectiveType) (ho : o.WellShaped) {n : Value}
    (h : (o.accept acceptance redact es).result = .ok n) :
    ∃ o' : Options, ofValue? n = some o' ∧ n = o'.toValue ∧ o'.shape = o.shape ∧
      (o.pairs ≠ [] → o'.pairs ≠ []) ∧
      ∀ redact', (o'.accept acceptance redact' es).result = .ok n := by
  obtain ⟨hknown, kvs, hsettled, rfl⟩ := (accept_eq_ok hes).1 h
  have hdistinct := hsettled.distinct hes.distinct
  have hcovered := fun p hp => hsettled.isSome_find? hknown (p := p) hp
  refine ⟨_, ofValue?_toValue ?_, rfl, rfl, Pairs.storeAll_ne_nil, fun redact' => ?_⟩
  · exact wellShaped_storeAll hsettled hes.distinct hknown hatom ho
  · rw [accept_eq_ok hes]
    refine ⟨unknown_storeAll hsettled hes.distinct hknown, kvs,
      hsettled.again hes.distinct hknown hrepeats redact', ?_⟩
    -- The same values are stored again, each under a key that holds it.
    have hself : Pairs.storeAll kvs (Pairs.storeAll kvs o.pairs) = Pairs.storeAll kvs o.pairs := by
      apply Pairs.storeAll_eq_self (Pairs.distinct_storeAll hdistinct hcovered)
      intro kv hkv
      have hfind := Pairs.find?_of_mem hdistinct hkv (hsettled.beq_self hknown hkv)
      rw [Pairs.find?_storeAll hdistinct, hfind]
      rfl
    simp only [hself]

end Options

theorem BasicType.accept?_again {b : BasicType} {v n : Value} (h : b.accept? v = some n) :
    b.accept? n = some n := by
  rcases eq_of_accept? h with rfl | ⟨rfl, -, rfl⟩
  · exact h
  · rfl

theorem BasicType.accept?_toValue {t : OptionType} {b : BasicType} {s : Schema}
    (ht : t.container? = some (b, s)) {v w : Value} (hv : b.accept? v = some w) {o o' : Options}
    (ho : Options.ofValue? w = some o) (hshape : o'.shape = o.shape)
    (hne : o.pairs ≠ [] → o'.pairs ≠ []) : b.accept? o'.toValue = some o'.toValue := by
  obtain ⟨shape, pairs⟩ := o'
  have hw : b.Member w := accept?_isSome.1 (Option.isSome_iff_exists.2 ⟨w, accept?_again hv⟩)
  cases t <;> simp only [OptionType.container?, reduceCtorEq, Option.some.injEq,
    Prod.mk.injEq] at ht
  · obtain ⟨rfl, -⟩ := ht
    have hkeyword : o.shape = .keyword := by
      rcases hw with rfl | ⟨pairs, rfl⟩ <;> cases ho <;> rfl
    cases hshape.trans hkeyword
    rfl
  · obtain ⟨rfl, -⟩ := ht
    obtain ⟨pair, rest, rfl⟩ := hw
    cases ho
    cases hshape
    cases pairs with
    | nil => simp at hne
    | cons p ps => rfl
  · obtain ⟨rfl, -⟩ := ht
    obtain ⟨rest, rfl⟩ := hw
    cases ho
    cases hshape
    rfl

def OptionType.Castless (t : OptionType) : Prop :=
  (∀ f args, t ≠ .custom f args) ∧ ∀ ts, t ≠ .union ts

/-- Regular entries that give defaults to atoms only. -/
structure Entry.Fillable (es : List Entry) : Prop extends Entry.Regular es where
  atoms : ∀ e ∈ es, ∀ name, e.key = .string name → e.spec.default? = none

/-- At no level a value is cast, a key is repeated, an option is renamed, or a string key has a
default. -/
abbrev Schema.Castless (host : Host) : Schema → Prop :=
  Schema.Everywhere host Entry.Fillable OptionType.Castless

def Schema.Repeats (host : Host) (fuel : Nat) (s : Schema) : Prop :=
  ∀ v redact n, (s.accept host fuel v redact).result = .ok n →
    ∃ o o' : Options, Options.ofValue? v = some o ∧ n = o'.toValue ∧ o'.shape = o.shape ∧
      (o.pairs ≠ [] → o'.pairs ≠ []) ∧ ∀ redact', (s.accept host fuel n redact').result = .ok n

section

variable {host : Host} {fuel : Nat}
  (htype : ∀ t : OptionType, t.Everywhere host Entry.Fillable OptionType.Castless →
    Options.Repeats (OptionType.accept host fuel) t)
  (hschema : ∀ s : Schema, s.Castless host → s.Repeats host fuel)

include htype in
theorem Schema.repeats_succ {s : Schema} (hs : s.Castless host) : s.Repeats host (fuel + 1) := by
  intro v redact n h
  rw [accept_succ] at h
  cases ho : Options.ofValue? v with
  | none =>
    rw [ho] at h
    cases h
  | some o =>
    rw [ho] at h
    obtain ⟨es, hes, haccept⟩ := Run.bind_eq_ok.1 h
    rw [Run.ofOption_eq_ok] at hes
    have hresolves := resolves_of_resolve? hes
    have hentries := hs.entries hresolves
    have hrepeats : ∀ e ∈ es,
        Options.Repeats (OptionType.accept host fuel) e.spec.effectiveType := by
      intro e he
      refine htype _ (hs.effectiveType hresolves he ?_ ?_)
      · rintro t b u ht
        refine ⟨?_, ?_⟩
        · rintro f args rfl
          simp [OptionType.container?] at ht
        · rintro ts rfl
          simp [OptionType.container?] at ht
      · intro t
        exact ⟨by simp, by simp⟩
    obtain ⟨o', ho', hn, hshape, hne, hagain⟩ := Options.accept_again hentries.toRegular
      hentries.atoms hrepeats (Options.wellShaped_of_ofValue? ho) haccept
    refine ⟨o, o', rfl, hn, hshape, hne, fun redact' => ?_⟩
    rw [accept_succ, ho', hes]
    exact hagain redact'

include hschema in
theorem OptionType.repeats_container {t : OptionType} {b : BasicType} {s : Schema}
    (ht : t.container? = some (b, s)) (hs : s.Castless host) :
    Options.Repeats (OptionType.accept host (fuel + 1)) t := by
  intro label v cx n h label' cx'
  rw [accept_container _ _ _ _ _ ht] at h ⊢
  split at h
  next w hw =>
    obtain ⟨o, o', ho, rfl, hshape, hne, hagain⟩ :=
      hschema s hs w cx.redact n (Run.mapRejection_eq_ok.1 h)
    rw [BasicType.accept?_toValue ht hw ho hshape hne]
    exact Run.mapRejection_eq_ok.2 (hagain cx'.redact)
  next => cases h

include htype

theorem OptionType.repeats_mapOf {keyType valueType : OptionType}
    (ht : (mapOf keyType valueType).Everywhere host Entry.Fillable Castless) :
    Options.Repeats (OptionType.accept host (fuel + 1)) (.mapOf keyType valueType) := by
  intro label v cx n h label' cx'
  rw [accept_mapOf] at h ⊢
  split at h
  next pairs =>
    obtain ⟨accepted, haccepted, hn⟩ := Run.bind_eq_ok.1 h
    cases hn
    refine Run.bind_eq_ok.2 ⟨accepted, ?_, rfl⟩
    apply Run.mapM_eq_self_of_mapM haccepted
    intro pair _ accepted h
    obtain ⟨key, hkey, h⟩ := Run.bind_eq_ok.1 h
    obtain ⟨item, hitem, h⟩ := Run.bind_eq_ok.1 h
    cases h
    rw [Run.mapRejection_eq_ok] at hkey hitem
    refine Run.bind_eq_ok.2 ⟨key, ?_, Run.bind_eq_ok.2 ⟨item, ?_, rfl⟩⟩
    · rw [Run.mapRejection_eq_ok]
      exact htype _ (ht.part fun w hw => .mapKey hw) _ _ _ _ hkey _ _
    · rw [Run.mapRejection_eq_ok]
      exact htype _ (ht.part fun w hw => .mapValue hw) _ _ _ _ hitem _ _
  next => cases h

theorem OptionType.repeats_listOf {u : OptionType}
    (ht : (listOf u).Everywhere host Entry.Fillable Castless) :
    Options.Repeats (OptionType.accept host (fuel + 1)) (.listOf u) := by
  intro label v cx n h label' cx'
  rw [accept_listOf] at h ⊢
  split at h
  next items =>
    obtain ⟨accepted, haccepted, hn⟩ := Run.bind_eq_ok.1 h
    cases hn
    refine Run.bind_eq_ok.2 ⟨accepted, ?_, rfl⟩
    apply Run.mapM_zipIdx_eq_self_of_mapM haccepted
    intro item _ i accepted h j
    rw [Run.mapRejection_eq_ok] at h ⊢
    exact htype _ (ht.part fun w hw => .listElement hw) _ _ _ _ h _ _
  next => cases h

theorem OptionType.repeats_tupleOf {ts : List OptionType}
    (ht : (tupleOf ts).Everywhere host Entry.Fillable Castless) :
    Options.Repeats (OptionType.accept host (fuel + 1)) (.tupleOf ts) := by
  intro label v cx n h label' cx'
  rw [accept_tupleOf] at h ⊢
  split at h
  next items =>
    split at h
    next hlength =>
      obtain ⟨accepted, haccepted, hn⟩ := Run.bind_eq_ok.1 h
      cases hn
      -- The elements are matched by place, so the second traversal needs the same length.
      have haccepted_length : accepted.length = ts.length := by
        simpa [hlength] using Run.length_of_mapM haccepted
      dsimp only
      rw [if_pos haccepted_length]
      refine Run.bind_eq_ok.2 ⟨accepted, ?_, rfl⟩
      apply Run.mapM_zip_eq_self_of_mapM hlength haccepted
      intro u hu item i accepted h j
      rw [Run.mapRejection_eq_ok] at h ⊢
      exact htype _ (ht.part fun w hw => .tupleElement hu hw) _ _ _ _ h _ _
    next => cases h
  next => cases h

include hschema in
theorem OptionType.repeats_succ {t : OptionType}
    (ht : t.Everywhere host Entry.Fillable Castless) :
    Options.Repeats (OptionType.accept host (fuel + 1)) t := by
  cases t with
  | basic b =>
    intro label v cx n h label' cx'
    rw [accept_basic] at h ⊢
    split at h
    next w hw =>
      cases h
      rw [BasicType.accept?_again hw]
      rfl
    next => cases h
  | keywordListOf s | nonEmptyKeywordListOf s | mapOfKeys s =>
    exact repeats_container hschema rfl (ht.container rfl)
  | mapOf keyType valueType => exact repeats_mapOf htype ht
  | function arity =>
    intro label v cx n h label' cx'
    rw [accept_function] at h ⊢
    split at h
    next f =>
      split at h
      next harity =>
        cases h
        dsimp only
        rw [if_pos harity]
        rfl
      next => cases h
    next => cases h
  | oneOf choices =>
    intro label v cx n h label' cx'
    rw [accept_oneOf] at h ⊢
    split at h
    next hmem =>
      cases h
      rw [if_pos hmem]
      rfl
    next => cases h
  -- Validators and unions may cast what they accept, and are ruled out.
  | custom f args => exact absurd rfl (ht.self.1 f args)
  | union ts => exact absurd rfl (ht.self.2 ts)
  | listOf u => exact repeats_listOf htype ht
  | tupleOf ts => exact repeats_tupleOf htype ht
  | struct name =>
    intro label v cx n h label' cx'
    rw [accept_struct] at h ⊢
    split at h
    next tag fields =>
      split at h
      next htag =>
        cases h
        dsimp only
        rw [if_pos htag]
        rfl
      next => cases h
    next => cases h

end

theorem accept_repeats (host : Host) (fuel : Nat) :
    (∀ t : OptionType, t.Everywhere host Entry.Fillable OptionType.Castless →
      Options.Repeats (OptionType.accept host fuel) t) ∧
    ∀ s : Schema, s.Castless host → s.Repeats host fuel := by
  induction fuel with
  | zero =>
    refine ⟨fun t _ label v cx n h => ?_, fun s _ v redact n h => ?_⟩
    · rw [OptionType.accept_zero] at h
      cases h
    · rw [Schema.accept_zero] at h
      cases h
  | succ fuel ih =>
    obtain ⟨htype, hschema⟩ := ih
    refine ⟨fun t ht => ?_, fun s hs => ?_⟩
    · exact OptionType.repeats_succ htype hschema ht
    · exact Schema.repeats_succ htype hs

theorem Schema.eq_of_compile {host : Host} {fuel : Nat} {s : Schema} {c : Compiled}
    (h : (s.compile host fuel).result = .ok c) : c = ⟨s⟩ := by
  obtain ⟨_, -, h⟩ := Run.bind_eq_ok.1 h
  obtain ⟨es, -, h⟩ := Run.bind_eq_ok.1 h
  obtain ⟨_, -, h⟩ := Run.bind_eq_ok.1 h
  cases h
  rfl

/-- What a schema makes of options is accepted by the schema and stays as it is, whether or not the
schema is checked first. -/
theorem Schema.accept_normal_form {host : Host} {s : Schema} (hs : s.Castless host) (fuel : Nat)
    (v n : Value) :
    (∀ redact, (s.accept host fuel v redact).result = .ok n →
      (s.accept host fuel n redact).result = .ok n) ∧
    ((validate host fuel s v).result = .ok n → (validate host fuel s n).result = .ok n) := by
  have hrepeats := (accept_repeats host fuel).2 s hs
  constructor
  · intro redact h
    obtain ⟨-, -, -, -, -, -, hagain⟩ := hrepeats v redact n h
    exact hagain redact
  · intro h
    obtain ⟨c, hc, h⟩ := Run.bind_eq_ok.1 h
    refine Run.bind_eq_ok.2 ⟨c, hc, ?_⟩
    cases eq_of_compile hc
    obtain ⟨-, -, -, -, -, -, hagain⟩ := hrepeats v false n h
    exact hagain false

def menuEntries : List Entry := [
  ⟨.atom "title", { type := .basic .string, default? := some (.string "untitled") }⟩,
  ⟨.string "size", .ofType (.tupleOf [.basic .integer, .listOf (.basic .any)])⟩,
  ⟨.atom "items", {
    type := .listOf (.basic .keywordList)
    keys? := some (.deferred ⟨.function "menu", 0⟩)
    default? := some (.keyword []) }⟩]

def menuHost : Host where
  call _ _ := .nil
  produce _ := .entries menuEntries

def menu : Value :=
  .map [(.string "size", .tuple [.integer 3, .keyword []]),
    (.atom "items", .list [.list [], .keyword [("title", .string "File"), ("title", .nil)]]),
    (.string "size", .nil)]

theorem castless_menu : Schema.Castless menuHost (.entries menuEntries) := by
  have hparts : ∀ e ∈ menuEntries, ∀ u, OptionType.Part u e.spec.type →
      u.Castless ∧ u.container? = none := by
    intro e he u hu
    have hmem : u ∈ menuEntries.flatMap fun e => e.spec.type.parts :=
      List.mem_flatMap.2 ⟨e, he, hu.mem_parts⟩
    simp only [menuEntries, OptionSpec.ofType, List.flatMap_cons, List.flatMap_nil,
      OptionType.parts, OptionType.partsAll, List.cons_append, List.nil_append, List.mem_cons,
      List.not_mem_nil, or_false] at hmem
    rcases hmem with rfl | rfl | rfl | rfl | rfl | rfl | rfl <;>
      simp [OptionType.Castless, OptionType.container?]
  refine .of_invariant (fun s => ∀ es, s.Resolves menuHost es → es = menuEntries) ?_ ?_ ?_
  · intro es hes
    cases hes
    rfl
  · intro s t hs ht es hes
    cases ht with
    | type hds he hu ht =>
      rw [hs _ hds] at he
      rw [(hparts _ he _ hu).2] at ht
      cases ht
    | keys hds he hkeys =>
      rw [hs _ hds] at he
      simp only [menuEntries, List.mem_cons, List.not_mem_nil, or_false] at he
      rcases he with rfl | rfl | rfl <;> cases hkeys
      cases hes with
      | deferred hes =>
        cases hes
        rfl
  · intro s es hs hes
    rw [hs es hes]
    refine ⟨⟨⟨by unfold Entry.DistinctKeys; decide, by decide⟩, ?_⟩, fun e he u hu => ?_⟩
    · simp [menuEntries, OptionSpec.ofType]
    · exact (hparts e he u hu).1

theorem menu_normal_form : Schema.Castless menuHost (.entries menuEntries) ∧
    ∃ n, (validate menuHost 30 (.entries menuEntries) menu).result = .ok n ∧
      (validate menuHost 30 (.entries menuEntries) n).result = .ok n := by
  obtain ⟨n, hn⟩ : ∃ n, (validate menuHost 30 (.entries menuEntries) menu).result = .ok n :=
    ⟨_, by with_unfolding_all rfl⟩
  exact ⟨castless_menu, n, hn, (Schema.accept_normal_form castless_menu 30 menu n).2 hn⟩

end Conform
