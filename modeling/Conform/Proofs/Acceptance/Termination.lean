import Mathlib.Data.List.Induction
import Conform.Proofs.Acceptance.Descent
import Conform.Proofs.Acceptance.MetaDepth
import Conform.Proofs.Acceptance.Renaming
import Conform.Proofs.Schema.Inside

namespace Conform

open Run

variable {host : Host}

/-- Every call of a function ends, also that of the check of types, which reads a type and has the
schemas in it accepted by the schema of schemas. -/
theorem Function.exists_ends_call (host : Host) (f : Function) (args : List Value) :
    ∃ fuel, (f.call host fuel args).Ends := by
  obtain ⟨name, arity, body⟩ := f
  cases body with
  | host id =>
    refine ⟨1, ?_⟩
    rw [call_succ]
    exact ends_pure _
  | dataForm d =>
    refine ⟨1, ?_⟩
    rw [call_succ]
    exact ends_pure _
  | typeCheck =>
    cases args with
    | nil =>
      refine ⟨1, ?_⟩
      rw [call_succ]
      exact ends_pure _
    | cons v rest =>
      refine ⟨5 * v.depth + 3, ?_⟩
      rw [call_succ]
      refine ends_map.2 (OptionType.ends_read fun s hs => Schema.ends_checkNested (ends_judged ?_))
      exact Schema.ends_accept_metaSchema (by omega)

namespace OptionType

variable {fuel : Nat} {label : Label} {v : Value} {cx : Context}

theorem persists_accept (host : Host) (t : OptionType) (label : Label) (v : Value)
    (cx : Context) : Persists fun fuel => t.accept host fuel label v cx :=
  fun _ _ h => accept_mono h t label v cx

theorem ends_accept_mapOf {key value : OptionType}
    (h : ∀ pairs, v = .map pairs → ∀ p ∈ pairs, (key.accept host fuel .mapKey p.1 cx).Ends ∧
      (value.accept host fuel (.mapValue p.1) p.2 cx).Ends) :
    (accept host (fuel + 1) (.mapOf key value) label v cx).Ends := by
  rw [accept_mapOf]
  split
  next pairs =>
    refine ends_bind.2 ⟨ends_mapM fun p hp => ?_, fun _ _ => ends_pure _⟩
    obtain ⟨hkey, hvalue⟩ := h pairs rfl p hp
    refine ends_bind.2 ⟨ends_mapRejection.2 hkey, fun _ _ => ?_⟩
    exact ends_bind.2 ⟨ends_mapRejection.2 hvalue, fun _ _ => ends_pure _⟩
  next => exact cx.ends_mismatch _ _ _

theorem ends_accept_listOf {t : OptionType}
    (h : ∀ items, v.asList? = some items → ∀ p ∈ items.zipIdx,
      (t.accept host fuel (.listElement p.2) p.1 cx).Ends) :
    (accept host (fuel + 1) (.listOf t) label v cx).Ends := by
  rw [accept_listOf]
  split
  next items hitems =>
    refine ends_bind.2 ⟨ends_mapM fun p hp => ?_, fun _ _ => ends_pure _⟩
    exact ends_mapRejection.2 (h items hitems p hp)
  next => exact cx.ends_mismatch _ _ _

theorem ends_accept_tupleOf {ts : List OptionType}
    (h : ∀ items, v = .tuple items → ∀ p ∈ (ts.zip items).zipIdx,
      (p.1.1.accept host fuel (.tupleElement p.2) p.1.2 cx).Ends) :
    (accept host (fuel + 1) (.tupleOf ts) label v cx).Ends := by
  rw [accept_tupleOf]
  split
  next items =>
    split
    · refine ends_bind.2 ⟨ends_mapM fun p hp => ?_, fun _ _ => ends_pure _⟩
      exact ends_mapRejection.2 (h items rfl p hp)
    · exact cx.ends_mismatch _ _ _
  next => exact cx.ends_mismatch _ _ _

theorem ends_accept_custom {validator : Function} {args : List Value}
    (h : (validator.call host fuel (v :: args)).Ends) :
    (accept host (fuel + 1) (.custom validator args) label v cx).Ends := by
  rw [accept_custom]
  refine ends_bind.2 ⟨h, fun _ _ => ?_⟩
  exact ends_bind.2 ⟨ends_emit _, fun _ _ => cx.ends_verdict _ _ _⟩

theorem ends_accept_struct (name : String) :
    (accept host (fuel + 1) (.struct name) label v cx).Ends := by
  rw [accept_struct]
  split
  · split
    · exact ends_pure _
    · exact cx.ends_mismatch _ _ _
  · exact cx.ends_mismatch _ _ _

theorem exists_ends_options {t : OptionType} {b : BasicType} {s : Schema}
    (ht : t.container? = some (b, s))
    (h : b.Member v → ∃ fuel, (s.accept host fuel v cx.redact).Ends) :
    ∃ fuel, (t.accept host fuel label v cx).Ends := by
  cases hv : b.accept? v with
  | none =>
    refine ⟨1, ?_⟩
    rw [accept_container _ _ _ _ _ ht, hv]
    exact cx.ends_mismatch _ _ _
  | some options =>
    obtain ⟨fuel, hfuel⟩ := h (BasicType.accept?_isSome.1 (by simp [hv]))
    refine ⟨fuel + 1, ?_⟩
    rw [accept_container _ _ _ _ _ ht, hv]
    dsimp only
    rwa [ends_mapRejection, accept_options ht hv]

theorem exists_ends_accept (cx : Context) : (t : OptionType) → (v : Value) →
    (∀ s item, t.Holds True v s item → ∃ fuel, (s.accept host fuel item cx.redact).Ends) →
    ∀ label, ∃ fuel, (t.accept host fuel label v cx).Ends
  | .basic b, _, _, _ => ⟨1, ends_accept_basic b⟩
  | .function arity, _, _, _ => ⟨1, ends_accept_function arity⟩
  | .oneOf choices, _, _, _ => ⟨1, ends_accept_oneOf choices⟩
  | .struct name, _, _, _ => ⟨1, ends_accept_struct name⟩
  | .custom validator args, v, _, _ => by
    obtain ⟨fuel, hfuel⟩ := validator.exists_ends_call host (v :: args)
    exact ⟨fuel + 1, ends_accept_custom hfuel⟩
  | .keywordListOf _, _, h, _ => exists_ends_options rfl fun hv => h _ _ (.here rfl hv)
  | .nonEmptyKeywordListOf _, _, h, _ => exists_ends_options rfl fun hv => h _ _ (.here rfl hv)
  | .mapOfKeys _, _, h, _ => exists_ends_options rfl fun hv => h _ _ (.here rfl hv)
  | .mapOf key value, v, h, label => by
    by_cases hv : ∃ pairs, v = .map pairs
    · obtain ⟨pairs, rfl⟩ := hv
      obtain ⟨m, hm⟩ : ∃ fuel, ∀ p ∈ pairs, (key.accept host fuel .mapKey p.1 cx).Ends :=
        exists_common_end (fun p => persists_accept host key _ _ cx) fun p hp =>
          exists_ends_accept cx key p.1
            (fun s item hs => h s item (hs.of_reaches (.mapKey hp))) _
      obtain ⟨n, hn⟩ : ∃ fuel, ∀ p ∈ pairs, (value.accept host fuel (.mapValue p.1) p.2 cx).Ends :=
        exists_common_end (fun p => persists_accept host value _ _ cx) fun p hp =>
          exists_ends_accept cx value p.2
            (fun s item hs => h s item (hs.of_reaches (.mapValue hp))) _
      -- One depth serves all keys and another one all items; the greater one serves both.
      refine ⟨max m n + 1, ends_accept_mapOf fun pairs' hpairs p hp => ?_⟩
      cases hpairs
      exact ⟨(accept_mono (Nat.le_max_left m n) _ _ _ _).ends (hm p hp),
        (accept_mono (Nat.le_max_right m n) _ _ _ _).ends (hn p hp)⟩
    · exact ⟨1, ends_accept_mapOf fun pairs hpairs => absurd ⟨pairs, hpairs⟩ hv⟩
  | .union ts, v, h, label => by
    obtain ⟨fuel, hfuel⟩ : ∃ fuel, ∀ t ∈ ts, (t.accept host fuel label v cx).Ends :=
      exists_common_end (fun t => persists_accept host t _ _ cx) fun t ht =>
        exists_ends_accept cx t v
          (fun s item hs => h s item (hs.of_reaches (.alternative trivial ht))) _
    exact ⟨fuel + 1, ends_accept_union hfuel⟩
  | .listOf t, v, h, label => by
    cases hv : v.asList? with
    | none => exact ⟨1, ends_accept_listOf fun items hitems => by simp [hv] at hitems⟩
    | some items =>
      obtain ⟨fuel, hfuel⟩ : ∃ fuel, ∀ p ∈ items.zipIdx,
          (t.accept host fuel (.listElement p.2) p.1 cx).Ends :=
        exists_common_end (fun p => persists_accept host t _ _ cx) fun p hp =>
          exists_ends_accept cx t p.1 (fun s item hs => h s item
            (hs.of_reaches (.listElement hv (List.fst_mem_of_mem_zipIdx hp)))) _
      refine ⟨fuel + 1, ends_accept_listOf fun items' hitems => ?_⟩
      cases hv.symm.trans hitems
      exact hfuel
  | .tupleOf ts, v, h, label => by
    by_cases hv : ∃ items, v = .tuple items
    · obtain ⟨items, rfl⟩ := hv
      obtain ⟨fuel, hfuel⟩ : ∃ fuel, ∀ p ∈ (ts.zip items).zipIdx,
          (p.1.1.accept host fuel (.tupleElement p.2) p.1.2 cx).Ends :=
        exists_common_end (fun p => persists_accept host p.1.1 _ _ cx) fun p hp =>
          have hmem := List.fst_mem_of_mem_zipIdx hp
          have ht : p.1.1 ∈ ts := (List.of_mem_zip hmem).1
          exists_ends_accept cx p.1.1 p.1.2
            (fun s item hs => h s item (hs.of_reaches (.tupleElement hmem))) _
      refine ⟨fuel + 1, ends_accept_tupleOf fun items' hitems => ?_⟩
      cases hitems
      exact hfuel
    · exact ⟨1, ends_accept_tupleOf fun items hitems => absurd ⟨items, hitems⟩ hv⟩
termination_by t => sizeOf t

end OptionType

namespace OptionSpec

theorem persists_accept (redact : Bool) (spec : OptionSpec) (key : Value)
    (pairs : List (Value × Value)) :
    Persists fun fuel => spec.accept (OptionType.accept host fuel) redact key pairs :=
  fun _ _ h => accept_approximates (OptionType.accept_mono h) redact spec key pairs

theorem ends_supply (spec : OptionSpec) (key : Value) (pairs : List (Value × Value)) :
    (spec.supply key pairs).Ends := by
  unfold supply
  split
  · exact ends_pure _
  · split
    · exact ends_reject _
    · split <;> exact ends_pure _

theorem exists_ends_accept (redact : Bool) {spec : OptionSpec} {key : Value}
    {pairs : List (Value × Value)}
    (h : ∀ given supplied, (spec.supply key pairs).result = .ok (some (given, supplied)) →
      ∀ label cx, ∃ fuel, (spec.effectiveType.accept host fuel label given cx).Ends) :
    ∃ fuel, (spec.accept (OptionType.accept host fuel) redact key pairs).Ends := by
  simp only [accept_eq_bind, ends_bind, ends_supply, true_and]
  cases hsupply : (spec.supply key pairs).result with
  | error f => exact ⟨0, fun supplied hsupplied => by cases hsupplied⟩
  | ok supplied? =>
    cases supplied? with
    | none =>
      refine ⟨0, fun supplied hsupplied => ?_⟩
      cases hsupplied
      exact ends_pure _
    | some supplied =>
      obtain ⟨fuel, hfuel⟩ := h _ _ hsupply (.option key) ⟨key, redact || spec.redact⟩
      refine ⟨fuel, fun supplied hsupplied => ?_⟩
      cases hsupplied
      dsimp only
      rwa [ends_map, Ends, result_acceptValue]

end OptionSpec

/-- While options are accepted, the value comes up as that of a declared option: when the options
before this one were accepted, it is found under the key, or added as the default. -/
inductive Options.Supplies (host : Host) (es : List Entry) (o : Options) :
    Value × OptionSpec → Value → Prop where
  | intro {before after d fuel redact held given supplied} :
      Entry.expand es (Pairs.keys o.pairs) = before ++ d :: after →
      (acceptAll (OptionType.accept host fuel) redact before o.pairs).result = .ok held →
      (d.2.supply d.1 held).result = .ok (some (given, supplied)) → Supplies host es o d given

/-- The acceptance of options by a schema comes upon further options by another schema, in the value
that is supplied for one of the options. -/
inductive Schema.Enters (host : Host) : Schema × Value → Schema × Value → Prop where
  | intro {s v es o d given t item} : s.Resolves host es → Options.ofValue? v = some o →
      o.Supplies host es d given → d.2.effectiveType.Holds True given t item →
      Enters host (s, v) (t, item)

/-- The further options are brought in by a default: the option has no value of its own. -/
inductive Schema.Injects (host : Host) : Schema × Value → Schema × Value → Prop where
  | intro {s v es o d given t item} : s.Resolves host es → Options.ofValue? v = some o →
      o.Supplies host es d given → Pairs.find? o.pairs d.1 = none →
      d.2.effectiveType.Holds True given t item → Injects host (s, v) (t, item)

namespace Options

variable {es : List Entry} {o : Options} {d : Value × OptionSpec} {given : Value}

theorem Supplies.mem (h : o.Supplies host es d given) :
    d ∈ Entry.expand es (Pairs.keys o.pairs) := by
  obtain ⟨hexpand, -, -⟩ := h
  rw [hexpand]
  simp

theorem Supplies.value (hes : Entry.Regular es) (h : o.Supplies host es d given) :
    (Pairs.find? o.pairs d.1).or d.2.default? = some given := by
  have hdistinct := Entry.distinct_expand hes.distinct (Pairs.pairwise_keys o.pairs)
  obtain ⟨hexpand, hbefore, hsupply⟩ := h
  rw [hexpand] at hdistinct
  -- The options that were accepted before have changed nothing under this key.
  have hfind := find?_acceptAll
    (fun b hb => (List.pairwise_append.1 hdistinct).2.2 b hb d List.mem_cons_self)
    (fun b hb target htarget => ?_) hbefore
  · rw [← hfind]
    rcases OptionSpec.supply_eq_some hsupply with ⟨hgiven, -⟩ | ⟨hnone, hdefault, -⟩
    · rw [hgiven, Option.some_or]
    · rw [hnone, Option.none_or, hdefault]
  · have hmem : b ∈ Entry.expand es (Pairs.keys o.pairs) := by
      rw [hexpand]
      exact List.mem_append_left _ hb
    obtain ⟨e, he, hspec⟩ := Entry.spec_of_mem_expand (Pairs.pairwise_keys o.pairs) hmem
    rw [← hspec, hes.unrenamed e he] at htarget
    cases htarget

theorem Supplies.find? (hes : Entry.Undefaulted es) (h : o.Supplies host es d given) :
    Pairs.find? o.pairs d.1 = some given := by
  obtain ⟨e, he, hspec⟩ := Entry.spec_of_mem_expand (Pairs.pairwise_keys _) h.mem
  have hvalue := h.value hes.toRegular
  rwa [← hspec, hes.undefaulted e he, Option.or_none] at hvalue

theorem Supplies.contains {s t : Schema} (hes : s.Resolves host es)
    (h : o.Supplies host es d given) {unions : Prop} {item : Value}
    (hholds : d.2.effectiveType.Holds unions given t item) : s.Contains host t := by
  obtain ⟨e, he, hspec⟩ := Entry.spec_of_mem_expand (Pairs.pairwise_keys _) h.mem
  rw [← hspec] at hholds
  exact .of_holds hes he hholds

theorem persists_acceptAll (host : Host) (redact : Bool) (declared : List (Value × OptionSpec))
    (ps : List (Value × Value)) :
    Persists fun fuel => acceptAll (OptionType.accept host fuel) redact declared ps :=
  fun _ _ h => .foldlM _ fun d _ pairs => OptionSpec.persists_accept redact d.2 d.1 pairs _ _ h

theorem persists_accept (host : Host) (redact : Bool) (es : List Entry) (o : Options) :
    Persists fun fuel => o.accept (OptionType.accept host fuel) redact es :=
  fun _ _ h => accept_approximates (OptionType.accept_mono h) redact es o

theorem exists_ends_acceptAll (redact : Bool) {before after : List (Value × OptionSpec)}
    (hexpand : Entry.expand es (Pairs.keys o.pairs) = before ++ after)
    (h : ∀ d given, o.Supplies host es d given → ∀ label cx,
      ∃ fuel, (d.2.effectiveType.accept host fuel label given cx).Ends) :
    ∃ fuel, (acceptAll (OptionType.accept host fuel) redact before o.pairs).Ends := by
  induction before using List.reverseRecOn generalizing after with
  | nil => exact ⟨0, ends_pure _⟩
  | append_singleton before d ih =>
    rw [List.append_assoc, List.singleton_append] at hexpand
    obtain ⟨m, hm⟩ := ih hexpand
    simp only [acceptAll, List.foldlM_append, List.foldlM_cons, List.foldlM_nil, bind_pure]
    cases hbefore : (acceptAll (OptionType.accept host m) redact before o.pairs).result with
    | error f =>
      refine ⟨m, ends_bind.2 ⟨hm, fun held hheld => ?_⟩⟩
      cases hbefore.symm.trans hheld
    | ok held =>
      obtain ⟨n, hn⟩ := OptionSpec.exists_ends_accept redact fun given supplied hsupply =>
        h d given (.intro hexpand hbefore hsupply)
      have hpersists := persists_acceptAll host redact before o.pairs m _
        (Nat.le_max_left m n)
      refine ⟨max m n, ends_bind.2 ⟨hpersists.ends hm, fun held' hheld' => ?_⟩⟩
      cases (hpersists.eq_ok hbefore).symm.trans hheld'
      exact (OptionSpec.persists_accept redact _ _ _ n _ (Nat.le_max_right m n)).ends hn

theorem exists_ends_accept (redact : Bool)
    (h : ∀ d given, o.Supplies host es d given → ∀ label cx,
      ∃ fuel, (d.2.effectiveType.accept host fuel label given cx).Ends) :
    ∃ fuel, (o.accept (OptionType.accept host fuel) redact es).Ends := by
  by_cases hunknown : unknown es o = []
  · obtain ⟨fuel, hfuel⟩ := exists_ends_acceptAll redact (List.append_nil _).symm h
    refine ⟨fuel, ?_⟩
    rwa [accept_eq_acceptAll hunknown, ends_map]
  · refine ⟨0, ?_⟩
    rw [accept_of_unknown hunknown]
    exact ends_reject _

end Options

namespace Schema

variable {s : Schema} {v : Value}

theorem Enters.contains {t : Schema} {item : Value} (h : Enters host (s, v) (t, item)) :
    s.Contains host t := by
  obtain ⟨hes, -, hsupplies, hholds⟩ := h
  exact hsupplies.contains hes hholds

/-- One level of options. Their acceptance ends, if that of all the options does that it comes
upon. -/
theorem exists_ends_accept_of_enters {es : List Entry} (hes : s.Resolves host es) {redact : Bool}
    (h : ∀ t item, Enters host (s, v) (t, item) → ∀ redact,
      ∃ fuel, (t.accept host fuel item redact).Ends) :
    ∃ fuel, (s.accept host fuel v redact).Ends := by
  cases ho : Options.ofValue? v with
  | none =>
    refine ⟨1, ?_⟩
    rw [accept_succ, ho]
    exact ends_reject _
  | some o =>
    obtain ⟨depth, hdepth⟩ := exists_resolve? hes
    obtain ⟨fuel, hfuel⟩ : ∃ fuel, (o.accept (OptionType.accept host fuel) redact es).Ends :=
      Options.exists_ends_accept redact fun d given hsupplies label cx =>
        OptionType.exists_ends_accept cx _ _
          (fun t item hholds => h t item (.intro hes ho hsupplies hholds) _) label
    have happrox := Options.persists_accept host redact es o fuel _ (Nat.le_max_right depth fuel)
    refine ⟨max depth fuel + 1, ?_⟩
    rw [accept_succ, ho]
    dsimp only
    rw [hdepth _ (Nat.le_max_left depth fuel)]
    exact ends_bind.2 ⟨ends_pure _, fun es' hes' => by
      cases hes'
      exact happrox.ends hfuel⟩

/-- The acceptance of options ends unless there is an endless chain of options that it comes upon,
each inside of the ones before. -/
theorem converges_of_acc (hresolves : ∀ t, s.Within host t → ∃ es, t.Resolves host es)
    (h : Acc (flip (Enters host)) (s, v)) (redact : Bool) :
    Converges fun fuel => s.accept host fuel v redact := by
  refine Persists.converges (fun _ _ hle => accept_mono hle s v redact) ?_
  generalize hx : (s, v) = x at h
  induction h generalizing s v redact with
  | intro x _ ih =>
    subst hx
    obtain ⟨es, hes⟩ := hresolves s .refl
    refine exists_ends_accept_of_enters hes fun t item henters redact => ?_
    exact ih (t, item) henters (fun u hu => hresolves u (.head henters.contains hu)) redact rfl

theorem Injects.enters {x y : Schema × Value} (h : Injects host x y) : Enters host x y := by
  obtain ⟨hes, ho, hsupplies, -, hholds⟩ := h
  exact .intro hes ho hsupplies hholds

/-- Options that are not brought in by a default are nested less deep. -/
theorem Enters.injects_or_depth_lt {t : Schema} {item : Value}
    (hs : s.Everywhere host Entry.Regular fun _ => True) (h : Enters host (s, v) (t, item)) :
    Injects host (s, v) (t, item) ∨ item.depth < v.depth := by
  obtain ⟨hes, ho, hsupplies, hholds⟩ := h
  rcases Option.or_eq_some_iff.1 (hsupplies.value (hs.entries hes)) with hfind | ⟨hnone, -⟩
  · obtain ⟨p, hp, rfl⟩ := Option.map_eq_some_iff.1 hfind
    obtain ⟨_, _, hreaches, -, -⟩ := hholds
    have := Value.depth_lt_of_mem_options ho (List.mem_of_find?_eq_some hp)
    have := hreaches.holds.depth_le
    omega
  · exact .inl (.intro hes ho hsupplies hnone hholds)

theorem not_injects {x : Schema × Value} (hs : s.Everywhere host Entry.Undefaulted fun _ => True) :
    ¬Injects host (s, v) x := by
  rintro ⟨hes, -, hsupplies, hnone, -⟩
  have hfind := hsupplies.find? (hs.entries hes)
  rw [hnone] at hfind
  cases hfind

/-- Acceptance by a schema ends, however deep or cyclic the schema is, if nothing in it is declared
twice or renamed or has a default. Each schema that is come upon has options deeper inside the value
to accept, and a value has no endless depth. -/
theorem accept_converges (hs : s.Everywhere host Entry.Undefaulted fun _ => True)
    (hresolves : ∀ t, s.Within host t → ∃ es, t.Resolves host es) (v : Value) (redact : Bool) :
    Converges fun fuel => s.accept host fuel v redact := by
  refine converges_of_acc hresolves ?_ redact
  clear hresolves
  induction hn : v.depth using Nat.strongRecOn generalizing s v with
  | _ n ih =>
    subst hn
    refine .intro _ fun x henters => ?_
    obtain ⟨t, item⟩ := x
    change Enters host (s, v) (t, item) at henters
    have hregular := hs.mono (fun _ h => h.toRegular) fun _ h => h
    have hlt := (henters.injects_or_depth_lt hregular).resolve_left (not_injects hs)
    exact ih _ hlt (hs.contained henters.contains) item rfl

end Schema

def levelEntries (state : String) : List Entry := [
  ⟨.atom "name", .ofType (.basic .string)⟩,
  ⟨.wildcard, .ofType (.union [.basic .nil,
    .listOf (.keywordListOf (.deferred ⟨.closure "level" state, 0⟩))])⟩]

/-- A calling program that makes levels. Each one has captured something else. -/
def levelHost : Host where
  call _ _ := .nil
  produce
    | .closure _ state => .entries (levelEntries (state.push 'i'))
    | _ => .empty

theorem levelEntries_contains {state : String} {s t : Schema}
    (hs : s.Resolves levelHost (levelEntries state)) :
    s.Contains levelHost t ↔ t = .deferred ⟨.closure "level" state, 0⟩ := by
  rw [Schema.contains_iff]
  constructor
  · rintro ⟨es, hes, e, he, hmem⟩
    cases hes.unique hs
    simp only [levelEntries, List.mem_cons, List.not_mem_nil, or_false] at he
    rcases he with rfl | rfl
    · simp [OptionSpec.schemas, OptionSpec.ofType] at hmem
    · simpa [OptionSpec.schemas, OptionSpec.ofType] using hmem
  · rintro rfl
    refine ⟨_, hs, _, .tail _ (.head _), ?_⟩
    simp [OptionSpec.schemas, OptionSpec.ofType]

theorem levelEntries_within {state : String} {t : Schema}
    (h : (Schema.entries (levelEntries state)).Within levelHost t) :
    t = .entries (levelEntries state) ∨ ∃ state, t = .deferred ⟨.closure "level" state, 0⟩ := by
  induction h with
  | refl => exact .inl rfl
  | tail _ hcontains ih =>
    right
    rcases ih with rfl | ⟨state, rfl⟩
    · exact ⟨_, (levelEntries_contains (.entries _)).1 hcontains⟩
    · exact ⟨_, (levelEntries_contains (.deferred (.entries _))).1 hcontains⟩

theorem levelEntries_resolves {state : String} {t : Schema}
    (h : (Schema.entries (levelEntries state)).Within levelHost t) :
    ∃ state, t.Resolves levelHost (levelEntries state) := by
  rcases levelEntries_within h with rfl | ⟨state, rfl⟩
  · exact ⟨_, .entries _⟩
  · exact ⟨_, .deferred (.entries _)⟩

theorem levelEntries_converges :
    (Schema.entries (levelEntries "")).Everywhere levelHost Entry.Undefaulted (fun _ => True) ∧
    (∀ t, (Schema.entries (levelEntries "")).Within levelHost t → ∃ es, t.Resolves levelHost es) ∧
    ∀ v redact, Run.Converges fun fuel =>
      (Schema.entries (levelEntries "")).accept levelHost fuel v redact := by
  have hundefaulted : (Schema.entries (levelEntries "")).Everywhere levelHost Entry.Undefaulted
      fun _ => True := by
    intro t es ht hes
    obtain ⟨state, hstate⟩ := levelEntries_resolves ht
    cases hes.unique hstate
    refine ⟨⟨⟨?_, ?_⟩, ?_⟩, fun _ _ _ _ => trivial⟩
    · simp [Entry.DistinctKeys, levelEntries]
    · simp [levelEntries, OptionSpec.ofType]
    · simp [levelEntries, OptionSpec.ofType]
  have hresolves : ∀ t, (Schema.entries (levelEntries "")).Within levelHost t →
      ∃ es, t.Resolves levelHost es := by
    intro t ht
    obtain ⟨state, hstate⟩ := levelEntries_resolves ht
    exact ⟨_, hstate⟩
  exact ⟨hundefaulted, hresolves, Schema.accept_converges hundefaulted hresolves⟩

end Conform
