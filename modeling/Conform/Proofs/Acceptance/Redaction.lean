import Conform.Proofs.Acceptance.Rejection
import Conform.Proofs.Compiled.Placement

namespace Conform

open Run

namespace ValidationError

/-- The error carries no value, or it is redacted and carries the placeholder. -/
def Withheld (e : ValidationError) : Prop :=
  ∀ v, e.value? = some v → v = redactedValue ∧ e.redact = true

/-- The keys that lead from the options to the one that the error is about. -/
def location (e : ValidationError) : List Value :=
  e.keysPath ++ match e.key with
    | .single key => [key]
    | _ => []

theorem location_under (key : Value) (e : ValidationError) :
    (e.under [key]).location = key :: e.location := rfl

theorem withheld_of_value?_none {e : ValidationError} (h : e.value? = none) : e.Withheld := by
  intro v hv
  rw [h] at hv
  cases hv

end ValidationError

theorem Context.withheld_error {cx : Context} (h : cx.redact = true) (v : Value)
    (reason : Reason) : (cx.error v reason).Withheld := by
  intro w hw
  rw [error_eq, h] at hw ⊢
  cases hw
  exact ⟨rfl, rfl⟩

theorem OptionSpec.rejects_of_accept {host : Host} {fuel : Nat} {redact : Bool} {spec : OptionSpec}
    {key : Value} {pairs : List (Value × Value)} {e : ValidationError}
    (h : (spec.accept (OptionType.accept host fuel) redact key pairs).result =
      .error (.invalid e)) :
    e.key = .single key ∧ e.keysPath = [] ∧ ((redact || spec.redact) = true → e.Withheld) ∨
      spec.effectiveType.RejectsInside host ⟨key, redact || spec.redact⟩ e := by
  rcases rejected_of_accept h with ⟨-, -, rfl⟩ | ⟨given, _, -, htype⟩
  · exact .inl ⟨rfl, rfl, fun _ => ValidationError.withheld_of_value?_none rfl⟩
  · rcases OptionType.rejects_of_accept htype with ⟨reason, rfl⟩ | hinside
    · refine .inl ⟨?_, ?_, fun hredact => Context.withheld_error hredact given reason⟩
      · rw [Context.error_eq]
      · rw [Context.error_eq]
    · exact .inr hinside

namespace Schema

variable {host : Host}

/-- The options are rejected with the error, which arises along a chain of options: each one after
the first is declared for the options in the value of the one before it, and the last one is what
the error is about. The flag says whether the options are redacted from further up. -/
inductive RejectedAlong (host : Host) :
    Schema → Value → Bool → List (Value × OptionSpec) → ValidationError → Prop where
  | whole {s v redact fuel e} : (s.accept host fuel v redact).result = .error (.invalid e) →
      e.keysPath = [] → (∀ key, e.key ≠ .single key) → RejectedAlong host s v redact [] e
  | option {s es v o redact d pairs fuel e} : s.Resolves host es → Options.ofValue? v = some o →
      d ∈ Entry.expand es (Pairs.keys o.pairs) →
      (d.2.accept (OptionType.accept host fuel) redact d.1 pairs).result = .error (.invalid e) →
      e.keysPath = [] → RejectedAlong host s v redact [d] e
  | inside {s es v o redact d u b t item options ds e} : s.Resolves host es →
      Options.ofValue? v = some o → d ∈ Entry.expand es (Pairs.keys o.pairs) →
      OptionType.Part u d.2.effectiveType → u.container? = some (b, t) →
      b.accept? item = some options →
      RejectedAlong host t options (redact || d.2.redact) ds e →
      RejectedAlong host s v redact (d :: ds) (e.under [d.1])

theorem exists_rejectedAlong {fuel : Nat} {s : Schema} {v : Value} {redact : Bool}
    {e : ValidationError} (h : (s.accept host fuel v redact).result = .error (.invalid e)) :
    ∃ ds, RejectedAlong host s v redact ds e := by
  -- Each level of options takes the first key off the path.
  generalize hpath : e.keysPath = path
  induction path generalizing fuel s v redact e with
  | nil =>
    rcases rejected_of_accept h with ⟨hwhole, -⟩ | ⟨es, o, d, pairs, fuel', hes, ho, hd, hoption⟩
    · refine ⟨[], .whole h hpath fun key hkey => ?_⟩
      rcases hwhole with ⟨-, hroot⟩ | ⟨⟨keys, hunknown⟩, -⟩
      · rw [hroot] at hkey
        cases hkey
      · rw [hunknown] at hkey
        cases hkey
    · exact ⟨[d], .option hes ho hd hoption hpath⟩
  | cons key path ih =>
    rcases rejected_of_accept h with ⟨-, hnil⟩ | ⟨es, o, d, pairs, fuel', hes, ho, hd, hoption⟩
    · rw [hnil] at hpath
      cases hpath
    · rcases OptionSpec.rejects_of_accept hoption with ⟨-, hnil, -⟩ | ⟨hu, hcontainer, hitem, he⟩
      · rw [hnil] at hpath
        cases hpath
      · obtain ⟨ds, hds⟩ := ih he (List.cons.inj hpath).2
        exact ⟨d :: ds, .inside hes ho hd hu hcontainer hitem hds⟩

namespace RejectedAlong

variable {s : Schema} {v : Value} {redact : Bool} {ds : List (Value × OptionSpec)}
  {d : Value × OptionSpec} {e : ValidationError}

theorem mem_expand (h : RejectedAlong host s v redact (d :: ds) e) {es : List Entry}
    (hes : s.Resolves host es) {o : Options} (ho : Options.ofValue? v = some o) :
    d ∈ Entry.expand es (Pairs.keys o.pairs) := by
  cases h with
  | option hes' ho' hd _ _ | inside hes' ho' hd _ _ _ _ =>
    cases hes'.unique hes
    cases ho'.symm.trans ho
    exact hd

theorem location_eq (h : RejectedAlong host s v redact ds e) :
    e.location = ds.map Prod.fst := by
  induction h with
  | @whole _ _ _ _ e _ hpath hkey =>
    unfold ValidationError.location
    rw [hpath]
    cases hcases : e.key with
    | single key => exact absurd hcases (hkey key)
    | unknown keys => rfl
    | root => rfl
  | option _ _ _ h hpath =>
    rcases OptionSpec.rejects_of_accept h with ⟨hkey, -, -⟩ | hinside
    · simp [ValidationError.location, hpath, hkey]
    · exact absurd hpath hinside.keysPath_ne_nil
  | inside _ _ _ _ _ _ _ ih => rw [ValidationError.location_under, ih, List.map_cons]

theorem withheld (h : RejectedAlong host s v redact ds e)
    (hredact : redact = true ∧ (Options.ofValue? v).isSome ∨ ∃ d ∈ ds, d.2.redact = true) :
    e.Withheld := by
  induction h with
  | whole h hpath hkey =>
    rcases rejected_of_accept h with ⟨⟨hnone, -⟩ | ⟨-, hvalue⟩, -⟩ | ⟨_, _, d, _, _, -, -, -, h⟩
    · simp [hnone] at hredact
    · exact ValidationError.withheld_of_value?_none hvalue
    · rcases OptionSpec.rejects_of_accept h with ⟨hsingle, -, -⟩ | hinside
      · exact absurd hsingle (hkey d.1)
      · exact absurd hpath hinside.keysPath_ne_nil
  | @option _ _ _ _ redact d _ _ _ _ _ _ h hpath =>
    have hflag : (redact || d.2.redact) = true := by
      rw [Bool.or_eq_true]
      simpa using hredact.imp_left And.left
    rcases OptionSpec.rejects_of_accept h with ⟨-, -, hwithheld⟩ | hinside
    · exact hwithheld hflag
    · exact absurd hpath hinside.keysPath_ne_nil
  | @inside _ _ _ _ redact d _ _ _ _ _ ds _ _ _ _ _ hcontainer hitem _ ih =>
    -- Whatever is redacted so far has its flag passed on.
    refine ih ?_
    rcases hredact with ⟨hredact, -⟩ | ⟨d', hd', hredact⟩
    · exact .inl ⟨by rw [hredact, Bool.true_or], OptionType.isSome_ofValue? hcontainer hitem⟩
    · rcases List.mem_cons.1 hd' with rfl | hd'
      · exact .inl ⟨by rw [hredact, Bool.or_true], OptionType.isSome_ofValue? hcontainer hitem⟩
      · exact .inr ⟨d', hd', hredact⟩

end RejectedAlong

end Schema

theorem OptionType.withheld_of_accept {host : Host} {fuel : Nat} {t : OptionType} {label : Label}
    {v : Value} {cx : Context} {e : ValidationError} (hredact : cx.redact = true)
    (h : (t.accept host fuel label v cx).result = .error (.invalid e)) : e.Withheld := by
  rcases rejects_of_accept h with ⟨reason, rfl⟩ | ⟨-, hcontainer, hitem, he⟩
  · exact Context.withheld_error hredact v reason
  · obtain ⟨ds, hds⟩ := Schema.exists_rejectedAlong he
    exact hds.withheld (.inl ⟨hredact, isSome_ofValue? hcontainer hitem⟩)

namespace Schema

variable {host : Host}

/-- Validation withholds redacted values. An error about an option whose rules are redacted, or from
inside the value of such an option, carries no value, or it is redacted and carries the placeholder.
This is so at every depth: an error arises along a chain of options that are its location, and it is
enough that one of them is redacted. -/
theorem withheld_of_redact {c : Compiled} {es : List Entry} (hes : c.schema.Resolves host es)
    (hd : Entry.DistinctKeys es) {fuel : Nat} {v : Value} {e : ValidationError}
    (h : (c.validate host fuel v).result = .error (.invalid e)) :
    (∀ o key spec k, Options.ofValue? v = some o → Entry.Declares es o.pairs key spec →
      spec.redact = true → (k == key) = true →
      e.key = .single k ∧ e.keysPath = [] ∨ e.keysPath.head? = some k → e.Withheld) ∧
    (∃ ds, RejectedAlong host c.schema v false ds e) ∧
    ∀ ds, RejectedAlong host c.schema v false ds e →
      e.location = ds.map Prod.fst ∧ ((∃ d ∈ ds, d.2.redact = true) → e.Withheld) := by
  have halong : ∃ ds, RejectedAlong host c.schema v false ds e := exists_rejectedAlong h
  refine ⟨fun o key spec k ho hspec hredact hk hplace => ?_, halong, fun ds hds => ?_⟩
  · obtain ⟨ds, hds⟩ := halong
    have hhead : (ds.map Prod.fst).head? = some k := by
      rw [← hds.location_eq, ValidationError.location]
      rcases hplace with ⟨hkey, hnil⟩ | hpath
      · rw [hkey, hnil]
        rfl
      · rw [List.head?_append, hpath]
        rfl
    -- The first option of the chain is the redacted one.
    cases ds with
    | nil => cases hhead
    | cons d ds =>
      cases hhead
      have hrules := hspec.eq_of_mem_expand hd (hds.mem_expand hes ho) hk
      exact hds.withheld (.inr ⟨d, by simp, by rw [hrules, hredact]⟩)
  · exact ⟨hds.location_eq, fun hredact => hds.withheld (.inr hredact)⟩

end Schema

/-- Accounts by their names, which are all redacted. Their tokens are declared without that. -/
def vaultEntries : List Entry := [⟨.wildcard, {
  type := .listOf (.basic .map)
  keys? := some (.entries [⟨.string "token", .ofType (.basic .integer)⟩])
  redact := true }⟩]

def vaultPairs : List (Value × Value) :=
  [(.string "db", .list [.map [(.string "token", .string "hunter2")]])]

theorem vaultEntries_withheld : Entry.DistinctKeys vaultEntries ∧
    ∃ e, (Compiled.validate .bare 20 ⟨.entries vaultEntries⟩ (.map vaultPairs)).result =
        .error (.invalid e) ∧
      e.location = [.string "db", .string "token"] ∧ e.value?.isSome ∧ e.Withheld := by
  have hdistinct : Entry.DistinctKeys vaultEntries := by simp [Entry.DistinctKeys, vaultEntries]
  have hresult : (Compiled.validate .bare 20 ⟨.entries vaultEntries⟩ (.map vaultPairs)).result =
      .error (.invalid {
        key := .single (.string "token")
        keysPath := [.string "db"]
        reason := .mismatch (.option (.string "token")) (.basic .integer) none
        value? := some redactedValue
        redact := true }) := by
    with_unfolding_all rfl
  refine ⟨hdistinct, _, hresult, rfl, rfl, ?_⟩
  have hdeclares : Entry.Declares vaultEntries vaultPairs (.string "db") vaultEntries[0].spec :=
    .wildcard (p := vaultPairs[0]) (by simp) rfl (by simp)
      (by simp [vaultEntries, SchemaKey.option?])
  exact (Schema.withheld_of_redact (.entries _) hdistinct hresult).1 ⟨.map, vaultPairs⟩
    (.string "db") _ (.string "db") rfl hdeclares rfl (Value.beq_self_iff.2 rfl) (.inr rfl)

end Conform
