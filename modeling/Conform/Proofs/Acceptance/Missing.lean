import Conform.Proofs.Acceptance.Location
import Conform.Proofs.Acceptance.Termination
import Conform.Proofs.Acceptance.Uniqueness

namespace Conform

open Run

variable {host : Host}

def Pairs.keysWith {κ : Type} [BEq κ] (key : κ) (keys : List κ) : List κ :=
  if keys.any (· == key) then keys else keys ++ [key]

theorem Pairs.keys_store_eq_keysWith {κ α : Type} [BEq κ] [PartialEquivBEq κ] (ps : List (κ × α))
    (key : κ) (v : α) : keys (store key v ps) = keysWith key (keys ps) := by
  rw [keys_store, keysWith, any_keys]

namespace OptionSpec

/-- The keys once an option had its turn. An option that is absent and has no default is passed
over. Otherwise its key is there in the end or, if the option is renamed, its new key. -/
def keysAfter (spec : OptionSpec) (key : Value) (keys : List Value) : List Value :=
  if keys.any (· == key) || spec.default?.isSome then
    match spec.renameTo? with
    | none => Pairs.keysWith key keys
    | some target => Pairs.keysWith (.atom target) (keys.filter (· != key))
  else keys

/-- An option leaves the keys alone if it is there and not renamed, or not there and without a
default. -/
def KeepsKeys (spec : OptionSpec) (key : Value) (keys : List Value) : Prop :=
  if keys.any (· == key) then spec.renameTo? = none else spec.default? = none

variable {spec : OptionSpec} {key : Value} {keys : List Value}

theorem keysAfter_of_keeps (h : spec.KeepsKeys key keys) : spec.keysAfter key keys = keys := by
  unfold KeepsKeys at h
  unfold keysAfter Pairs.keysWith
  cases hany : keys.any (· == key) with
  | true =>
    rw [hany, if_pos rfl] at h
    simp [h]
  | false =>
    rw [hany, if_neg Bool.false_ne_true] at h
    simp [h]

variable {acceptance : Acceptance} {redact : Bool} {pairs : List (Value × Value)}

theorem keys_place (v : Value) : Pairs.keys (spec.place key v pairs) =
    match spec.renameTo? with
    | none => Pairs.keysWith key (Pairs.keys pairs)
    | some target =>
      Pairs.keysWith (.atom target) ((Pairs.keys pairs).filter (· != key)) := by
  unfold place
  cases spec.renameTo? with
  | none => exact Pairs.keys_store_eq_keysWith _ _ _
  | some target =>
    dsimp only
    rw [Pairs.keys_store_eq_keysWith, Pairs.keys_erase]

theorem keys_accept {pairs' : List (Value × Value)} (hkey : (key == key) = true)
    (h : (spec.accept acceptance redact key pairs).result = .ok pairs') :
    Pairs.keys pairs' = spec.keysAfter key (Pairs.keys pairs) := by
  unfold keysAfter
  rw [Pairs.any_keys]
  rcases accept_eq_ok.1 h with ⟨hnone, rfl⟩ | ⟨given, supplied, accepted, hsupply, -, rfl⟩
  · rw [supply_eq_none hnone, default?_of_supply_eq_none hnone]
    rfl
  · rw [keys_place]
    rcases supply_eq_some hsupply with ⟨hfind, rfl⟩ | ⟨hnone, hdefault, rfl⟩
    · rw [hfind]
      rfl
    · -- The default comes last, so its key is there only now, and is gone again if it is moved.
      have hkeys : Pairs.keys (pairs ++ [(key, given)]) = Pairs.keys pairs ++ [key] := by
        rw [← Pairs.store_of_absent given hnone, Pairs.keys_store, hnone]
        rfl
      rw [hkeys, hnone, hdefault]
      cases spec.renameTo? with
      | none => simp [Pairs.keysWith, hkey, Pairs.any_keys, hnone]
      | some target => simp [List.filter_append, bne, hkey]

end OptionSpec

namespace Options

def keysAfter (declared : List (Value × OptionSpec)) (keys : List Value) : List Value :=
  declared.foldl (fun keys d => d.2.keysAfter d.1 keys) keys

variable {acceptance : Acceptance} {redact : Bool} {declared : List (Value × OptionSpec)}

theorem keysAfter_of_keeps {keys : List Value} (h : ∀ d ∈ declared, d.2.KeepsKeys d.1 keys) :
    keysAfter declared keys = keys := by
  unfold keysAfter
  induction declared with
  | nil => rfl
  | cons d declared ih =>
    rw [List.foldl_cons, OptionSpec.keysAfter_of_keeps (h d (by simp))]
    exact ih fun d' hd' => h d' (List.mem_cons_of_mem _ hd')

theorem keys_acceptAll {ps held : List (Value × Value)}
    (hself : ∀ d ∈ declared, (d.1 == d.1) = true)
    (h : (acceptAll acceptance redact declared ps).result = .ok held) :
    Pairs.keys held = keysAfter declared (Pairs.keys ps) := by
  unfold keysAfter
  induction declared generalizing ps with
  | nil =>
    cases h
    rfl
  | cons d declared ih =>
    obtain ⟨next, hnext, h⟩ := acceptAll_cons_eq_ok.1 h
    rw [List.foldl_cons, ← OptionSpec.keys_accept (hself d (by simp)) hnext]
    exact ih (fun d' hd' => hself d' (List.mem_cons_of_mem _ hd')) h

/-- When a required option has its turn, its key is not among those that there are by then. -/
inductive Misses (es : List Entry) (o : Options) (key : Value) :
    List (Value × OptionSpec) → List Value → Prop where
  | intro {before spec after} :
      Entry.expand es (Pairs.keys o.pairs) = before ++ (key, spec) :: after →
      spec.required = true →
      (keysAfter before (Pairs.keys o.pairs)).any (· == key) = false →
      Misses es o key before (keysAfter before (Pairs.keys o.pairs))

variable {es : List Entry} {o : Options} {key : Value} {before : List (Value × OptionSpec)}
  {received : List Value}

theorem Misses.received_of_keeps (h : Misses es o key before received)
    (hkeeps : ∀ d ∈ before, d.2.KeepsKeys d.1 (Pairs.keys o.pairs)) :
    received = Pairs.keys o.pairs := by
  cases h with
  | intro _ _ _ => exact keysAfter_of_keeps hkeeps

theorem Misses.mem_expand (h : Misses es o key before received) :
    ∀ d ∈ before, d ∈ Entry.expand es (Pairs.keys o.pairs) := by
  cases h with
  | intro hexpand _ _ => exact fun d hd => hexpand ▸ List.mem_append_left _ hd

theorem Misses.keeps (h : Misses es o key before received) (hes : Entry.Undefaulted es) :
    ∀ d ∈ before, d.2.KeepsKeys d.1 (Pairs.keys o.pairs) := by
  intro d hd
  obtain ⟨entry, hentry, hspec⟩ :=
    Entry.spec_of_mem_expand (Pairs.pairwise_keys o.pairs) (h.mem_expand d hd)
  unfold OptionSpec.KeepsKeys
  rw [← hspec]
  split
  · exact hes.unrenamed entry hentry
  · exact hes.undefaulted entry hentry

end Options

theorem Options.missing_here_or_below {es : List Entry} {o : Options} {fuel : Nat} {redact : Bool}
    {e : ValidationError} {key : Value} {received : List Value}
    (h : (o.accept (OptionType.accept host fuel) redact es).result = .error (.invalid e))
    (hreason : e.reason = .missingOption key received) :
    (∃ before, o.Misses es key before received ∧ e.key = .single key ∧ e.keysPath = []) ∨
    ∃ d given redact', o.Supplies host es d given ∧
      d.2.effectiveType.RejectsBelow host ⟨d.1, redact'⟩ given e := by
  by_cases hknown : unknown es o = []
  · rw [accept_eq_acceptAll hknown, map_eq_error] at h
    obtain ⟨before, d, after, held, hexpand, hbefore, hd⟩ := exists_split_of_foldlM h
    have hself : ∀ b ∈ before, (b.1 == b.1) = true := fun b hb =>
      Entry.beq_self_of_mem_expand (Pairs.pairwise_keys _) (fun k => exists_declared hknown)
        (hexpand ▸ List.mem_append_left _ hb)
    have hkeys := keys_acceptAll hself hbefore
    rcases OptionSpec.rejected_of_accept hd with
      ⟨hnone, hrequired, rfl⟩ | ⟨given, supplied, hsupply, he⟩
    · left
      cases hreason
      rw [hkeys]
      refine ⟨before, .intro hexpand hrequired ?_, rfl, rfl⟩
      rw [← hkeys, Pairs.any_keys, hnone]
      rfl
    · right
      have hsupplies : o.Supplies host es d given := .intro hexpand hbefore hsupply
      rcases OptionType.locates_of_accept he with ⟨reason, rfl, habout⟩ | hbelow
      · -- No type rejects a value for a missing option.
        rw [Context.error_eq] at hreason
        cases hreason
        exact habout.elim
      · exact ⟨d, given, _, hsupplies, hbelow⟩
  · rw [accept_of_unknown hknown] at h
    cases h
    cases hreason

/-- The acceptance of options leads along the keys to further options. Each key has a value when it
has its turn, be it one of those given, a default, or one that was moved there, and in this value,
by the type of the option, there are the next options and their schema. -/
inductive Schema.EntersAlong (host : Host) : Schema → Value → List Value → Schema → Value →
    Prop where
  | here {s v} : EntersAlong host s v [] s v
  | inside {s es v o key spec given t item path u c} : s.Resolves host es →
      Options.ofValue? v = some o → o.Supplies host es (key, spec) given →
      spec.effectiveType.Holds False given t item →
      EntersAlong host t item path u c → EntersAlong host s v (key :: path) u c

namespace Schema

variable {s u : Schema} {v c : Value} {path : List Value}

theorem EntersAlong.everywhere {entries : List Entry → Prop} {types : OptionType → Prop}
    (h : s.EntersAlong host v path u c) (hs : s.Everywhere host entries types) :
    u.Everywhere host entries types := by
  induction h with
  | here => exact hs
  | inside hes _ hsupplies hholds _ ih => exact ih (hs.contained (hsupplies.contains hes hholds))

theorem EntersAlong.leadsAlong (h : s.EntersAlong host v path u c)
    (hs : s.Everywhere host Entry.Undefaulted fun _ => True) : s.LeadsAlong host v path u c := by
  induction h with
  | here => exact .here
  | inside hes ho hsupplies hholds _ ih =>
    have hinner := ih (hs.contained (hsupplies.contains hes hholds))
    have hfind := hsupplies.find? (hs.entries hes)
    exact .inside hes ho (Entry.declares_of_mem_expand hsupplies.mem) hfind hholds hinner

theorem exists_misses_of_accept {fuel : Nat} {redact : Bool} {e : ValidationError} {key : Value}
    {received : List Value} (h : (s.accept host fuel v redact).result = .error (.invalid e))
    (hreason : e.reason = .missingOption key received) :
    e.key = .single key ∧ ∃ t c es o before, s.EntersAlong host v e.keysPath t c ∧
      t.Resolves host es ∧ Options.ofValue? c = some o ∧ o.Misses es key before received := by
  -- Each level of options takes the first key off the path.
  generalize hn : e.keysPath.length = n
  induction n using Nat.strongRecOn generalizing fuel s v redact e with
  | _ n ih =>
    cases ho : Options.ofValue? v with
    | none =>
      cases fuel with
      | zero =>
        rw [accept_zero] at h
        cases h
      | succ fuel =>
        rw [accept_succ, ho] at h
        cases h
        cases hreason
    | some o =>
      obtain ⟨fuel', es, hes, he⟩ := exists_accept_options ho h (by simp)
      rcases Options.missing_here_or_below he hreason with
        ⟨before, hmisses, hkey, hpath⟩ | ⟨d, given, redact', hsupplies, hholds, hinner⟩
      · rw [hpath]
        exact ⟨hkey, s, v, es, o, before, .here, hes, ho, hmisses⟩
      · subst hn
        obtain ⟨hkey, t, c, ds, o', before, hleads, hds, ho', hmisses⟩ :=
          ih _ (Nat.lt_succ_self _) hinner hreason rfl
        exact ⟨hkey, t, c, ds, o', before, .inside hes ho hsupplies hholds hleads, hds, ho',
          hmisses⟩

/-- The error of a missing option. Its path leads to options of which one is required and is absent
when it has its turn, and its message names the keys that there are by then. They are the keys of
these options if the options before leave them alone. So it is if nothing is declared twice or
renamed or has a default, at any level, and then the path leads through what is given. -/
theorem received_of_missing {fuel : Nat} {redact : Bool} {e : ValidationError} {key : Value}
    {received : List Value} (h : (s.accept host fuel v redact).result = .error (.invalid e))
    (hreason : e.reason = .missingOption key received) :
    e.key = .single key ∧
    e.message = "required " ++ (Label.option key).text ++ " not found, received options: " ++
      Value.inspectList received ∧
    ∃ t c es o before, s.EntersAlong host v e.keysPath t c ∧
      t.Resolves host es ∧ Options.ofValue? c = some o ∧ o.Misses es key before received ∧
      ((∀ d ∈ before, d.2.KeepsKeys d.1 (Pairs.keys o.pairs)) →
        received = Pairs.keys o.pairs) ∧
      (s.Everywhere host Entry.Undefaulted (fun _ => True) →
        s.LeadsAlong host v e.keysPath t c ∧ received = Pairs.keys o.pairs) := by
  obtain ⟨hkey, t, c, es, o, before, hleads, hes, ho, hmisses⟩ :=
    exists_misses_of_accept h hreason
  have hmessage : e.message = "required " ++ (Label.option key).text ++
      " not found, received options: " ++ Value.inspectList received := by
    rw [ValidationError.message, hreason, Reason.message.eq_def]
  have hreceived := hmisses.received_of_keeps
  refine ⟨hkey, hmessage, t, c, es, o, before, hleads, hes, ho, hmisses, hreceived, fun hs => ?_⟩
  exact ⟨hleads.leadsAlong hs, hreceived (hmisses.keeps ((hleads.everywhere hs).entries hes))⟩

end Schema

/-- A listener has a host, a number that used to be a port, and a name that must be given. -/
def listenerEntries : List Entry := [
  ⟨.atom "host", { type := .basic .string, default? := some (.string "localhost") }⟩,
  ⟨.atom "port", { type := .basic .integer, renameTo? := some "number" }⟩,
  ⟨.atom "number", .ofType (.basic .integer)⟩,
  ⟨.atom "name", { type := .basic .string, required := true }⟩]

def listenersSchema : Schema :=
  .entries [⟨.atom "listeners", .ofType (.listOf (.keywordListOf (.entries listenerEntries)))⟩]

/-- For a listener that has a port only, the error names the host and the number. For one that has a
number and a host, no option before the name changes the keys, and the error names these two. -/
theorem listenersSchema_received :
    (let v : Value := .keyword [("listeners", .list [.keyword [("port", .integer 80)]])]
    let e : ValidationError := {
      key := .single (.atom "name")
      keysPath := [.atom "listeners"]
      reason := .missingOption (.atom "name") [.atom "host", .atom "number"] }
    (listenersSchema.accept .bare 20 v false).result = .error (.invalid e) ∧
    ∃ t c es o before, listenersSchema.EntersAlong .bare v [.atom "listeners"] t c ∧
      t.Resolves .bare es ∧ Options.ofValue? c = some o ∧
      o.Misses es (.atom "name") before [.atom "host", .atom "number"]) ∧
    let v : Value := .keyword [("number", .integer 80), ("host", .string "gate")]
    let e : ValidationError := {
      key := .single (.atom "name")
      reason := .missingOption (.atom "name") [.atom "number", .atom "host"] }
    (Schema.accept .bare 20 (.entries listenerEntries) v false).result = .error (.invalid e) ∧
    ∃ o before, Options.ofValue? v = some o ∧
      o.Misses listenerEntries (.atom "name") before [.atom "number", .atom "host"] ∧
      (∀ d ∈ before, d.2.KeepsKeys d.1 (Pairs.keys o.pairs)) ∧
      [.atom "number", .atom "host"] = Pairs.keys o.pairs := by
  have h : (listenersSchema.accept .bare 20
      (.keyword [("listeners", .list [.keyword [("port", .integer 80)]])]) false).result =
      .error (.invalid {
        key := .single (.atom "name")
        keysPath := [.atom "listeners"]
        reason := .missingOption (.atom "name") [.atom "host", .atom "number"] }) := by
    with_unfolding_all rfl
  have hkept : (Schema.accept .bare 20 (.entries listenerEntries)
      (.keyword [("number", .integer 80), ("host", .string "gate")]) false).result =
      .error (.invalid {
        key := .single (.atom "name")
        reason := .missingOption (.atom "name") [.atom "number", .atom "host"] }) := by
    with_unfolding_all rfl
  constructor
  · obtain ⟨-, -, t, c, es, o, before, hleads, hes, ho, hmisses, -⟩ :=
      Schema.received_of_missing h rfl
    exact ⟨h, t, c, es, o, before, hleads, hes, ho, hmisses⟩
  · obtain ⟨-, -, t, c, es, o, before, hleads, hes, ho, hmisses, hreceived, -⟩ :=
      Schema.received_of_missing hkept rfl
    -- The path is empty, so the options are those given and the entries those of the listener.
    cases hleads
    cases hes
    have hkeys : Pairs.keys o.pairs = [.atom "number", .atom "host"] := by
      cases ho
      with_unfolding_all rfl
    have hkeeps : ∀ d ∈ Entry.expand listenerEntries (Pairs.keys o.pairs),
        d.2.KeepsKeys d.1 (Pairs.keys o.pairs) := by
      rw [hkeys]
      refine List.forall_mem_cons.2 ⟨by with_unfolding_all rfl, ?_⟩
      refine List.forall_mem_cons.2 ⟨by with_unfolding_all rfl, ?_⟩
      refine List.forall_mem_cons.2 ⟨by with_unfolding_all rfl, ?_⟩
      exact List.forall_mem_singleton.2 (by with_unfolding_all rfl)
    have hbefore := fun d hd => hkeeps d (hmisses.mem_expand d hd)
    exact ⟨hkept, o, before, ho, hmisses, hbefore, hreceived hbefore⟩

/-- Nothing is given, but the error says that a host was received. -/
theorem listenerEntries_received :
    ∃ e, (validate .bare 60 (.entries listenerEntries) (.keyword [])).result =
        .error (.invalid e) ∧
      e.keysPath = [] ∧
      e.reason = .missingOption (.atom "name") [.atom "host"] ∧
      e.message = "required :name option not found, received options: [:host]" ∧
      ∃ o, Options.ofValue? (.keyword []) = some o ∧ Pairs.keys o.pairs = [] := by
  have h : (validate .bare 60 (.entries listenerEntries) (.keyword [])).result =
      .error (.invalid {
        key := .single (.atom "name")
        reason := .missingOption (.atom "name") [.atom "host"] }) := by
    with_unfolding_all rfl
  exact ⟨_, h, rfl, rfl, by decide, ⟨.keyword, []⟩, rfl, rfl⟩

end Conform
