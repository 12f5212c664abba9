import Conform.Proofs.Acceptance.Pointwise
import Conform.Proofs.Acceptance.Rejection
import Conform.Proofs.Schema.Inside

namespace Conform

open Run

namespace Options

variable {acceptance : Acceptance} {redact : Bool} {es : List Entry} {o : Options}

open Classical in
theorem unknown_eq_filter :
    unknown es o = (Pairs.keys o.pairs).filter (¬Entry.Knows es ·) := by
  apply List.filter_congr
  intro key hkey
  rw [Bool.eq_iff_iff]
  simp only [Bool.not_eq_true', List.any_eq_false, decide_eq_true_eq]
  constructor
  · intro h hknows
    obtain ⟨spec, hmem⟩ := Entry.exists_mem_expand hkey hknows
    exact h _ hmem (Value.beq_self_iff.2 hknows.1)
  · exact fun h d hmem hdk => h (Entry.knows_of_mem_expand hmem hdk)

/-- How options are rejected if nothing is renamed and there are no defaults. Some keys are unknown,
or a required option is missing, or the value that an option has at first is rejected. -/
theorem rejected_of_accept (hes : Entry.Undefaulted es) {e : ValidationError}
    (h : (o.accept acceptance redact es).result = .error (.invalid e)) :
    (∃ reason, e = { key := .unknown (unknown es o), reason }) ∨
    ∃ d ∈ Entry.expand es (Pairs.keys o.pairs),
      (Pairs.find? o.pairs d.1 = none ∧ d.2.required = true ∧
        ∃ reason, e = { key := .single d.1, reason }) ∨
      ∃ w, Pairs.find? o.pairs d.1 = some w ∧
        (acceptance d.2.effectiveType (.option d.1) w ⟨d.1, redact || d.2.redact⟩).result =
          .error (.invalid e) := by
  by_cases hunknown : unknown es o = []
  · rw [accept_of_known hes.toRegular hunknown, map_eq_error] at h
    obtain ⟨d, hd, received, hsettle⟩ := exists_of_settleAll_eq_error h
    refine .inr ⟨d, hd, ?_⟩
    rcases OptionSpec.settle_eq_error.1 hsettle with ⟨hfind, hrequired, he⟩ | ⟨-, w, hw, he⟩
    · cases he
      exact .inl ⟨hfind, hrequired, _, rfl⟩
    · obtain ⟨entry, hmem, hspec⟩ := Entry.spec_of_mem_expand (Pairs.pairwise_keys _) hd
      rw [← hspec, hes.undefaulted entry hmem, Option.or_none] at hw
      rw [OptionSpec.result_acceptValue] at he
      exact .inr ⟨w, hw, he⟩
  · rw [accept_of_unknown hunknown] at h
    cases h
    exact .inl ⟨_, rfl⟩

end Options

/-- Each key of the path has its first value among the options that the path has led to, and in
this value, by the type that the schema has for the key, there are the next options and their
schema. Between two keys the way leads through elements of lists and tuples, and through keys and
values of maps, but not through unions. -/
inductive Schema.LeadsAlong (host : Host) : Schema → Value → List Value → Schema → Value →
    Prop where
  | here {s v} : LeadsAlong host s v [] s v
  | inside {s es v o key spec w t item path u c} : s.Resolves host es →
      Options.ofValue? v = some o → Entry.Declares es o.pairs key spec →
      Pairs.find? o.pairs key = some w → spec.effectiveType.Holds False w t item →
      LeadsAlong host t item path u c → LeadsAlong host s v (key :: path) u c

namespace ValidationError

open Classical in
/-- What an error says is so, if the options are `pairs`. An option that has a value is declared,
and the value is the first one under its key, or the placeholder for it. An option without a value
is required and absent. Unknown options are all those with keys that the entries do not know. -/
def Describes (e : ValidationError) (es : List Entry) (pairs : List (Value × Value)) : Prop :=
  match e.key, e.value? with
  | .single key, some v => ∃ spec first, Entry.Declares es pairs key spec ∧
      Pairs.find? pairs key = some first ∧ v = if e.redact then redactedValue else first
  | .single key, none => ∃ spec, Entry.Declares es pairs key spec ∧ spec.required = true ∧
      Pairs.find? pairs key = none
  | .unknown keys, v? => v? = none ∧ keys = (Pairs.keys pairs).filter (¬Entry.Knows es ·)
  | .root, _ => False

def Points (host : Host) (e : ValidationError) (s : Schema) (v : Value) : Prop :=
  ∃ t c es o, s.LeadsAlong host v e.keysPath t c ∧ t.Resolves host es ∧
    Options.ofValue? c = some o ∧ e.Describes es o.pairs

def Refuses (e : ValidationError) (v : Value) : Prop :=
  Options.ofValue? v = none ∧ e.key = .root ∧ e.keysPath = []

variable {host : Host} {s t : Schema} {es : List Entry} {v item : Value} {o : Options}
  {e : ValidationError}

theorem Points.of_describes (hes : s.Resolves host es) (ho : Options.ofValue? v = some o)
    (hpath : e.keysPath = []) (h : e.Describes es o.pairs) : e.Points host s v := by
  refine ⟨s, v, es, o, ?_, hes, ho, h⟩
  rw [hpath]
  exact .here

theorem Points.under (hes : s.Resolves host es) (ho : Options.ofValue? v = some o) {key : Value}
    {spec : OptionSpec} (hspec : Entry.Declares es o.pairs key spec) {w : Value}
    (hw : Pairs.find? o.pairs key = some w)
    (hholds : spec.effectiveType.Holds False w t item) (h : e.Points host t item) :
    (e.under [key]).Points host s v := by
  obtain ⟨u, c, ds, o', hleads, hds, ho', hdescribes⟩ := h
  exact ⟨u, c, ds, o', .inside hes ho hspec hw hholds hleads, hds, ho', hdescribes⟩

end ValidationError

/-- One level of options. The error points right at them, or there are none, or it comes from below
the value of an option, with the key of the option put before its path. -/
theorem Schema.points_or_below {host : Host} {fuel : Nat} {s : Schema} {v : Value} {redact : Bool}
    {e : ValidationError} (hs : s.Everywhere host Entry.Undefaulted fun _ => True)
    (h : (s.accept host fuel v redact).result = .error (.invalid e)) :
    e.Points host s v ∨ e.Refuses v ∨
    ∃ es o d w redact', s.Resolves host es ∧ Options.ofValue? v = some o ∧
      d ∈ Entry.expand es (Pairs.keys o.pairs) ∧ Pairs.find? o.pairs d.1 = some w ∧
      d.2.effectiveType.RejectsBelow host ⟨d.1, redact'⟩ w e := by
  cases fuel with
  | zero =>
    rw [accept_zero] at h
    cases h
  | succ fuel =>
    rw [accept_succ] at h
    split at h
    next hnone =>
      cases h
      exact .inr (.inl ⟨hnone, rfl, rfl⟩)
    next o ho =>
      rcases bind_eq_error.1 h with h | ⟨es, hes, h⟩
      · cases hes : s.resolve? host fuel <;> rw [hes] at h <;> cases h
      · have hresolves := resolves_of_resolve? (ofOption_eq_ok.1 hes)
        have hplain := hs.entries hresolves
        -- Some keys are unknown, or an option is missing, or the value of one is rejected.
        rcases Options.rejected_of_accept hplain h with ⟨reason, rfl⟩ | ⟨d, hd, h⟩
        · left
          exact .of_describes hresolves ho rfl
            ⟨rfl, Options.unknown_eq_filter⟩
        · have hspec := Entry.declares_of_mem_expand hd
          rcases h with ⟨hfind, hrequired, reason, rfl⟩ | ⟨w, hw, h⟩
          · exact .inl (.of_describes hresolves ho rfl ⟨d.2, hspec, hrequired, hfind⟩)
          · rcases OptionType.locates_of_accept h with ⟨reason, rfl, -⟩ | hbelow
            · left
              rw [Context.error_eq]
              exact .of_describes hresolves ho rfl ⟨d.2, w, hspec, hw, rfl⟩
            · right; right
              exact ⟨es, o, d, w, _, hresolves, ho, hd, hw, hbelow⟩

/-- Errors point at the offender. If nothing in a schema is declared twice or renamed or has a
default, at any level, the path of an error leads through the first values of its keys, and through
the schemas that the effective types have for them, to options that are as the error says. -/
theorem Schema.error_points {host : Host} {fuel : Nat} {s : Schema} {v : Value} {redact : Bool}
    {e : ValidationError} (hs : s.Everywhere host Entry.Undefaulted fun _ => True)
    (h : (s.accept host fuel v redact).result = .error (.invalid e)) :
    e.Points host s v ∨ e.Refuses v := by
  -- Each level of options takes the first key off the path.
  generalize hn : e.keysPath.length = n
  induction n using Nat.strongRecOn generalizing fuel s v redact e with
  | _ n ih =>
    rcases points_or_below hs h with
      hpoints | hrefuses | ⟨es, o, d, w, redact', hes, ho, hd, hw, ⟨hholds, hinner⟩⟩
    · exact .inl hpoints
    · exact .inr hrefuses
    · obtain ⟨entry, hentry, hspec⟩ := Entry.spec_of_mem_expand (Pairs.pairwise_keys _) hd
      rw [← hspec] at hholds
      have ht := hs.contained (.of_holds hes hentry hholds)
      subst hn
      rcases ih _ (Nat.lt_succ_self _) ht hinner rfl with hpoints | ⟨hnone, -⟩
      · rw [hspec] at hholds
        exact .inl (.under hes ho (Entry.declares_of_mem_expand hd) hw hholds hpoints)
      · have hsome := hholds.isSome_ofValue?
        rw [hnone] at hsome
        cases hsome

def stopEntries : List Entry := [
  ⟨.atom "number", { type := .basic .integer, required := true }⟩,
  ⟨.string "legs", .ofType (.mapOf (.basic .string)
    (.tupleOf [.basic .integer, .listOf (.keywordListOf (.deferred ⟨.function "stop", 0⟩))]))⟩]

def stopHost : Host where
  call _ _ := .nil
  produce _ := .entries stopEntries

theorem stopEntries_undefaulted :
    (Schema.entries stopEntries).Everywhere stopHost Entry.Undefaulted fun _ => True := by
  let listed : List (Schema × List Entry) := [
    (.entries stopEntries, stopEntries),
    (.deferred ⟨.function "stop", 0⟩, stopEntries)]
  have hundefaulted : Entry.Undefaulted stopEntries :=
    ⟨⟨by simp [Entry.DistinctKeys, stopEntries], by simp [stopEntries, OptionSpec.ofType]⟩,
      by simp [stopEntries, OptionSpec.ofType]⟩
  have hschemas : ∀ u ∈ stopEntries.flatMap fun e => e.spec.schemas, ∃ y ∈ listed, y.1 = u := by
    simp [listed, stopEntries, OptionSpec.schemas, OptionSpec.ofType]
  refine .of_listed listed ?_ ⟨_, .head _, rfl⟩ ?_ <;>
    simp only [listed, List.forall_mem_cons, List.not_mem_nil, false_implies, implies_true,
      and_true]
  · exact ⟨⟨.entries _, hschemas⟩, .deferred (.entries _), hschemas⟩
  · exact ⟨hundefaulted, hundefaulted⟩

/-- The second stop after the first leg is the offender. -/
theorem stopEntries_points :
    (Schema.entries stopEntries).Everywhere stopHost Entry.Undefaulted (fun _ => True) ∧
    ∃ v e, ((Schema.entries stopEntries).accept stopHost 20 v false).result = .error (.invalid e) ∧
      e.key = .single (.atom "number") ∧ e.keysPath = [.string "legs"] ∧
      e.value? = some (.string "two") ∧
      (e.Points stopHost (.entries stopEntries) v ∨ e.Refuses v) := by
  let v : Value := .map [(.atom "number", .integer 0), (.string "legs", .map [
    (.string "east", .tuple [.integer 90, .list [
      .keyword [("number", .integer 1)], .keyword [("number", .string "two")]]])])]
  have hresult : ((Schema.entries stopEntries).accept stopHost 20 v false).result =
      .error (.invalid {
        key := .single (.atom "number")
        keysPath := [.string "legs"]
        reason := .mismatch (.option (.atom "number")) (.basic .integer) (some (.string "two"))
        value? := some (.string "two") }) := by
    with_unfolding_all rfl
  exact ⟨stopEntries_undefaulted, v, _, hresult, rfl, rfl, rfl,
    Schema.error_points stopEntries_undefaulted hresult⟩

end Conform
