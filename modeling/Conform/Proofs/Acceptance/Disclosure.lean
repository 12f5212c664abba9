import Conform.Proofs.Acceptance.Redaction
import Conform.Proofs.Acceptance.Renaming

namespace Conform

open Run

/-- What a type expects of values that it accepts or rejects as a whole. -/
def OptionType.expectation? : OptionType → Option Expectation
  | .basic b => some (.basic b)
  | .oneOf choices => some (.oneOf choices)
  | .struct name => some (.struct name)
  | _ => none

theorem OptionType.error_of_expectation {host : Host} {fuel : Nat} {t : OptionType}
    {expected : Expectation} (ht : t.expectation? = some expected) {label : Label} {v : Value}
    {cx : Context} {e : ValidationError}
    (h : (t.accept host fuel label v cx).result = .error (.invalid e)) :
    e = cx.error v (.mismatch label expected (if cx.redact then none else some v)) := by
  cases fuel with
  | zero =>
    rw [accept_zero] at h
    cases h
  | succ fuel =>
    cases t with
    | basic b =>
      cases ht
      rw [accept_basic] at h
      split at h
      · cases h
      · exact (Context.reject_eq_invalid.1 h).symm
    | oneOf choices =>
      cases ht
      rw [accept_oneOf] at h
      split at h
      · cases h
      · exact (Context.reject_eq_invalid.1 h).symm
    | struct name =>
      cases ht
      rw [accept_struct] at h
      split at h
      · split at h
        · cases h
        · exact (Context.reject_eq_invalid.1 h).symm
      · exact (Context.reject_eq_invalid.1 h).symm
    | _ => cases ht

theorem Context.error_congr {cx : Context} (h : cx.redact = true) (v w : Value) (reason : Reason) :
    cx.error v reason = cx.error w reason := by
  rw [error_eq, error_eq, h]
  rfl

namespace Options

variable {acceptance : Acceptance} {redact : Bool}

/-- A value is moved and then refused. When the options before were treated, something is given
for `source`, whose type accepts it as `w`, and `source` is renamed to the key of `target`. The
options in between leave `w` there, and the type of `target` rejects it. -/
inductive Refused (acceptance : Acceptance) (redact : Bool) (declared : List (Value × OptionSpec))
    (ps : List (Value × Value)) (source target : Value × OptionSpec) (w : Value) :
    ValidationError → Prop where
  | intro {before mid after held supplied moved given name e} :
      declared = before ++ source :: (mid ++ target :: after) →
      (acceptAll acceptance redact before ps).result = .ok held →
      (source.2.supply source.1 held).result = .ok (some (given, supplied)) →
      (acceptance source.2.effectiveType (.option source.1) given
        ⟨source.1, redact || source.2.redact⟩).result = .ok w →
      source.2.renameTo? = some name → target.1 = .atom name →
      (acceptAll acceptance redact mid (source.2.place source.1 w supplied)).result = .ok moved →
      (∀ d ∈ mid, (d.1 == target.1) = false) →
      (∀ d ∈ mid, ∀ other, d.2.renameTo? = some other → (Value.atom other == target.1) = false) →
      (acceptance target.2.effectiveType (.option target.1) w
        ⟨target.1, redact || target.2.redact⟩).result = .error (.invalid e) →
      Refused acceptance redact declared ps source target w e

variable {declared : List (Value × OptionSpec)} {ps : List (Value × Value)}
  {source target : Value × OptionSpec} {w : Value} {e : ValidationError}

/-- The type of the target gives the error, in a context that has the target's own rules only. -/
theorem Refused.rejected (h : Refused acceptance redact declared ps source target w e) :
    (acceptance target.2.effectiveType (.option target.1) w
      ⟨target.1, redact || target.2.redact⟩).result = .error (.invalid e) := by
  cases h with
  | intro _ _ _ _ _ _ _ _ _ he => exact he

theorem Refused.acceptAll_eq_error (h : Refused acceptance redact declared ps source target w e) :
    (acceptAll acceptance redact declared ps).result = .error (.invalid e) := by
  cases h with
  | @intro before mid after held supplied moved given name _ hdeclared hbefore hsupply haccepted
      hname htarget hmid hkeys hothers he =>
    have hsource : (source.2.accept acceptance redact source.1 held).result =
        .ok (source.2.place source.1 w supplied) :=
      OptionSpec.accept_eq_ok.2 (.inr ⟨given, supplied, w, hsupply, haccepted, rfl⟩)
    -- The value is still there when the target has its turn.
    have hmoved : Pairs.find? moved target.1 = some w := by
      rw [find?_acceptAll hkeys hothers hmid, htarget, OptionSpec.find?_place_target hname]
    have hrefused : (target.2.accept acceptance redact target.1 moved).result =
        .error (.invalid e) := by
      rw [OptionSpec.accept_eq_bind, bind_eq_error]
      refine .inr ⟨some (w, moved), OptionSpec.supply_of_find? hmoved, ?_⟩
      rw [map_eq_error, OptionSpec.result_acceptValue]
      exact he
    rw [hdeclared, acceptAll_append_of_ok hbefore, acceptAll_cons_of_ok hsource,
      acceptAll_append_of_ok hmid, acceptAll_cons_of_error hrefused]

end Options

namespace Schema

/-- Validation of the options `v` moves the value `w` from `source` to `target`, where it is refused
with the error. -/
def Refuses (host : Host) (fuel : Nat) (es : List Entry) (source target : Value × OptionSpec)
    (v w : Value) (e : ValidationError) : Prop :=
  ∃ o, Options.ofValue? v = some o ∧ Options.unknown es o = [] ∧
    Options.Refused (OptionType.accept host fuel) false (Entry.expand es (Pairs.keys o.pairs))
      o.pairs source target w e

variable {host : Host} {fuel : Nat} {c : Compiled} {es : List Entry}
  {source target : Value × OptionSpec} {v w : Value} {e : ValidationError}

theorem Refuses.validate_eq_error (h : Refuses host fuel es source target v w e)
    (hes : c.schema.resolve? host fuel = some es) :
    (c.validate host (fuel + 1) v).result = .error (.invalid e) := by
  obtain ⟨o, ho, hknown, hrefused⟩ := h
  change (c.schema.accept host (fuel + 1) v false).result = _
  rw [accept_succ, ho, hes]
  change (pure es >>= _ : Run Value).result = _
  rw [pure_bind, Options.accept_eq_acceptAll hknown, map_eq_error]
  exact hrefused.acceptAll_eq_error

/-- Validation ends with the error of a moved value that is refused. The value is withheld if the
target is redacted, whatever the rules of the option are under which the value was given. The error
of a type that accepts or rejects values as a whole shows it otherwise; and if it is withheld, all
values that are moved and refused have the same error. -/
theorem refused_error (hes : c.schema.resolve? host fuel = some es)
    (h : Refuses host fuel es source target v w e) :
    (c.validate host (fuel + 1) v).result = .error (.invalid e) ∧
    (target.2.redact = true → e.Withheld) ∧
    ∀ expected, target.2.effectiveType.expectation? = some expected →
      e = (⟨target.1, target.2.redact⟩ : Context).error w
        (.mismatch (.option target.1) expected (if target.2.redact then none else some w)) ∧
      (target.2.redact = true → ∀ v' w' e', Refuses host fuel es source target v' w' e' →
        (c.validate host (fuel + 1) v').result = .error (.invalid e') ∧ e' = e) := by
  have herror : ∀ {v w e}, Refuses host fuel es source target v w e →
      (target.2.effectiveType.accept host fuel (.option target.1) w
        ⟨target.1, target.2.redact⟩).result = .error (.invalid e) := by
    rintro v w e ⟨o, -, -, hrefused⟩
    exact hrefused.rejected
  refine ⟨h.validate_eq_error hes, fun hredact => ?_, fun expected hexpected => ?_⟩
  · exact OptionType.withheld_of_accept hredact (herror h)
  · refine ⟨OptionType.error_of_expectation hexpected (herror h), fun hredact v' w' e' h' => ?_⟩
    refine ⟨h'.validate_eq_error hes, ?_⟩
    calc
      e' = (⟨target.1, target.2.redact⟩ : Context).error w'
          (.mismatch (.option target.1) expected none) := by
        simpa [hredact] using OptionType.error_of_expectation hexpected (herror h')
      _ = (⟨target.1, target.2.redact⟩ : Context).error w
          (.mismatch (.option target.1) expected none) := Context.error_congr hredact w' w _
      _ = e := by
        simpa [hredact] using (OptionType.error_of_expectation hexpected (herror h)).symm

end Schema

def passwordSpec : OptionSpec :=
  { type := .basic .any, renameTo? := some "secret", redact := true }

def secretSpec (redact : Bool) : OptionSpec := { type := .basic .integer, redact }

/-- A password, which is redacted, becomes a secret, which is a number. -/
def secretEntries (redact : Bool) : List Entry :=
  [⟨.atom "password", passwordSpec⟩, ⟨.atom "secret", secretSpec redact⟩]

def passwordPairs (text : String) : List (Value × Value) := [(.atom "password", .string text)]

theorem refuses_secret (redact : Bool) (text : String) :
    Schema.Refuses .bare 9 (secretEntries redact) (.atom "password", passwordSpec)
      (.atom "secret", secretSpec redact) (.keyword [("password", .string text)]) (.string text)
      ((⟨.atom "secret", redact⟩ : Context).error (.string text)
        (.mismatch (.option (.atom "secret")) (.basic .integer)
          (if redact then none else some (.string text)))) := by
  have hdeclared : Entry.expand (secretEntries redact) (Pairs.keys (passwordPairs text)) =
      [] ++ (.atom "password", passwordSpec) :: ([] ++ [(.atom "secret", secretSpec redact)]) := by
    with_unfolding_all rfl
  have hsupply : (passwordSpec.supply (.atom "password") (passwordPairs text)).result =
      .ok (some (.string text, passwordPairs text)) := by
    with_unfolding_all rfl
  have hrejected : (OptionType.accept .bare 9 (.basic .integer) (.option (.atom "secret"))
      (.string text) ⟨.atom "secret", redact⟩).result = .error (.invalid
        ((⟨.atom "secret", redact⟩ : Context).error (.string text)
          (.mismatch (.option (.atom "secret")) (.basic .integer)
            (if redact then none else some (.string text))))) := by
    rw [OptionType.accept_basic]
    rfl
  refine ⟨⟨.keyword, passwordPairs text⟩, rfl, by with_unfolding_all rfl, ?_⟩
  exact .intro hdeclared rfl hsupply (by with_unfolding_all rfl) rfl rfl rfl (by simp) (by simp)
    hrejected

theorem secretEntries_withheld : ∃ e,
    (Compiled.validate .bare 10 ⟨.entries (secretEntries true)⟩
      (.keyword [("password", .string "hunter2")])).result = .error (.invalid e) ∧
    e.value?.isSome ∧ e.Withheld ∧
    (Compiled.validate .bare 10 ⟨.entries (secretEntries true)⟩
      (.keyword [("password", .string "swordfish")])).result = .error (.invalid e) := by
  obtain ⟨hresult, hwithheld, hequal⟩ := Schema.refused_error
    (c := ⟨.entries (secretEntries true)⟩) rfl (refuses_secret true "hunter2")
  obtain ⟨hother, heq⟩ := (hequal _ rfl).2 rfl _ _ _ (refuses_secret true "swordfish")
  rw [heq] at hother
  exact ⟨_, hresult, rfl, hwithheld rfl, hother⟩

/-- Without rules of its own the secret is shown, though the password was redacted. -/
theorem secretEntries_disclosed :
    (Schema.compile .bare 60 (.entries (secretEntries false))).result =
      .ok ⟨.entries (secretEntries false)⟩ ∧
    ∃ e e',
      Schema.Refuses .bare 9 (secretEntries false) (.atom "password", passwordSpec)
        (.atom "secret", secretSpec false) (.keyword [("password", .string "hunter2")])
        (.string "hunter2") e ∧
      Schema.Refuses .bare 9 (secretEntries false) (.atom "password", passwordSpec)
        (.atom "secret", secretSpec false) (.keyword [("password", .string "swordfish")])
        (.string "swordfish") e' ∧
      (Compiled.validate .bare 10 ⟨.entries (secretEntries false)⟩
        (.keyword [("password", .string "hunter2")])).result = .error (.invalid e) ∧
      (Compiled.validate .bare 10 ⟨.entries (secretEntries false)⟩
        (.keyword [("password", .string "swordfish")])).result = .error (.invalid e') ∧
      e.value? = some (.string "hunter2") ∧ e'.value? = some (.string "swordfish") :=
  ⟨by with_unfolding_all rfl, _, _, refuses_secret false "hunter2",
    refuses_secret false "swordfish", by with_unfolding_all rfl, by with_unfolding_all rfl, rfl,
    rfl⟩

end Conform
