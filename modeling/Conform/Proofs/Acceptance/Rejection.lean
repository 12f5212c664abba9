import Conform.Proofs.Acceptance.Origin

namespace Conform

open Run

/-- The reasons for which a type rejects a value; the others are about options. -/
def Reason.AboutValue : Reason → Prop
  | .mismatch .. | .arity .. | .stated _ | .element .. | .noAlternative .. => True
  | _ => False

theorem Reason.aboutValue_within {r : Reason} (h : r.Own) (steps : List (Container × Label)) :
    (r.within steps).AboutValue := by
  cases steps with
  | nil => cases r <;> trivial
  | cons => trivial

namespace OptionType

variable {host : Host} {cx : Context} {t u : OptionType} {v : Value} {e : ValidationError}

/-- The error comes from options inside a value of the type: a schema in the type has rejected the
options of a container, and the key of the context stands before the path to them. -/
inductive RejectsInside (host : Host) (t : OptionType) (cx : Context) : ValidationError → Prop where
  | intro {u b s item options fuel e} : Part u t → u.container? = some (b, s) →
      b.accept? item = some options →
      (s.accept host fuel options cx.redact).result = .error (.invalid e) →
      RejectsInside host t cx (e.under [cx.key])

def Rejects (host : Host) (t : OptionType) (cx : Context) (v : Value) (e : ValidationError) :
    Prop :=
  (∃ reason, cx.error v reason = e) ∨ t.RejectsInside host cx e

theorem RejectsInside.keysPath_ne_nil (h : t.RejectsInside host cx e) : e.keysPath ≠ [] := by
  cases h with
  | intro _ _ _ _ => simp [ValidationError.under]

/-- The error comes from options further down in the value: a schema has rejected them, and the key
of the context stands before the path to them. What unions reject is not among these errors. -/
inductive RejectsBelow (host : Host) (t : OptionType) (cx : Context) (v : Value) :
    ValidationError → Prop where
  | intro {s item fuel e} : t.Holds False v s item →
      (s.accept host fuel item cx.redact).result = .error (.invalid e) →
      RejectsBelow host t cx v (e.under [cx.key])

def Locates (host : Host) (t : OptionType) (cx : Context) (v : Value) (e : ValidationError) :
    Prop :=
  (∃ reason, cx.error v reason = e ∧ reason.AboutValue) ∨ t.RejectsBelow host cx v e

theorem RejectsBelow.inside (h : t.RejectsBelow host cx v e) : t.RejectsInside host cx e := by
  obtain ⟨⟨u, b, hreaches, hcontainer, hmember⟩, he⟩ := h
  obtain ⟨options, hitem⟩ := Option.isSome_iff_exists.1 (BasicType.accept?_isSome.2 hmember)
  rw [← accept_options hcontainer hitem] at he
  exact .intro hreaches.part hcontainer hitem he

theorem locates_of_accept {fuel : Nat} {label : Label}
    (h : (t.accept host fuel label v cx).result = .error (.invalid e)) : t.Locates host cx v e := by
  obtain ⟨steps, u, inner, w, hdescends, ⟨reason, fuel', hown, -, rfl⟩ | hnested⟩ :=
    (arises_of_accept h).along
  · exact .inl ⟨_, rfl, Reason.aboutValue_within hown steps⟩
  · obtain ⟨b, s, fuel', inner, hcontainer, hmember, hw, rfl⟩ := hnested
    exact .inr (.intro ⟨u, b, hdescends.reaches False, hcontainer, hmember⟩ hw)

theorem rejects_of_accept {fuel : Nat} {label : Label}
    (h : (t.accept host fuel label v cx).result = .error (.invalid e)) : t.Rejects host cx v e :=
  (locates_of_accept h).imp (fun ⟨reason, h, _⟩ => ⟨reason, h⟩) RejectsBelow.inside

end OptionType

theorem OptionSpec.rejected_of_accept {acceptance : Acceptance} {redact : Bool} {spec : OptionSpec}
    {key : Value} {pairs : List (Value × Value)} {e : ValidationError}
    (h : (spec.accept acceptance redact key pairs).result = .error (.invalid e)) :
    (Pairs.find? pairs key = none ∧ spec.required = true ∧
      e = { key := .single key, reason := .missingOption key (Pairs.keys pairs) }) ∨
    ∃ given supplied, (spec.supply key pairs).result = .ok (some (given, supplied)) ∧
      (acceptance spec.effectiveType (.option key) given ⟨key, redact || spec.redact⟩).result =
        .error (.invalid e) := by
  rw [accept_eq_bind] at h
  rcases bind_eq_error.1 h with h | ⟨_ | ⟨given, supplied⟩, hsupply, h⟩
  · unfold supply at h
    split at h
    · cases h
    next hnone =>
      split at h
      next hrequired =>
        cases h
        exact .inl ⟨hnone, hrequired, rfl⟩
      · split at h <;> cases h
  · cases h
  · rw [map_eq_error, result_acceptValue] at h
    exact .inr ⟨given, supplied, hsupply, h⟩

namespace Schema

variable {host : Host} {fuel : Nat} {s : Schema} {v : Value} {redact : Bool} {e : ValidationError}

theorem rejected_of_accept (h : (s.accept host fuel v redact).result = .error (.invalid e)) :
    (Options.ofValue? v = none ∧ e.key = .root ∨
      (∃ keys, e.key = .unknown keys) ∧ e.value? = none) ∧ e.keysPath = [] ∨
    ∃ es o d pairs fuel', s.Resolves host es ∧ Options.ofValue? v = some o ∧
      d ∈ Entry.expand es (Pairs.keys o.pairs) ∧
      (d.2.accept (OptionType.accept host fuel') redact d.1 pairs).result =
        .error (.invalid e) := by
  cases fuel with
  | zero =>
    rw [accept_zero] at h
    cases h
  | succ fuel =>
    rw [accept_succ] at h
    split at h
    next hnone =>
      cases h
      exact .inl ⟨.inl ⟨hnone, rfl⟩, rfl⟩
    next o ho =>
      rcases bind_eq_error.1 h with h | ⟨es, hes, h⟩
      · cases hes : s.resolve? host fuel <;> rw [hes] at h <;> cases h
      · have hresolves := resolves_of_resolve? (ofOption_eq_ok.1 hes)
        unfold Options.accept at h
        dsimp only at h
        split at h
        · rw [bind_pure_comp, map_eq_error] at h
          obtain ⟨d, hd, pairs, h⟩ := exists_error_of_foldlM h
          exact .inr ⟨es, o, d, pairs, fuel, hresolves, ho, hd, h⟩
        · cases h
          exact .inl ⟨.inr ⟨⟨_, rfl⟩, rfl⟩, rfl⟩

end Schema

end Conform
