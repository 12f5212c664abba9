import Conform.Proofs.Acceptance.Indistinguishability

namespace Conform

open Run

mutual

/-- Two reasons are the same, except that the second one is about another label. -/
inductive Reason.Relabelled (l l' : Label) : Reason → Reason → Prop where
  | mismatch (expected shown) :
      Reason.Relabelled l l' (.mismatch l expected shown) (.mismatch l' expected shown)
  | arity (expected actual) :
      Reason.Relabelled l l' (.arity l expected actual) (.arity l' expected actual)
  | element (container inner) :
      Reason.Relabelled l l' (.element container l inner) (.element container l' inner)
  | noAlternative {texts texts'} : Reason.RelabelledTexts l l' texts texts' →
      Reason.Relabelled l l' (.noAlternative l texts) (.noAlternative l' texts')

inductive Reason.RelabelledTexts (l l' : Label) : List String → List String → Prop where
  | nil : Reason.RelabelledTexts l l' [] []
  | same {text texts texts'} : Reason.RelabelledTexts l l' texts texts' →
      Reason.RelabelledTexts l l' (text :: texts) (text :: texts')
  | message {r r' texts texts'} : Reason.Relabelled l l' r r' →
      Reason.RelabelledTexts l l' texts texts' →
      Reason.RelabelledTexts l l' (r.message :: texts) (r'.message :: texts')

end

namespace Context

/-- Two errors are equal, or about the same value for reasons that differ in the label. -/
def Relabelled (cx : Context) (v : Value) (l l' : Label) (e e' : ValidationError) : Prop :=
  e = e' ∨ ∃ r r', Reason.Relabelled l l' r r' ∧ e = cx.error v r ∧ e' = cx.error v r'

variable {cx : Context} {v : Value} {l l' : Label}

theorem relabelled_error {r r' : Reason} (h : Reason.Relabelled l l' r r') :
    cx.Relabelled v l l' (cx.error v r) (cx.error v r') :=
  .inr ⟨r, r', h, rfl, rfl⟩

theorem relabelled_elementError (container : Container) (e : ValidationError) :
    cx.Relabelled v l l' (cx.elementError container l v e) (cx.elementError container l' v e) := by
  unfold elementError
  split
  next => exact relabelled_error (.element container e.reason)
  next => exact .inl rfl

theorem relabelledTexts {es es' : List ValidationError}
    (h : List.Forall₂ (cx.Relabelled v l l') es es') :
    Reason.RelabelledTexts l l' (es.map ValidationError.text) (es'.map ValidationError.text) := by
  induction h with
  | nil => exact .nil
  | cons he _ ih =>
    rcases he with rfl | ⟨r, r', hr, rfl, rfl⟩
    · exact .same ih
    · -- An error about a value has no path, so its text is its message.
      simp only [List.map_cons, error_eq]
      exact .message hr ih

end Context

def Run.SameButLabel (cx : Context) (v : Value) (l l' : Label) (r r' : Run Value) : Prop :=
  r.Parallel (cx.Relabelled v l l') (fun _ => True) (fun _ _ => True) r'

namespace OptionType

variable {host : Host} {fuel : Nat} {v : Value} {cx : Context} {l l' : Label}

theorem sameButLabel_mismatch (expected : Expectation) :
    (cx.mismatch l v expected).SameButLabel cx v l l' (cx.mismatch l' v expected) :=
  parallel_reject (Context.relabelled_error (.mismatch expected _))

/-- What is found about an element does not depend on what the container is called. -/
theorem parallel_element (r : Run Value) (container : Container) :
    (r.mapRejection (cx.elementError container l v)).SameButLabel cx v l l'
      (r.mapRejection (cx.elementError container l' v)) := by
  have hself : r.Parallel Eq (fun _ => True) (fun _ _ => True) r :=
    parallel_refl (fun _ => rfl) (fun _ => trivial) r
  refine hself.mapRejection ?_
  rintro e _ rfl
  exact Context.relabelled_elementError container e

theorem sameButLabel_of_elements {α β : Type} {f f' : α → Run β} {as : List α}
    (h : ∀ a ∈ as, Parallel (cx.Relabelled v l l') (fun _ => True) (fun _ _ => True) (f a) (f' a))
    (make : List β → Value) :
    SameButLabel cx v l l' (as.mapM f >>= fun accepted => pure (make accepted))
      (as.mapM f' >>= fun accepted => pure (make accepted)) := by
  have helements := parallel_mapM (List.forall₂_same.2 h)
  exact helements.bind fun _ _ _ => parallel_pure trivial

theorem sameButLabel_refl (r : Run Value) : r.SameButLabel cx v l l' r :=
  parallel_refl (fun _ => .inl rfl) (fun _ => trivial) r

/-- The label of a value has no part in the decision about it, and no part in the error but where
the message names it. -/
theorem sameButLabel (t : OptionType) (v : Value) (l l' : Label) :
    (t.accept host fuel l v cx).SameButLabel cx v l l' (t.accept host fuel l' v cx) := by
  induction fuel generalizing t with
  | zero =>
    rw [accept_zero, accept_zero]
    exact sameButLabel_refl _
  | succ fuel ih =>
    cases t with
    | basic b =>
      rw [accept_basic, accept_basic]
      split
      · exact sameButLabel_refl _
      · exact sameButLabel_mismatch _
    | keywordListOf s | nonEmptyKeywordListOf s | mapOfKeys s =>
      rw [accept_container _ _ _ _ _ rfl, accept_container _ _ _ _ _ rfl]
      split
      · exact sameButLabel_refl _
      · exact sameButLabel_mismatch _
    | mapOf keyType valueType =>
      rw [accept_mapOf, accept_mapOf]
      split
      next pairs =>
        refine sameButLabel_of_elements (fun pair _ => ?_) .map
        refine (parallel_element _ .map).bind fun _ _ _ => ?_
        refine (parallel_element _ .map).bind fun _ _ _ => ?_
        exact parallel_pure trivial
      · exact sameButLabel_mismatch _
    | function arity =>
      rw [accept_function, accept_function]
      split
      next f =>
        split
        · exact sameButLabel_refl _
        · exact parallel_reject (Context.relabelled_error (.arity arity f.arity))
      · exact sameButLabel_mismatch _
    | oneOf choices =>
      rw [accept_oneOf, accept_oneOf]
      split
      · exact sameButLabel_refl _
      · exact sameButLabel_mismatch _
    | custom f args =>
      rw [accept_custom, accept_custom]
      exact sameButLabel_refl _
    | union ts =>
      rw [accept_union, accept_union]
      -- The message of a union shows the texts of its alternatives, so the label stands in
      -- these, too.
      refine (parallel_firstAccepted fun t _ => ih t).bind fun outcome outcome' houtcome => ?_
      cases houtcome with
      | ok _ => exact parallel_pure trivial
      | error hes =>
        exact parallel_reject
          (Context.relabelled_error (.noAlternative (Context.relabelledTexts hes)))
    | listOf u =>
      rw [accept_listOf, accept_listOf]
      split
      next items _ =>
        exact sameButLabel_of_elements (fun item _ => parallel_element _ .list) .list
      · exact sameButLabel_mismatch _
    | tupleOf ts =>
      rw [accept_tupleOf, accept_tupleOf]
      split
      next items =>
        split
        · exact sameButLabel_of_elements (fun item _ => parallel_element _ .tuple) .tuple
        · exact sameButLabel_mismatch _
      · exact sameButLabel_mismatch _
    | struct name =>
      rw [accept_struct, accept_struct]
      split
      · split
        · exact sameButLabel_refl _
        · exact sameButLabel_mismatch _
      · exact sameButLabel_mismatch _

/-- The errors of two maps are equal, or name different keys of the same rejected value. -/
def NamesKey (cx : Context) (label : Label) (entries entries' : List (Value × Value))
    (e e' : ValidationError) : Prop :=
  e = e' ∨ ∃ p q r r', (p, q) ∈ entries.zip entries' ∧ p.1 ≠ q.1 ∧
    Reason.Relabelled (.mapValue p.1) (.mapValue q.1) r r' ∧
    e = cx.error (.map entries) (.element .map label r) ∧
    e' = cx.error (.map entries) (.element .map label r')

variable {keyType valueType : OptionType} {label : Label} {entries entries' : List (Value × Value)}

theorem namesKey_elementError (hredact : cx.redact = true) {p q : Value × Value}
    (hpq : (p, q) ∈ entries.zip entries') (hne : p.1 ≠ q.1) {e e' : ValidationError}
    (h : cx.Relabelled p.2 (.mapValue p.1) (.mapValue q.1) e e') :
    NamesKey cx label entries entries' (cx.elementError .map label (.map entries) e)
      (cx.elementError .map label (.map entries') e') := by
  rcases h with rfl | ⟨r, r', hr, rfl, rfl⟩
  · exact .inl (Context.elementError_congr hredact _ _ _ _ _)
  · have helement : ∀ w reason, cx.elementError .map label w (cx.error p.2 reason) =
        cx.error w (.element .map label reason) := by
      intro w reason
      unfold Context.elementError
      rw [Context.error_eq (v := p.2)]
      rfl
    refine .inr ⟨p, q, r, r', hpq, hne, hr, helement _ r, ?_⟩
    rw [helement, Context.error_congr hredact]

/-- Where a map is withheld, two maps with the same values under accepted keys are accepted alike,
or rejected with the same error, or with errors that name different keys of the same rejected value.
-/
theorem namesKey_of_accept (hredact : cx.redact = true)
    (hsame : List.Forall₂ (fun p q => p.2 = q.2) entries entries')
    (hkeys : ∀ p ∈ entries ++ entries', ∃ k, (keyType.accept host fuel .mapKey p.1 cx).result =
      .ok k) :
    ((mapOf keyType valueType).accept host (fuel + 1) label (.map entries) cx).Parallel
      (NamesKey cx label entries entries') (fun _ => True) (fun _ _ => True)
      ((mapOf keyType valueType).accept host (fuel + 1) label (.map entries') cx) := by
  rw [accept_mapOf, accept_mapOf]
  refine Parallel.bind ?_ fun accepted accepted'
    (_ : List.Forall₂ (fun _ _ => True) accepted accepted') => parallel_pure trivial
  apply parallel_mapM
  rw [List.forall₂_iff_zip] at hsame ⊢
  obtain ⟨hlength, hsame⟩ := hsame
  refine ⟨hlength, fun {p q} hpq => ?_⟩
  obtain ⟨hp, hq⟩ := List.of_mem_zip hpq
  obtain ⟨k, hk⟩ := hkeys p (by simp [hp])
  obtain ⟨k', hk'⟩ := hkeys q (by simp [hq])
  refine Parallel.bind ?_ fun _ _ (_ : True) => Parallel.bind ?_ fun _ _ (_ : True) =>
    parallel_pure trivial
  · exact parallel_of_ok (mapRejection_eq_ok.2 hk) (mapRejection_eq_ok.2 hk') trivial
  · rw [← hsame hpq]
    by_cases hne : p.1 = q.1
    · -- The same value is accepted under the same label.
      rw [← hne]
      have hself : ∀ r : Run Value, r.Parallel Eq (fun _ => True) (fun _ _ => True) r :=
        parallel_refl (fun _ => rfl) fun _ => trivial
      refine (hself _).mapRejection ?_
      rintro e _ rfl
      exact .inl (Context.elementError_congr hredact _ _ _ _ _)
    · refine (sameButLabel valueType p.2 (.mapValue p.1) (.mapValue q.1)).mapRejection ?_
      exact fun e e' => namesKey_elementError hredact hpq hne

end OptionType

namespace OptionSpec

variable {acceptance : Acceptance} {redact : Bool} {spec : OptionSpec} {key : Value}

theorem result_accept_of_find? {ps : List (Value × Value)} {v : Value}
    (h : Pairs.find? ps key = some v) :
    (spec.accept acceptance redact key ps).result =
      (acceptance spec.effectiveType (.option key) v ⟨key, redact || spec.redact⟩).result.map
        (spec.place key · ps) := by
  rw [accept_eq_bind, result_bind, supply_of_find? h]
  change (_ <$> spec.acceptValue acceptance redact key v).result = _
  rw [result_map, result_acceptValue]

theorem effectiveType_of_mapOf {keyType valueType : OptionType}
    (h : spec.type = .mapOf keyType valueType) : spec.effectiveType = .mapOf keyType valueType := by
  unfold effectiveType
  rw [h]
  split <;> rfl

/-- Let an option be redacted that holds a map, and let two maps have the same values, each under an
accepted key. Both are accepted, or both fail in the same way, or both are rejected for the same
value by errors that withhold the map, but whose reasons name the key of this value. -/
theorem outcomes_of_keys {host : Host} {fuel : Nat} {keyType valueType : OptionType} (redact : Bool)
    (htype : spec.type = .mapOf keyType valueType) (hredact : spec.redact = true)
    {ps ps' entries entries' : List (Value × Value)}
    (hps : Pairs.find? ps key = some (.map entries))
    (hps' : Pairs.find? ps' key = some (.map entries'))
    (hsame : List.Forall₂ (fun p q => p.2 = q.2) entries entries')
    (hkeys : ∀ p ∈ entries ++ entries', ∃ k,
      (keyType.accept host fuel .mapKey p.1 ⟨key, true⟩).result = .ok k) :
    let outcome ps := (spec.accept (OptionType.accept host (fuel + 1)) redact key ps).result
    let error (r : Reason) : ValidationError :=
      { key := .single key, reason := .element .map (.option key) r,
        value? := some redactedValue, redact := true }
    (∃ n n', outcome ps = .ok n ∧ outcome ps' = .ok n') ∨
    (∃ f, outcome ps = .error f ∧ outcome ps' = .error f) ∨
    ∃ p q r r', (p, q) ∈ entries.zip entries' ∧ p.1 ≠ q.1 ∧
      Reason.Relabelled (.mapValue p.1) (.mapValue q.1) r r' ∧
      outcome ps = .error (.invalid (error r)) ∧ outcome ps' = .error (.invalid (error r')) := by
  intro outcome error
  have hrun : ((OptionType.mapOf keyType valueType).accept host (fuel + 1) (.option key)
      (.map entries) ⟨key, true⟩).Parallel
        (OptionType.NamesKey ⟨key, true⟩ (.option key) entries entries') (fun _ => True)
        (fun _ _ => True) ((OptionType.mapOf keyType valueType).accept host (fuel + 1)
          (.option key) (.map entries') ⟨key, true⟩) :=
    OptionType.namesKey_of_accept rfl hsame hkeys
  -- The option is redacted, so the map is withheld whatever the context says.
  have houtcome : ∀ {ps entries}, Pairs.find? ps key = some (.map entries) → outcome ps =
      ((OptionType.mapOf keyType valueType).accept host (fuel + 1) (.option key) (.map entries)
        ⟨key, true⟩).result.map (spec.place key · ps) := by
    intro ps entries h
    change (spec.accept _ redact key ps).result = _
    rw [result_accept_of_find? h, effectiveType_of_mapOf htype, hredact, Bool.or_true]
  rw [houtcome hps, houtcome hps']
  rcases hrun.outcomes with ⟨_, _, hn, hn', -⟩ | ⟨e, e', he, he', hnames⟩ | ⟨f, hf, hf', -⟩
  · rw [hn, hn']
    exact .inl ⟨_, _, rfl, rfl⟩
  · rw [he, he']
    right
    rcases hnames with rfl | ⟨p, q, r, r', hpq, hne, hr, rfl, rfl⟩
    · exact .inl ⟨_, rfl, rfl⟩
    · refine .inr ⟨p, q, r, r', hpq, hne, hr, ?_, ?_⟩ <;> rw [Context.error_eq] <;> rfl
  · rw [hf, hf']
    exact .inr (.inl ⟨f, rfl, rfl⟩)

end OptionSpec

def tokensSpec : OptionSpec :=
  { type := .mapOf (.basic .string) (.basic .integer), redact := true }

def tokensPairs (token : String) : List (Value × Value) :=
  [(.atom "tokens", .map [(.string token, .string "x")])]

theorem tokensSpec_outcomes :
    let outcome token := (tokensSpec.accept (OptionType.accept .bare 3) false (.atom "tokens")
      (tokensPairs token)).result
    let error (r : Reason) : ValidationError :=
      { key := .single (.atom "tokens"), reason := .element .map (.option (.atom "tokens")) r,
        value? := some redactedValue, redact := true }
    ∃ r r', Reason.Relabelled (.mapValue (.string "hunter2")) (.mapValue (.string "swordfish"))
        r r' ∧
      outcome "hunter2" = .error (.invalid (error r)) ∧
      outcome "swordfish" = .error (.invalid (error r')) := by
  intro outcome error
  have hfind : ∀ token, Pairs.find? (tokensPairs token) (.atom "tokens") =
      some (.map [(.string token, .string "x")]) := fun token => by
    rw [tokensPairs, Pairs.find?_cons, if_pos (Value.beq_self_iff.2 rfl)]
  have hsame : List.Forall₂ (fun p q : Value × Value => p.2 = q.2)
      [(.string "hunter2", .string "x")] [(.string "swordfish", .string "x")] := .cons rfl .nil
  have hkeys : ∀ p ∈ [(Value.string "hunter2", Value.string "x")] ++
      [(.string "swordfish", .string "x")], ∃ k, ((OptionType.basic .string).accept .bare 2 .mapKey
        p.1 ⟨.atom "tokens", true⟩).result = .ok k := by
    intro p hp
    simp only [List.cons_append, List.nil_append, List.mem_cons, List.not_mem_nil, or_false] at hp
    rcases hp with rfl | rfl <;> exact ⟨_, rfl⟩
  have htype : tokensSpec.type = .mapOf (.basic .string) (.basic .integer) := rfl
  have hfirst : outcome "hunter2" = .error (.invalid (error
      (.mismatch (.mapValue (.string "hunter2")) (.basic .integer) none))) := by
    unfold outcome error
    with_unfolding_all rfl
  have hsecond : outcome "swordfish" = .error (.invalid (error
      (.mismatch (.mapValue (.string "swordfish")) (.basic .integer) none))) := by
    unfold outcome error
    with_unfolding_all rfl
  rcases OptionSpec.outcomes_of_keys false htype rfl (hfind "hunter2") (hfind "swordfish") hsame
    hkeys with ⟨_, _, hn, -⟩ | ⟨f, hf, hf'⟩ | ⟨p, q, r, r', hpq, -, hr, he, he'⟩
  · cases hfirst.symm.trans hn
  · -- The two errors are not the same.
    have heq := (hfirst.symm.trans hf).trans (hf'.symm.trans hsecond)
    simp [error] at heq
  · rw [List.zip_cons_cons, List.zip_nil_right, List.mem_singleton] at hpq
    cases hpq
    exact ⟨r, r', hr, he, he'⟩

/-- The message about a withheld map of quotas shows the token of the quota that is not a number. -/
theorem tokensSpec_disclosed :
    (Schema.compile .bare 60 (.entries [⟨.atom "tokens", tokensSpec⟩])).result =
      .ok ⟨.entries [⟨.atom "tokens", tokensSpec⟩]⟩ ∧
    ∃ e e',
      (Compiled.validate .bare 10 ⟨.entries [⟨.atom "tokens", tokensSpec⟩]⟩
        (.map (tokensPairs "hunter2"))).result = .error (.invalid e) ∧
      (Compiled.validate .bare 10 ⟨.entries [⟨.atom "tokens", tokensSpec⟩]⟩
        (.map (tokensPairs "swordfish"))).result = .error (.invalid e') ∧
      e.redact = true ∧ e'.redact = true ∧
      e.message = "invalid map in :tokens option: " ++
        "invalid value for map key \"hunter2\": expected integer" ∧
      e'.message = "invalid map in :tokens option: " ++
        "invalid value for map key \"swordfish\": expected integer" :=
  ⟨by with_unfolding_all rfl, _, _, by with_unfolding_all rfl, by with_unfolding_all rfl, rfl, rfl,
    by decide, by decide⟩

end Conform
