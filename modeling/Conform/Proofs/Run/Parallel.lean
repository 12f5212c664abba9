import Conform.Proofs.Run.Result

namespace Conform

inductive Agree {ε ε' α β : Type} (errors : ε → ε' → Prop) (values : α → β → Prop) :
    Except ε α → Except ε' β → Prop where
  | ok {a b} : values a b → Agree errors values (.ok a) (.ok b)
  | error {e e'} : errors e e' → Agree errors values (.error e) (.error e')

/-- Two failures are related rejections, or the same failure of another kind that is allowed. -/
inductive Failure.Related (errors : ValidationError → ValidationError → Prop)
    (other : Failure → Prop) : Failure → Failure → Prop where
  | invalid {e e'} : errors e e' → Failure.Related errors other (.invalid e) (.invalid e')
  | other {f} : (∀ e, f ≠ .invalid e) → other f → Failure.Related errors other f f

namespace Run

variable {α α' β β' : Type} {errors errors' : ValidationError → ValidationError → Prop}
  {other : Failure → Prop}

/-- Both runs succeed, or both fail, and the results or the failures are related. -/
def Parallel (errors : ValidationError → ValidationError → Prop) (other : Failure → Prop)
    (values : α → α' → Prop) (r : Run α) (r' : Run α') : Prop :=
  Agree (Failure.Related errors other) values r.result r'.result

variable {values : α → α' → Prop} {r : Run α} {r' : Run α'}

theorem parallel_pure {a : α} {a' : α'} (h : values a a') :
    Parallel errors other values (pure a) (pure a') :=
  .ok h

theorem parallel_reject {e e' : ValidationError} (h : errors e e') :
    Parallel errors other values (reject e) (reject e') :=
  .error (.invalid h)

theorem parallel_of_ok {a : α} {a' : α'} (h : r.result = .ok a) (h' : r'.result = .ok a')
    (ha : values a a') : Parallel errors other values r r' := by
  unfold Parallel
  rw [h, h']
  exact .ok ha

theorem Parallel.outcomes (h : Parallel errors other values r r') :
    (∃ a a', r.result = .ok a ∧ r'.result = .ok a' ∧ values a a') ∨
    (∃ e e', r.result = .error (.invalid e) ∧ r'.result = .error (.invalid e') ∧ errors e e') ∨
    ∃ f, r.result = .error f ∧ r'.result = .error f ∧ other f := by
  unfold Parallel at h
  generalize r.result = outcome at h ⊢
  generalize r'.result = outcome' at h ⊢
  cases h with
  | ok ha => exact .inl ⟨_, _, rfl, rfl, ha⟩
  | error h =>
    cases h with
    | invalid he => exact .inr (.inl ⟨_, _, rfl, rfl, he⟩)
    | other _ hother => exact .inr (.inr ⟨_, rfl, rfl, hother⟩)

theorem parallel_refl (herrors : ∀ e, errors e e) {values : α → α → Prop}
    (hvalues : ∀ a, values a a) (r : Run α) : Parallel errors (fun _ => True) values r r := by
  unfold Parallel
  cases r.result with
  | ok a => exact .ok (hvalues a)
  | error f =>
    cases f with
    | invalid e => exact .error (.invalid (herrors e))
    | fault | exhausted => exact .error (.other (by simp) trivial)

theorem agree_bind {failures : Failure → Failure → Prop} {values' : β → β' → Prop}
    (h : Agree failures values r.result r'.result) {f : α → Run β} {f' : α' → Run β'}
    (hf : ∀ a a', values a a' → Agree failures values' (f a).result (f' a').result) :
    Agree failures values' (r >>= f).result (r' >>= f').result := by
  rw [result_bind, result_bind]
  generalize r.result = outcome at h
  generalize r'.result = outcome' at h
  cases h with
  | ok h => exact hf _ _ h
  | error h => exact .error h

theorem Parallel.bind {values' : β → β' → Prop} (h : Parallel errors other values r r')
    {f : α → Run β} {f' : α' → Run β'}
    (hf : ∀ a a', values a a' → Parallel errors other values' (f a) (f' a')) :
    Parallel errors other values' (r >>= f) (r' >>= f') :=
  agree_bind h hf

theorem Parallel.map {values' : β → β' → Prop} (h : Parallel errors other values r r')
    {f : α → β} {f' : α' → β'} (hf : ∀ a a', values a a' → values' (f a) (f' a')) :
    Parallel errors other values' (f <$> r) (f' <$> r') := by
  rw [map_eq_pure_bind, map_eq_pure_bind]
  exact h.bind fun a a' ha => parallel_pure (hf a a' ha)

theorem Parallel.mapRejection (h : Parallel errors other values r r')
    {f f' : ValidationError → ValidationError} (hf : ∀ e e', errors e e' → errors' (f e) (f' e')) :
    Parallel errors' other values (Run.mapRejection f r) (Run.mapRejection f' r') := by
  obtain ⟨events, result⟩ := r
  obtain ⟨events', result'⟩ := r'
  change Agree _ _ result result' at h
  cases h with
  | ok ha => exact .ok ha
  | error h =>
    cases h with
    | invalid he => exact .error (.invalid (hf _ _ he))
    | other hne hother =>
      rename_i failed
      cases failed with
      | invalid e => exact absurd rfl (hne e)
      | fault | exhausted => exact .error (.other hne hother)

theorem Parallel.attempt (h : Parallel errors other values r r') :
    Parallel errors' other (Agree errors values) r.attempt r'.attempt := by
  obtain ⟨events, result⟩ := r
  obtain ⟨events', result'⟩ := r'
  change Agree _ _ result result' at h
  cases h with
  | ok ha => exact .ok (.ok ha)
  | error h =>
    cases h with
    | invalid he => exact .ok (.error he)
    | other hne hother =>
      rename_i failed
      cases failed with
      | invalid e => exact absurd rfl (hne e)
      | fault | exhausted => exact .error (.other hne hother)

theorem parallel_mapM {f : α → Run β} {f' : α' → Run β'} {values : β → β' → Prop} {as : List α}
    {as' : List α'}
    (h : List.Forall₂ (fun a a' => Parallel errors other values (f a) (f' a')) as as') :
    Parallel errors other (List.Forall₂ values) (as.mapM f) (as'.mapM f') := by
  induction h with
  | nil => exact parallel_pure .nil
  | cons hhead _ ih =>
    rw [List.mapM_cons, List.mapM_cons]
    refine hhead.bind fun b b' hb => ih.bind fun bs bs' hbs => ?_
    exact parallel_pure (.cons hb hbs)

theorem parallel_firstAccepted {f : α → Run β} {f' : α → Run β'} {values : β → β' → Prop}
    {as : List α} (h : ∀ a ∈ as, Parallel errors other values (f a) (f' a)) :
    Parallel errors' other (Agree (List.Forall₂ errors) values) (firstAccepted f as)
      (firstAccepted f' as) := by
  induction as with
  | nil => exact parallel_pure (.error .nil)
  | cons a as ih =>
    unfold firstAccepted
    refine (h a (by simp)).attempt.bind fun tried tried' htried => ?_
    cases htried with
    | ok hb => exact parallel_pure (.ok hb)
    | error he =>
      refine (ih fun a' ha' => h a' (List.mem_cons_of_mem _ ha')).bind fun later later' hlater => ?_
      cases hlater with
      | ok hb => exact parallel_pure (.ok hb)
      | error hes => exact parallel_pure (.error (.cons he hes))

end Run

end Conform
