import Conform.Proofs.Run.Invariant

namespace Conform

def Event.isDeprecation : Event → Bool
  | .deprecated _ _ => true
  | _ => false

namespace Run

variable {α β : Type}

def deprecations (r : Run α) : List Event := r.events.filter Event.isDeprecation

@[simp] theorem deprecations_pure (a : α) : (pure a : Run α).deprecations = [] := rfl

@[simp] theorem deprecations_ofOption (a? : Option α) : (ofOption a?).deprecations = [] := by
  cases a? <;> rfl

theorem deprecations_bind_of_ok {r : Run α} {a : α} (h : r.result = .ok a) (f : α → Run β) :
    (r >>= f).deprecations = r.deprecations ++ (f a).deprecations := by
  rw [bind_of_ok h]
  exact List.filter_append _ _

theorem deprecations_bind_of_error {r : Run α} {e : Failure} (h : r.result = .error e)
    (f : α → Run β) : (r >>= f).deprecations = r.deprecations := by
  rw [bind_of_error h]
  rfl

@[simp] theorem deprecations_map (f : α → β) (r : Run α) :
    (f <$> r).deprecations = r.deprecations := by
  rw [map_eq_pure_bind]
  cases h : r.result with
  | ok a => rw [deprecations_bind_of_ok h, deprecations_pure, List.append_nil]
  | error e => exact deprecations_bind_of_error h _

@[simp] theorem deprecations_mapRejection (f : ValidationError → ValidationError) (r : Run α) :
    (r.mapRejection f).deprecations = r.deprecations := by
  unfold mapRejection
  split <;> rfl

@[simp] theorem deprecations_attempt (r : Run α) : r.attempt.deprecations = r.deprecations := by
  unfold attempt
  split <;> rfl

theorem deprecations_mapM {f : α → Run β} {as : List α} {bs : List β}
    (h : (as.mapM f).result = .ok bs) :
    (as.mapM f).deprecations = as.flatMap fun a => (f a).deprecations := by
  induction as generalizing bs with
  | nil => rfl
  | cons a as ih =>
    rw [List.mapM_cons] at h ⊢
    obtain ⟨b, hb, h⟩ := bind_eq_ok.1 h
    obtain ⟨bs', hbs, -⟩ := bind_eq_ok.1 h
    rw [deprecations_bind_of_ok hb, deprecations_bind_of_ok hbs, deprecations_pure,
      List.append_nil, ih hbs, List.flatMap_cons]

def Quiet (r : Run α) : Prop := r.deprecations = []

theorem quiet_pure (a : α) : (pure a : Run α).Quiet := rfl

theorem quiet_fail (e : Failure) : (fail e : Run α).Quiet := rfl

theorem quiet_emit {e : Event} (h : e.isDeprecation = false) : (emit e).Quiet := by
  simp [Quiet, deprecations, emit, h]

theorem Quiet.bind {r : Run α} {f : α → Run β} (hr : r.Quiet)
    (hf : ∀ a, r.result = .ok a → (f a).Quiet) : (r >>= f).Quiet := by
  unfold Quiet
  cases h : r.result with
  | ok a => rw [deprecations_bind_of_ok h, hr, hf a h, List.append_nil]
  | error e => rw [deprecations_bind_of_error h, hr]

theorem invariant_quiet : Invariant fun _ r => r.Quiet where
  pure := quiet_pure
  reject _ := quiet_fail _
  exhausted := quiet_fail _
  schemaRejected _ := quiet_emit rfl
  bind := .bind
  mapRejection f h := (deprecations_mapRejection f _).trans h
  attempt h := (deprecations_attempt _).trans h

end Run

end Conform
