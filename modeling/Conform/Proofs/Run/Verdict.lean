import Conform.Proofs.Run.Depth

namespace Conform

def Failure.Refutes (p : Prop) : Failure → Prop
  | .invalid _ => ¬p
  | .fault _ => False
  | .exhausted => True

namespace Run

variable {α β : Type}

def Decides (r : Run α) (p : Prop) : Prop :=
  match r.result with
  | .ok _ => p
  | .error e => e.Refutes p

theorem decides_pure {a : α} {p : Prop} (h : p) : (pure a : Run α).Decides p := h

theorem decides_reject {e : ValidationError} {p : Prop} (h : ¬p) :
    (reject e : Run α).Decides p := h

theorem decides_emit {e : Event} : (emit e).Decides True := trivial

theorem decides_exhausted {p : Prop} : (fail .exhausted : Run α).Decides p := trivial

theorem Decides.of_ok {r : Run α} {p : Prop} {a : α} (h : r.Decides p) (ha : r.result = .ok a) :
    p := by
  unfold Decides at h
  rwa [ha] at h

theorem Decides.of_error {r : Run α} {p : Prop} {e : Failure} (h : r.Decides p)
    (he : r.result = .error e) : e.Refutes p := by
  unfold Decides at h
  rwa [he] at h

theorem Decides.verdict {r : Run α} {p : Prop} (h : r.Decides p) (hends : r.Ends) :
    ((∃ a, r.result = .ok a) ∧ p) ∨ ((∃ e, r.result = .error (.invalid e)) ∧ ¬p) := by
  cases hr : r.result with
  | ok a => exact .inl ⟨⟨a, rfl⟩, h.of_ok hr⟩
  | error e =>
    have hp := h.of_error hr
    cases e with
    | invalid e => exact .inr ⟨⟨e, rfl⟩, hp⟩
    | fault e => exact hp.elim
    | exhausted => exact absurd hr hends

theorem Decides.congr {r : Run α} {p q : Prop} (h : r.Decides p) (hpq : p ↔ q) : r.Decides q := by
  rwa [← hpq]

theorem decides_mapRejection {f : ValidationError → ValidationError} {r : Run α} {p : Prop} :
    (mapRejection f r).Decides p ↔ r.Decides p := by
  unfold mapRejection
  split
  next h =>
    unfold Decides
    rw [h]
    rfl
  next => rfl

theorem decides_map {f : α → β} {r : Run α} {p : Prop} : (f <$> r).Decides p ↔ r.Decides p := by
  unfold Decides
  rw [result_map]
  cases r.result <;> rfl

theorem decides_attempt {r : Run α} {p : Prop} (h : r.Decides p) : r.attempt.Decides True := by
  unfold Decides at h
  unfold attempt Decides
  cases hr : r.result with
  | ok a => trivial
  | error e =>
    rw [hr] at h
    cases e with
    | invalid e => trivial
    | fault e => exact h
    | exhausted => trivial

theorem Decides.bind {r : Run α} {f : α → Run β} {p q : Prop} (hr : r.Decides p)
    (hf : ∀ a, r.result = .ok a → (f a).Decides q) : (r >>= f).Decides (p ∧ q) := by
  cases h : r.result with
  | ok a =>
    have hp := hr.of_ok h
    have hfa := hf a h
    unfold Decides
    rw [result_bind, h]
    exact hfa.congr (by simp [hp])
  | error e =>
    have hp := hr.of_error h
    unfold Decides
    rw [result_bind, h]
    cases e with
    | invalid e => exact fun hpq => hp hpq.1
    | fault e => exact hp
    | exhausted => trivial

theorem decides_mapM {f : α → Run β} {as : List α} {p : α → Prop}
    (h : ∀ a ∈ as, (f a).Decides (p a)) : (as.mapM f).Decides (∀ a ∈ as, p a) := by
  induction as with
  | nil => exact decides_pure (by simp)
  | cons a as ih =>
    rw [List.mapM_cons]
    have hrest := ih fun a' ha' => h a' (List.mem_cons_of_mem _ ha')
    refine ((h a (by simp)).bind fun b _ => ?_).congr List.forall_mem_cons.symm
    rw [bind_pure_comp]
    exact decides_map.2 hrest

theorem decides_mapM_zipIdx {f : α × Nat → Run β} {as : List α} {p : α → Prop}
    (h : ∀ a ∈ as, ∀ i, (f (a, i)).Decides (p a)) :
    (as.zipIdx.mapM f).Decides (∀ a ∈ as, p a) := by
  have hfst : as.zipIdx.map Prod.fst = as := List.zipIdx_map_fst 0 as
  have hmem : ∀ item ∈ as.zipIdx, item.1 ∈ as := by
    intro item hitem
    rw [← hfst]
    exact List.mem_map_of_mem hitem
  refine (decides_mapM (p := fun item => p item.1) fun item hitem => ?_).congr ?_
  · exact h item.1 (hmem item hitem) item.2
  · rw [← List.forall_mem_map (f := Prod.fst) (P := p), hfst]

/-- The search for a success decides whether the property holds somewhere, if it is continued with
the success where there is one and with a rejection otherwise. -/
theorem decides_firstAccepted {γ : Type} {f : α → Run β} {as : List α} {p : α → Prop}
    {next : Except (List ValidationError) β → Run γ} (h : ∀ a ∈ as, (f a).Decides (p a))
    (hnext : ∀ outcome, (next outcome).Decides (∃ b, outcome = .ok b)) :
    (firstAccepted f as >>= next).Decides (∃ a ∈ as, p a) := by
  cases hsearch : (firstAccepted f as).result with
  | ok outcome =>
    have houtcome := firstAccepted_eq_ok hsearch
    have hdecides : (next outcome).Decides (∃ a ∈ as, p a) := by
      refine (hnext outcome).congr ?_
      cases outcome with
      | ok b =>
        obtain ⟨a, ha, hb⟩ := houtcome
        exact ⟨fun _ => ⟨a, ha, (h a ha).of_ok hb⟩, fun _ => ⟨b, rfl⟩⟩
      | error es =>
        refine ⟨by simp, ?_⟩
        rintro ⟨a, ha, hp⟩
        obtain ⟨e, he⟩ := houtcome a ha
        exact absurd hp ((h a ha).of_error he)
    unfold Decides
    rw [result_bind, hsearch]
    exact hdecides
  | error e =>
    -- A rejection does not end the search, so what did is a fault or missing depth.
    obtain ⟨hne, a, ha, he⟩ := firstAccepted_eq_error hsearch
    have hp := (h a ha).of_error he
    unfold Decides
    rw [result_bind, hsearch]
    cases e with
    | invalid e => exact absurd rfl (hne e)
    | fault e => exact hp
    | exhausted => trivial

end Run

end Conform
