import Conform.Proofs.Run.Result

namespace Conform.Run

variable {α β : Type}

/-- The depth allowed sufficed. -/
def Ends (r : Run α) : Prop := r.result ≠ .error .exhausted

/-- If the first run ends, the second is the same. -/
def Approximates (r r' : Run α) : Prop := r.Ends → r' = r

@[simp] theorem ends_pure (a : α) : (pure a : Run α).Ends := by simp [Ends]

@[simp] theorem ends_reject (e : ValidationError) : (reject e : Run α).Ends := by simp [Ends]

@[simp] theorem ends_fault (e : ContractFault) : (fail (.fault e) : Run α).Ends := by simp [Ends]

@[simp] theorem ends_emit (e : Event) : (emit e).Ends := by simp [Ends]

@[simp] theorem not_ends_exhausted : ¬(fail .exhausted : Run α).Ends := by simp [Ends]

theorem ends_of_ok {r : Run α} {a : α} (h : r.result = .ok a) : r.Ends := by simp [Ends, h]

theorem ends_of_invalid {r : Run α} {e : ValidationError} (h : r.result = .error (.invalid e)) :
    r.Ends := by
  simp [Ends, h]

theorem ends_bind {r : Run α} {f : α → Run β} :
    (r >>= f).Ends ↔ r.Ends ∧ ∀ a, r.result = .ok a → (f a).Ends := by
  simp only [Ends, ne_eq, bind_eq_error, not_or, not_exists, not_and]

theorem ends_map {f : α → β} {r : Run α} : (f <$> r).Ends ↔ r.Ends := by
  rw [map_eq_pure_bind, ends_bind]
  simp

theorem ends_mapRejection {f : ValidationError → ValidationError} {r : Run α} :
    (mapRejection f r).Ends ↔ r.Ends := by
  unfold mapRejection Ends
  split
  next h => simp [h]
  next => rfl

theorem ends_attempt {r : Run α} : (attempt r).Ends ↔ r.Ends := by
  simp [Ends, attempt_eq_error]

theorem ends_mapM {f : α → Run β} {as : List α} (h : ∀ a ∈ as, (f a).Ends) :
    (as.mapM f).Ends := by
  intro hexhausted
  obtain ⟨a, ha, he⟩ := exists_error_of_mapM hexhausted
  exact h a ha he

theorem ends_firstAccepted {f : α → Run β} {as : List α} (h : ∀ a ∈ as, (f a).Ends) :
    (firstAccepted f as).Ends := by
  induction as with
  | nil => simp [firstAccepted]
  | cons a as ih =>
    unfold firstAccepted
    refine ends_bind.2 ⟨ends_attempt.2 (h a (by simp)), fun tried _ => ?_⟩
    cases tried with
    | ok b => exact ends_pure _
    | error e =>
      refine ends_bind.2 ⟨ih fun a' ha' => h a' (List.mem_cons_of_mem _ ha'), fun later _ => ?_⟩
      cases later <;> exact ends_pure _

namespace Approximates

theorem refl (r : Run α) : Approximates r r := fun _ => rfl

theorem ends {r r' : Run α} (h : Approximates r r') (hr : r.Ends) : r'.Ends := by
  rwa [h hr]

theorem eq_ok {r r' : Run α} {a : α} (h : Approximates r r') (hr : r.result = .ok a) :
    r'.result = .ok a := by
  rwa [h (ends_of_ok hr)]

theorem trans {r r' r'' : Run α} (h : Approximates r r') (h' : Approximates r' r'') :
    Approximates r r'' := by
  intro hr
  have hr' := h hr
  rw [h' (by rwa [hr']), hr']

theorem exhausted (r : Run α) : Approximates (fail .exhausted) r :=
  fun h => absurd h not_ends_exhausted

theorem bind {r r' : Run α} {f f' : α → Run β} (hr : Approximates r r')
    (hf : ∀ a, Approximates (f a) (f' a)) : Approximates (r >>= f) (r' >>= f') := by
  intro h
  obtain ⟨hends, hnext⟩ := ends_bind.1 h
  rw [hr hends]
  -- What follows is the same as well, as it is reached with the same result.
  change r.andThen f' = r.andThen f
  unfold andThen
  split
  next a ha => rw [hf a (hnext a ha)]
  next => rfl

theorem map {r r' : Run α} (f : α → β) (hr : Approximates r r') :
    Approximates (f <$> r) (f <$> r') := by
  intro h
  rw [hr (ends_map.1 h)]

theorem mapRejection {r r' : Run α} (f : ValidationError → ValidationError)
    (hr : Approximates r r') : Approximates (r.mapRejection f) (r'.mapRejection f) := by
  intro h
  rw [hr (ends_mapRejection.1 h)]

theorem attempt {r r' : Run α} (hr : Approximates r r') :
    Approximates r.attempt r'.attempt := by
  intro h
  rw [hr (ends_attempt.1 h)]

theorem mapM {f f' : α → Run β} (as : List α) (h : ∀ a, Approximates (f a) (f' a)) :
    Approximates (as.mapM f) (as.mapM f') := by
  induction as with
  | nil => exact refl _
  | cons a as ih =>
    simp only [List.mapM_cons]
    exact bind (h a) fun b => bind ih fun bs => refl _

theorem foldlM {f f' : β → α → Run β} {as : List α} (b : β)
    (h : ∀ a ∈ as, ∀ b, Approximates (f b a) (f' b a)) :
    Approximates (as.foldlM f b) (as.foldlM f' b) := by
  induction as generalizing b with
  | nil => exact refl _
  | cons a as ih =>
    simp only [List.foldlM_cons]
    exact bind (h a (by simp) b) fun b' => ih b' fun a' ha' => h a' (List.mem_cons_of_mem _ ha')

theorem firstAccepted {f f' : α → Run β} (as : List α) (h : ∀ a, Approximates (f a) (f' a)) :
    Approximates (Run.firstAccepted f as) (Run.firstAccepted f' as) := by
  induction as with
  | nil => exact refl _
  | cons a as ih =>
    unfold Run.firstAccepted
    apply bind (attempt (h a))
    intro tried
    cases tried with
    | ok b => exact refl _
    | error e => exact bind ih fun later => refl _

end Approximates

/-- More depth changes nothing once a run has ended. -/
def Persists (r : Nat → Run α) : Prop :=
  ∀ fuel fuel', fuel ≤ fuel' → Approximates (r fuel) (r fuel')

/-- With enough depth the run ends, and it is the same run whatever more is allowed. -/
def Converges (r : Nat → Run α) : Prop :=
  ∃ outcome : Run α, outcome.Ends ∧ ∃ bound, ∀ fuel, bound ≤ fuel → r fuel = outcome

theorem Persists.converges {r : Nat → Run α} (h : Persists r) (hends : ∃ fuel, (r fuel).Ends) :
    Converges r := by
  obtain ⟨bound, hbound⟩ := hends
  exact ⟨r bound, hbound, bound, fun fuel hfuel => h bound fuel hfuel hbound⟩

theorem exists_common_bound {p : α → Nat → Prop} {as : List α}
    (hmono : ∀ a m n, m ≤ n → p a m → p a n) (h : ∀ a ∈ as, ∃ n, p a n) :
    ∃ n, ∀ a ∈ as, p a n := by
  induction as with
  | nil => exact ⟨0, by simp⟩
  | cons a as ih =>
    obtain ⟨m, hm⟩ := h a (by simp)
    obtain ⟨n, hn⟩ := ih fun b hb => h b (List.mem_cons_of_mem _ hb)
    refine ⟨max m n, List.forall_mem_cons.2 ⟨?_, fun b hb => ?_⟩⟩
    · exact hmono a m _ (Nat.le_max_left m n) hm
    · exact hmono b n _ (Nat.le_max_right m n) (hn b hb)

theorem exists_common_end {r : α → Nat → Run β} {as : List α} (hr : ∀ a, Persists (r a))
    (h : ∀ a ∈ as, ∃ fuel, (r a fuel).Ends) : ∃ fuel, ∀ a ∈ as, (r a fuel).Ends :=
  exists_common_bound (fun a _ _ hmn hends => (hr a _ _ hmn).ends hends) h

end Conform.Run
