import Conform.Proofs.Run.Invariant

namespace Conform

/-- The fault of an event: that of a call which returned no answer. -/
def Event.fault? : Event → Option ContractFault
  | .called f _ returned =>
    if returned.answer?.isNone then some (.malformedResult f.reference returned) else none
  | _ => none

def Failure.fault? : Failure → Option ContractFault
  | .fault f => some f
  | _ => none

namespace Run

variable {α β : Type} {permitted : Function → List Value → Value → Prop}

def fault? (r : Run α) : Option ContractFault :=
  match r.result with
  | .ok _ => none
  | .error e => e.fault?

/-- Every call of the run is permitted, and an event with a fault ends the run with this fault.
Nothing else does. -/
structure Accountable (permitted : Function → List Value → Value → Prop) (r : Run α) : Prop where
  calls : ∀ f args returned, .called f args returned ∈ r.events → permitted f args returned
  outcome : (∀ event ∈ r.events, event.fault? = none) ∧ r.fault? = none ∨
    ∃ before event, r.events = before ++ [event] ∧ (∀ earlier ∈ before, earlier.fault? = none) ∧
      event.fault?.isSome ∧ r.fault? = event.fault?

theorem accountable_pure (a : α) : (pure a : Run α).Accountable permitted where
  calls _ _ _ h := absurd h List.not_mem_nil
  outcome := .inl ⟨fun _ h => absurd h List.not_mem_nil, rfl⟩

theorem accountable_reject (e : ValidationError) : (reject e : Run α).Accountable permitted where
  calls _ _ _ h := absurd h List.not_mem_nil
  outcome := .inl ⟨fun _ h => absurd h List.not_mem_nil, rfl⟩

theorem accountable_exhausted : (fail .exhausted : Run α).Accountable permitted where
  calls _ _ _ h := absurd h List.not_mem_nil
  outcome := .inl ⟨fun _ h => absurd h List.not_mem_nil, rfl⟩

theorem accountable_emit {e : Event} (h : ∀ f args returned, e ≠ .called f args returned) :
    (emit e).Accountable permitted where
  calls f args returned he := absurd (List.mem_singleton.1 he).symm (h f args returned)
  outcome := by
    refine .inl ⟨fun event he => ?_, rfl⟩
    rw [List.mem_singleton.1 he]
    cases e with
    | called f args returned => exact absurd rfl (h f args returned)
    | _ => rfl

theorem Accountable.congr {r : Run α} {r' : Run β} (h : r.Accountable permitted)
    (hevents : r'.events = r.events) (hfault : r'.fault? = r.fault?) :
    r'.Accountable permitted where
  calls := by
    rw [hevents]
    exact h.calls
  outcome := by
    rw [hevents, hfault]
    exact h.outcome

theorem Accountable.mapRejection {r : Run α} (f : ValidationError → ValidationError)
    (h : r.Accountable permitted) : (r.mapRejection f).Accountable permitted := by
  refine h.congr ?_ ?_
  · unfold Run.mapRejection
    split <;> rfl
  · unfold Run.mapRejection
    split
    next e hr => simp [fault?, hr, Failure.fault?]
    next => rfl

theorem Accountable.attempt {r : Run α} (h : r.Accountable permitted) :
    r.attempt.Accountable permitted := by
  refine h.congr ?_ ?_
  · unfold Run.attempt
    split <;> rfl
  · unfold Run.attempt
    split
    next a hr => simp [fault?, hr]
    next e hr => simp [fault?, hr, Failure.fault?]
    next e _ hr => simp [fault?, hr]

/-- A fault ends the run, so a continuation follows only events without fault. -/
theorem Accountable.bind {r : Run α} {f : α → Run β} (hr : r.Accountable permitted)
    (hf : ∀ a, r.result = .ok a → (f a).Accountable permitted) :
    (r >>= f).Accountable permitted := by
  cases hresult : r.result with
  | error e =>
    rw [bind_of_error hresult]
    exact hr.congr rfl (by simp [fault?, hresult])
  | ok a =>
    have hclean : ∀ event ∈ r.events, event.fault? = none := by
      rcases hr.outcome with ⟨hclean, -⟩ | ⟨before, event, -, -, hsome, hfault⟩
      · exact hclean
      · rw [← hfault] at hsome
        simp [fault?, hresult] at hsome
    have hnext := hf a hresult
    rw [bind_of_ok hresult]
    refine ⟨fun g args returned h => ?_, ?_⟩
    · rcases List.mem_append.1 h with h | h
      · exact hr.calls g args returned h
      · exact hnext.calls g args returned h
    · rcases hnext.outcome with ⟨hrest, hnone⟩ | ⟨before, event, hevents, hbefore, hsome, hfault⟩
      · exact .inl ⟨List.forall_mem_append.2 ⟨hclean, hrest⟩, hnone⟩
      · refine .inr ⟨r.events ++ before, event, ?_, ?_, hsome, hfault⟩
        · rw [hevents, List.append_assoc]
        · exact List.forall_mem_append.2 ⟨hclean, hbefore⟩

theorem invariant_accountable : Invariant fun _ r => r.Accountable permitted where
  pure := accountable_pure
  reject := accountable_reject
  exhausted := accountable_exhausted
  schemaRejected _ := accountable_emit (by simp)
  bind := .bind
  mapRejection := .mapRejection
  attempt := .attempt

end Run

end Conform
