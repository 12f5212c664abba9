import Conform.Error

namespace Conform

inductive Amendment where
  | value (v : Value)
  | path (keys : List Value)
  | redaction

namespace Amendment

def isRedaction : Amendment → Bool
  | redaction => true
  | _ => false

def value? : Amendment → Option Value
  | value v => some v
  | _ => none

def others (steps : List Amendment) : List Amendment :=
  steps.filter fun step => !step.isRedaction

def lastValue? (steps : List Amendment) : Option Value :=
  (steps.filterMap value?).getLast?

theorem lastValue?_value (v : Value) (steps : List Amendment) :
    lastValue? (value v :: steps) = (lastValue? steps).or (some v) := by
  have hvalues : (value v :: steps).filterMap value? = [v] ++ steps.filterMap value? := rfl
  rw [lastValue?, hvalues, List.getLast?_append, lastValue?]
  rfl

theorem lastValue?_others (steps : List Amendment) :
    lastValue? (others steps) = lastValue? steps := by
  have hvalues : (others steps).filterMap value? = steps.filterMap value? := by
    rw [others, List.filterMap_filter]
    congr 1
    funext step
    cases step <;> rfl
  rw [lastValue?, hvalues, lastValue?]

theorem redaction_notMem_others (steps : List Amendment) : redaction ∉ others steps := by
  intro h
  have := (List.mem_filter.1 h).2
  cases this

theorem others_of_notMem {steps : List Amendment} (h : redaction ∉ steps) :
    others steps = steps := by
  refine List.filter_eq_self.2 fun step hstep => ?_
  cases step with
  | redaction => exact absurd hstep h
  | value | path => rfl

end Amendment

open Amendment

namespace ValidationError

def amend (e : ValidationError) : Amendment → ValidationError
  | .value v => e.withValue v
  | .path keys => e.withKeysPath keys
  | .redaction => e.redacted

def amendAll (e : ValidationError) (steps : List Amendment) : ValidationError :=
  steps.foldl amend e

section

variable {e : ValidationError} {steps steps' : List Amendment}

theorem key_amend (e : ValidationError) (step : Amendment) : (e.amend step).key = e.key := by
  cases step with
  | value v => rw [amend, withValue_eq]
  | path keys => rfl
  | redaction => rw [amend, redacted_eq]

theorem reason_amend (e : ValidationError) (step : Amendment) :
    (e.amend step).reason = e.reason := by
  cases step with
  | value v => rw [amend, withValue_eq]
  | path keys => rfl
  | redaction => rw [amend, redacted_eq]

theorem key_amendAll (e : ValidationError) (steps : List Amendment) :
    (e.amendAll steps).key = e.key := by
  induction steps generalizing e with
  | nil => rfl
  | cons step steps ih => exact (ih _).trans (key_amend e step)

theorem reason_amendAll (e : ValidationError) (steps : List Amendment) :
    (e.amendAll steps).reason = e.reason := by
  induction steps generalizing e with
  | nil => rfl
  | cons step steps ih => exact (ih _).trans (reason_amend e step)

theorem value?_amendAll (hredact : e.redact = false) (h : .redaction ∉ steps) :
    (e.amendAll steps).value? = (lastValue? steps).or e.value? := by
  induction steps generalizing e with
  | nil => rfl
  | cons step steps ih =>
    have hrest : .redaction ∉ steps := fun hmem => h (List.mem_cons_of_mem _ hmem)
    cases step with
    | value v =>
      have hvalue : e.withValue v = { e with value? := some v } := by
        rw [withValue_eq, hredact]
        rfl
      calc ((e.withValue v).amendAll steps).value?
        _ = (lastValue? steps).or (some v) := by
          rw [hvalue]
          exact ih hredact hrest
        _ = (lastValue? (.value v :: steps)).or e.value? := by
          rw [lastValue?_value, Option.or_assoc]
          rfl
    | path keys => exact ih hredact hrest
    | redaction => exact absurd List.mem_cons_self h

theorem redacted_redacted (e : ValidationError) : e.redacted.redacted = e.redacted := by
  simp [redacted_eq, Function.comp_def]

/-- A redaction can be put off until after the next step. -/
theorem amend_redacted (e : ValidationError) (step : Amendment) :
    e.redacted.amend step = (e.amend step).redacted := by
  cases step with
  | value v => simp [amend, withValue_eq, redacted_eq]
  | path keys => simp [amend, withKeysPath, redacted_eq]
  | redaction => rfl

theorem amendAll_redacted (e : ValidationError) (steps : List Amendment) :
    e.redacted.amendAll steps = (e.amendAll steps).redacted := by
  induction steps generalizing e with
  | nil => rfl
  | cons step steps ih =>
    calc (e.redacted.amend step).amendAll steps
      _ = (e.amend step).redacted.amendAll steps := by rw [amend_redacted]
      _ = ((e.amend step).amendAll steps).redacted := ih _

theorem redacted_amendAll_of_mem (e : ValidationError) (h : .redaction ∈ steps) :
    (e.amendAll steps).redacted = e.amendAll steps := by
  obtain ⟨earlier, later, rfl⟩ := List.append_of_mem h
  have hsplit : e.amendAll (earlier ++ .redaction :: later) =
      ((e.amendAll earlier).amendAll later).redacted := by
    rw [amendAll, List.foldl_append]
    exact amendAll_redacted _ later
  rw [hsplit, redacted_redacted]

theorem redacted_amendAll_others (e : ValidationError) (steps : List Amendment) :
    (e.amendAll (others steps)).redacted = (e.amendAll steps).redacted := by
  induction steps generalizing e with
  | nil => rfl
  | cons step steps ih =>
    cases step with
    | value v => exact ih _
    | path keys => exact ih _
    | redaction =>
      calc (e.amendAll (others steps)).redacted
        _ = (e.amendAll steps).redacted := ih e
        _ = (e.amendAll steps).redacted.redacted := (redacted_redacted _).symm
        _ = (e.redacted.amendAll steps).redacted := by rw [amendAll_redacted]

theorem amendAll_of_mem (e : ValidationError) (h : .redaction ∈ steps) :
    e.amendAll steps = (e.amendAll (others steps)).redacted := by
  rw [redacted_amendAll_others, redacted_amendAll_of_mem e h]

theorem amendAll_congr (e : ValidationError) (hothers : others steps' = others steps)
    (hmem : .redaction ∈ steps' ↔ .redaction ∈ steps) : e.amendAll steps' = e.amendAll steps := by
  by_cases h : .redaction ∈ steps
  · rw [amendAll_of_mem e h, amendAll_of_mem e (hmem.2 h), hothers]
  · have hsame : steps' = steps := by
      rw [← others_of_notMem h, ← others_of_notMem (mt hmem.1 h), hothers]
    rw [hsame]

end

def built (key : ErrorKey) (reason : Reason) (steps : List Amendment) : ValidationError :=
  amendAll { key, reason } steps

/-- An error keeps the key and the message that it is built from. As long as no step is a redaction,
it carries the value attached last; from the first redaction on it is redacted, and if a value is
attached, before or after, it carries the placeholder. Where the redactions stand among the other
steps makes no difference. -/
theorem redactions_anywhere (key : ErrorKey) (reason : Reason) (steps : List Amendment) :
    (built key reason steps).key = key ∧
    (built key reason steps).message = reason.message ∧
    (.redaction ∉ steps → (built key reason steps).value? = lastValue? steps) ∧
    (.redaction ∈ steps → (built key reason steps).redact = true ∧
      (built key reason steps).value? = (lastValue? steps).map fun _ => redactedValue) ∧
    ∀ steps', others steps' = others steps → (.redaction ∈ steps' ↔ .redaction ∈ steps) →
      built key reason steps' = built key reason steps := by
  have hvalue : ∀ {steps}, .redaction ∉ steps →
      (built key reason steps).value? = lastValue? steps := by
    intro steps h
    exact (value?_amendAll rfl h).trans Option.or_none
  refine ⟨key_amendAll _ steps, ?_, hvalue, fun h => ?_, fun steps' => amendAll_congr _⟩
  · rw [message, built, reason_amendAll]
  · have hbuilt : built key reason steps = (built key reason (others steps)).redacted :=
      amendAll_of_mem _ h
    rw [hbuilt, redacted_eq, hvalue (redaction_notMem_others steps), lastValue?_others]
    exact ⟨rfl, rfl⟩

/-- The value of an option is attached again after the redaction and the path. -/
def regionSteps : List Amendment :=
  [.value (.string "eu1"), .redaction, .path [.atom "cluster"], .value (.string "eu2")]

/-- Neither value is shown, and redacting first or last leads to the same error. -/
theorem regionSteps_withheld :
    .redaction ∈ regionSteps ∧
    (built .root (.stated "no such region") regionSteps).value? = some redactedValue ∧
    built .root (.stated "no such region") (.redaction :: others regionSteps) =
      built .root (.stated "no such region") (others regionSteps ++ [.redaction]) := by
  have hmem : .redaction ∈ regionSteps := by simp [regionSteps]
  have hfirst := redactions_anywhere .root (.stated "no such region") regionSteps
  have hlast := redactions_anywhere .root (.stated "no such region")
    (others regionSteps ++ [.redaction])
  exact ⟨hmem, (hfirst.2.2.2.1 hmem).2, hlast.2.2.2.2 _ rfl (by simp)⟩

end ValidationError

end Conform
