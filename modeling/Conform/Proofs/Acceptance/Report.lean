import Conform.Proofs.Acceptance.Rejection
import Conform.Proofs.Run.Parallel

namespace Conform

open Run

/-- Two errors say the same about the same option. -/
structure ValidationError.SameReport (e e' : ValidationError) : Prop where
  key : e.key = e'.key
  keysPath : e.keysPath = e'.keysPath
  message : e.message = e'.message
  redact : e.redact = e'.redact

namespace ValidationError.SameReport

variable {e e' e'' : ValidationError}

theorem refl (e : ValidationError) : SameReport e e := ⟨rfl, rfl, rfl, rfl⟩

theorem of_common (h : SameReport e e'') (h' : SameReport e' e'') : SameReport e e' where
  key := h.key.trans h'.key.symm
  keysPath := h.keysPath.trans h'.keysPath.symm
  message := h.message.trans h'.message.symm
  redact := h.redact.trans h'.redact.symm

theorem under (h : SameReport e e') (path : List Value) :
    SameReport (e.under path) (e'.under path) where
  key := h.key
  keysPath := congrArg (path ++ ·) h.keysPath
  message := h.message
  redact := h.redact

theorem text_eq (h : SameReport e e') : e.text = e'.text := by
  unfold text
  rw [h.keysPath, h.message]

theorem map_text_eq {es es' : List ValidationError} (h : List.Forall₂ SameReport es es') :
    es.map text = es'.map text := by
  induction h with
  | nil => rfl
  | cons he _ ih => rw [List.map_cons, List.map_cons, he.text_eq, ih]

end ValidationError.SameReport

theorem Reason.message_mismatch_congr {v w : Value} (h : v.inspect = w.inspect) (label : Label)
    (expected : Expectation) :
    (mismatch label expected (some v)).message = (mismatch label expected (some w)).message := by
  rw [message.eq_def, message.eq_def]
  dsimp only
  rw [h]

/-- Two runs go the same way, and rejections say the same. -/
abbrev Run.Reports {α α' : Type} (other : Failure → Prop) (values : α → α' → Prop) (r : Run α)
    (r' : Run α') : Prop :=
  r.Parallel ValidationError.SameReport other values r'

theorem Run.reports_emit {other : Failure → Prop} (e e' : Event) :
    Reports other (fun _ _ => True) (emit e) (emit e') :=
  parallel_of_ok rfl rfl trivial

namespace Context

variable {cx : Context} {v w : Value} {reason reason' : Reason} {other : Failure → Prop}
  {values : Value → Value → Prop}

theorem sameReport_error (h : reason.message = reason'.message) :
    (cx.error v reason).SameReport (cx.error w reason') := by
  rw [error_eq, error_eq]
  exact ⟨rfl, rfl, h, rfl⟩

theorem reports_reject (h : reason.message = reason'.message) :
    Reports other values (cx.reject v reason) (cx.reject w reason') :=
  parallel_reject (sameReport_error h)

theorem reports_mismatch (h : v.inspect = w.inspect) (label : Label) (expected : Expectation) :
    Reports other values (cx.mismatch label v expected) (cx.mismatch label w expected) := by
  unfold mismatch
  refine reports_reject ?_
  cases cx.redact with
  | true => rw [if_pos rfl, if_pos rfl]
  | false => exact Reason.message_mismatch_congr h label expected

end Context

theorem OptionType.reports_union {host host' : Host} {fuel : Nat} {ts : List OptionType}
    {label : Label} {cx : Context} {v w : Value} {other : Failure → Prop}
    {values : Value → Value → Prop}
    (h : ∀ t ∈ ts, Reports other values (t.accept host fuel label v cx)
      (t.accept host' fuel label w cx)) :
    Reports other values ((union ts).accept host (fuel + 1) label v cx)
      ((union ts).accept host' (fuel + 1) label w cx) := by
  have hsearch : Parallel ValidationError.SameReport other
      (Agree (List.Forall₂ ValidationError.SameReport) values)
      (firstAccepted (fun t => accept host fuel t label v cx) ts)
      (firstAccepted (fun t => accept host' fuel t label w cx) ts) :=
    parallel_firstAccepted h
  rw [accept_union, accept_union]
  refine hsearch.bind fun outcome outcome' houtcome => ?_
  cases houtcome with
  | ok hvalues => exact parallel_pure hvalues
  | error hes =>
    refine Context.reports_reject ?_
    rw [ValidationError.SameReport.map_text_eq hes]

end Conform
