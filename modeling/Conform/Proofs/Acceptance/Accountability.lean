import Conform.Proofs.Acceptance.Exactness
import Conform.Proofs.Acceptance.Invariance
import Conform.Proofs.Compiled.Placement
import Conform.Proofs.Run.Accountability

namespace Conform

open Run

namespace OptionType

/-- What is called for a type, with its value and arguments, is permitted to return what it does. -/
def Calls (host : Host) (permitted : Function → List Value → Value → Prop) (t : OptionType) :
    Prop :=
  ∀ f args v returned, t = .custom f args → f.Returns host (v :: args) returned →
    permitted f (v :: args) returned

abbrev CallsOnly (host : Host) (permitted : Function → List Value → Value → Prop) :
    OptionType → Prop :=
  Everywhere host (fun _ => True) (Calls host permitted)

end OptionType

abbrev Schema.CallsOnly (host : Host) (permitted : Function → List Value → Value → Prop) :
    Schema → Prop :=
  Everywhere host (fun _ => True) (OptionType.Calls host permitted)

variable {permitted : Function → List Value → Value → Prop}

/-- The verdict on what a validator returned is a fault if and only if it is no answer. -/
theorem Context.accountable_verdict {cx : Context} {f : Function} {v returned : Value}
    {args : List Value} (h : permitted f args returned) :
    (emit (.called f args returned) >>= fun _ =>
      cx.verdict f v returned).Accountable permitted := by
  rw [bind_of_ok (result_emit _)]
  unfold verdict
  cases hanswer : returned.answer? with
  | none =>
    refine ⟨fun g args' returned' hcalled => ?_, .inr ⟨[], _, rfl, by simp, ?_, ?_⟩⟩
    · cases List.mem_singleton.1 hcalled
      exact h
    · simp [Event.fault?, hanswer]
    · simp [Event.fault?, hanswer, fault?, Failure.fault?]
  | some answer =>
    refine ⟨fun g args' returned' hcalled => ?_, .inl ⟨fun event hevent => ?_, ?_⟩⟩
    · cases answer <;> cases List.mem_singleton.1 hcalled <;> exact h
    · cases answer <;> rw [List.mem_singleton.1 hevent] <;> simp [Event.fault?, hanswer]
    · cases answer <;> rfl

theorem Acceptance.invariant_accountable {host : Host}
    (hmeta : metaSchema.CallsOnly host permitted) :
    Acceptance.Invariant host (fun _ => True) (OptionType.Calls host permitted)
      fun _ r => r.Accountable permitted where
  toInvariant := Run.invariant_accountable
  announce es _ e _ key := by
    unfold OptionSpec.announce
    split
    · exact accountable_emit (by simp)
    · exact accountable_pure _
  verdict f args v returned ht hreturned cx :=
    Context.accountable_verdict (ht f args v returned rfl hreturned)
  container t b s ht f args v returned hcustom := by
    rw [hcustom] at ht
    cases ht
  listOf t f args v returned hcustom := by cases hcustom
  schemaOfSchemas := hmeta

section

variable {host : Host}

variable {s : Schema} {limit fuel : Nat} {c : Compiled}

end

end Conform
