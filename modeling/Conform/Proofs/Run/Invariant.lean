import Conform.Proofs.Run.Result

namespace Conform.Run

/-- A property of runs that every way to put runs together keeps. It may depend on the end of a run
by a fault, and on the events that speak of options and validators. -/
structure Invariant (p : (α : Type) → Run α → Prop) : Prop where
  pure : ∀ {α : Type} (a : α), p α (pure a)
  reject : ∀ {α : Type} (e : ValidationError), p α (reject e)
  exhausted : ∀ {α : Type}, p α (fail .exhausted)
  schemaRejected : ∀ e, p Unit (emit (.schemaRejected e))
  bind : ∀ {α β : Type} {r : Run α} {f : α → Run β},
    p α r → (∀ a, r.result = .ok a → p β (f a)) → p β (r >>= f)
  mapRejection : ∀ {α : Type} {r : Run α} (f : ValidationError → ValidationError),
    p α r → p α (r.mapRejection f)
  attempt : ∀ {α : Type} {r : Run α}, p α r → p (Except ValidationError α) r.attempt

namespace Invariant

variable {p : (α : Type) → Run α → Prop} {α β : Type}

theorem map (hp : Invariant p) {r : Run α} (f : α → β) (h : p α r) : p β (f <$> r) := by
  rw [map_eq_pure_bind]
  exact hp.bind h fun a _ => hp.pure (f a)

theorem ofOption (hp : Invariant p) (a? : Option α) : p α (ofOption a?) := by
  cases a? with
  | some a => exact hp.pure a
  | none => exact hp.exhausted

theorem mapM (hp : Invariant p) {f : α → Run β} {as : List α} (h : ∀ a ∈ as, p β (f a)) :
    p (List β) (as.mapM f) := by
  induction as with
  | nil => exact hp.pure []
  | cons a as ih =>
    rw [List.mapM_cons]
    refine hp.bind (h a (by simp)) fun b _ => hp.bind ?_ fun bs _ => hp.pure (b :: bs)
    exact ih fun a' ha' => h a' (List.mem_cons_of_mem _ ha')

theorem foldlM (hp : Invariant p) {f : β → α → Run β} {as : List α}
    (h : ∀ a ∈ as, ∀ b, p β (f b a)) (b : β) : p β (as.foldlM f b) := by
  induction as generalizing b with
  | nil => exact hp.pure b
  | cons a as ih =>
    rw [List.foldlM_cons]
    refine hp.bind (h a (by simp) b) fun b' _ => ?_
    exact ih (fun a' ha' => h a' (List.mem_cons_of_mem _ ha')) b'

theorem firstAccepted (hp : Invariant p) {f : α → Run β} {as : List α}
    (h : ∀ a ∈ as, p β (f a)) : p (Except (List ValidationError) β) (firstAccepted f as) := by
  induction as with
  | nil => exact hp.pure _
  | cons a as ih =>
    unfold Run.firstAccepted
    refine hp.bind (hp.attempt (h a (by simp))) fun tried _ => ?_
    cases tried with
    | ok b => exact hp.pure _
    | error e =>
      refine hp.bind (ih fun a' ha' => h a' (List.mem_cons_of_mem _ ha')) fun later _ => ?_
      cases later <;> exact hp.pure _

end Invariant

end Conform.Run
