import Conform.Proofs.Run.Depth

namespace Conform.Run

variable {α β : Type} {bad : Prop}

/-- The run fails by a fault if it fails, and something is bad in this case. -/
def FailsOnly (bad : Prop) (r : Run α) : Prop :=
  ∀ e, r.result = .error e → (∃ f, e = .fault f) ∧ bad

theorem failsOnly_pure (a : α) : (pure a : Run α).FailsOnly bad := by simp [FailsOnly]

theorem failsOnly_of_ok {r : Run α} {a : α} (h : r.result = .ok a) : r.FailsOnly bad := by
  simp [FailsOnly, h]

theorem failsOnly_fault {f : ContractFault} (h : bad) :
    (fail (.fault f) : Run α).FailsOnly bad := by
  intro e he
  cases he
  exact ⟨⟨f, rfl⟩, h⟩

theorem failsOnly_bind {r : Run α} {f : α → Run β} (hr : r.FailsOnly bad)
    (hf : ∀ a, (f a).FailsOnly bad) : (r >>= f).FailsOnly bad := by
  intro e he
  rcases bind_eq_error.1 he with he | ⟨a, -, he⟩
  · exact hr e he
  · exact hf a e he

theorem failsOnly_foldlM {f : β → α → Run β} {as : List α}
    (h : ∀ a ∈ as, ∀ b, (f b a).FailsOnly bad) (b : β) : (as.foldlM f b).FailsOnly bad := by
  induction as generalizing b with
  | nil => exact failsOnly_pure b
  | cons a as ih =>
    rw [List.foldlM_cons]
    refine failsOnly_bind (h a (by simp) b) fun b' => ?_
    exact ih (fun a' ha' => h a' (List.mem_cons_of_mem _ ha')) b'

theorem FailsOnly.mono {bad' : Prop} {r : Run α} (h : r.FailsOnly bad) (hbad : bad → bad') :
    r.FailsOnly bad' :=
  fun e he => ⟨(h e he).1, hbad (h e he).2⟩

theorem FailsOnly.exists_ok {r : Run α} (h : r.FailsOnly bad) (hbad : ¬bad) :
    ∃ a, r.result = .ok a := by
  cases hr : r.result with
  | ok a => exact ⟨a, rfl⟩
  | error e => exact absurd (h e hr).2 hbad

/-- A run that succeeds only on what is good, and fails only by a fault and on what is not, decides
what is good. -/
theorem FailsOnly.decides {good : Prop} {r : Run α} (h : r.FailsOnly (¬good))
    (hgood : ∀ a, r.result = .ok a → good) :
    ((∃ a, r.result = .ok a) ↔ good) ∧ (¬good → ∃ f, r.result = .error (.fault f)) := by
  refine ⟨⟨fun ⟨a, ha⟩ => hgood a ha, fun hyes => h.exists_ok (not_not.2 hyes)⟩, fun hno => ?_⟩
  cases hr : r.result with
  | ok a => exact absurd (hgood a hr) hno
  | error e =>
    obtain ⟨⟨f, rfl⟩, -⟩ := h e hr
    exact ⟨f, rfl⟩

end Conform.Run
