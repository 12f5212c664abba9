import Conform.Proofs.Acceptance.Descent
import Conform.Proofs.Acceptance.Settlement
import Conform.Proofs.Run.Parallel

namespace Conform

open Run

/-- Both runs have the same result, or both reject, or both fail in the same other way. -/
abbrev Run.Concur {α : Type} (r r' : Run α) : Prop :=
  r.Parallel (fun _ _ => True) (fun _ => True) Eq r'

namespace Run

variable {α β : Type}

theorem concur_refl (r : Run α) : Concur r r := parallel_refl (fun _ => trivial) (fun _ => rfl) r

theorem Concur.eq_ok {r r' : Run α} {a : α} (h : Concur r r') (hr : r.result = .ok a) :
    r'.result = .ok a := by
  rcases h.outcomes with ⟨b, _, hb, hb', rfl⟩ | ⟨e, _, he, -⟩ | ⟨f, hf, -⟩
  · rwa [hb', ← hb]
  · cases hr.symm.trans he
  · cases hr.symm.trans hf

theorem Concur.bind {r r' : Run α} {f f' : α → Run β} (h : Concur r r')
    (hf : ∀ a, Concur (f a) (f' a)) : Concur (r >>= f) (r' >>= f') :=
  Parallel.bind h fun a _ heq => heq ▸ hf a

theorem Concur.map {r r' : Run α} (h : Concur r r') (f : α → β) : Concur (f <$> r) (f <$> r') :=
  Parallel.map h fun _ _ heq => congrArg f heq

theorem Concur.mapRejection {r r' : Run α} (h : Concur r r')
    (f f' : ValidationError → ValidationError) :
    Concur (r.mapRejection f) (r'.mapRejection f') :=
  Parallel.mapRejection h fun _ _ _ => trivial

theorem concur_mapM {f f' : α → Run β} {as : List α} (h : ∀ a ∈ as, Concur (f a) (f' a)) :
    Concur (as.mapM f) (as.mapM f') := by
  induction as with
  | nil => exact concur_refl _
  | cons a as ih =>
    rw [List.mapM_cons, List.mapM_cons]
    refine Concur.bind (h a (by simp)) fun b => ?_
    exact Concur.bind (ih fun a' ha' => h a' (List.mem_cons_of_mem _ ha')) fun _ => concur_refl _

theorem concur_foldlM {f f' : β → α → Run β} {as : List α} (h : ∀ a b, Concur (f b a) (f' b a))
    (b : β) : Concur (as.foldlM f b) (as.foldlM f' b) := by
  induction as generalizing b with
  | nil => exact concur_refl _
  | cons a as ih =>
    rw [List.foldlM_cons, List.foldlM_cons]
    exact Concur.bind (h a b) ih

end Run

namespace Context

variable {cx cx' : Context} {v : Value}

theorem concur_reject (reason reason' : Reason) :
    Concur (cx.reject v reason) (cx'.reject v reason') :=
  parallel_reject trivial

theorem concur_mismatch (label label' : Label) (expected : Expectation) :
    Concur (cx.mismatch label v expected) (cx'.mismatch label' v expected) :=
  concur_reject _ _

theorem concur_verdict (validator : Function) (returned : Value) :
    Concur (cx.verdict validator v returned) (cx'.verdict validator v returned) := by
  unfold verdict
  split
  · exact concur_refl _
  · exact concur_reject _ _
  · exact concur_refl _

end Context

def Acceptance.Concurs (acceptance acceptance' : Acceptance) : Prop :=
  ∀ t label label' v cx cx', Concur (acceptance t label v cx) (acceptance' t label' v cx')

theorem OptionSpec.concur_accept {acceptance acceptance' : Acceptance}
    (h : acceptance.Concurs acceptance') (redact redact' : Bool) (spec : OptionSpec) (key : Value)
    (pairs : List (Value × Value)) :
    Concur (spec.accept acceptance redact key pairs)
      (spec.accept acceptance' redact' key pairs) := by
  rw [accept_eq_bind, accept_eq_bind]
  refine Concur.bind (concur_refl _) fun supplied => ?_
  cases supplied with
  | none => exact concur_refl _
  | some supplied =>
    refine Concur.map ?_ _
    unfold acceptValue
    exact Concur.bind (concur_refl _) fun _ => h _ _ _ _ _ _

theorem Options.concur_accept {acceptance acceptance' : Acceptance}
    (h : acceptance.Concurs acceptance') (redact redact' : Bool) (es : List Entry) (o : Options) :
    Concur (o.accept acceptance redact es) (o.accept acceptance' redact' es) := by
  unfold Options.accept
  dsimp only
  split
  · refine Concur.bind (concur_foldlM (fun d pairs => ?_) _) fun _ => concur_refl _
    exact OptionSpec.concur_accept h redact redact' d.2 d.1 pairs
  · exact concur_refl _

section

variable {host : Host} {fuel : Nat}
  (htype : Acceptance.Concurs (OptionType.accept host fuel) (OptionType.accept host fuel))
  (hschema : ∀ s v redact redact', Concur (Schema.accept host fuel s v redact)
    (Schema.accept host fuel s v redact'))

include htype hschema in
theorem OptionType.concur_accept_succ :
    Acceptance.Concurs (accept host (fuel + 1)) (accept host (fuel + 1)) := by
  intro t label label' v cx cx'
  cases t with
  | basic b =>
    rw [accept_basic, accept_basic]
    split
    · exact concur_refl _
    · exact Context.concur_mismatch _ _ _
  | keywordListOf s | nonEmptyKeywordListOf s | mapOfKeys s =>
    rw [accept_container _ _ _ _ _ rfl, accept_container _ _ _ _ _ rfl]
    split
    · exact Concur.mapRejection (hschema _ _ _ _) _ _
    · exact Context.concur_mismatch _ _ _
  | mapOf keyType valueType =>
    rw [accept_mapOf, accept_mapOf]
    split
    · refine Concur.bind (concur_mapM fun pair _ => ?_) fun _ => concur_refl _
      refine Concur.bind (Concur.mapRejection (htype _ _ _ _ _ _) _ _) fun _ => ?_
      exact Concur.bind (Concur.mapRejection (htype _ _ _ _ _ _) _ _) fun _ => concur_refl _
    · exact Context.concur_mismatch _ _ _
  | function arity =>
    rw [accept_function, accept_function]
    split
    · split
      · exact concur_refl _
      · exact Context.concur_reject _ _
    · exact Context.concur_mismatch _ _ _
  | oneOf choices =>
    rw [accept_oneOf, accept_oneOf]
    split
    · exact concur_refl _
    · exact Context.concur_mismatch _ _ _
  | custom validator args =>
    rw [accept_custom, accept_custom]
    refine Concur.bind (concur_refl _) fun returned => ?_
    exact Concur.bind (concur_refl _) fun _ => Context.concur_verdict validator returned
  | union ts =>
    rw [accept_union, accept_union]
    have hsearch : Parallel (fun _ _ => True) (fun _ => True)
        (Agree (List.Forall₂ fun _ _ => True) Eq)
        (firstAccepted (fun t => accept host fuel t label v cx) ts)
        (firstAccepted (fun t => accept host fuel t label' v cx') ts) :=
      parallel_firstAccepted fun t _ => htype t _ _ _ _ _
    refine Parallel.bind hsearch fun outcome outcome' houtcome => ?_
    cases houtcome with
    | ok heq => exact parallel_pure heq
    | error _ => exact Context.concur_reject _ _
  | listOf t =>
    rw [accept_listOf, accept_listOf]
    split
    · refine Concur.bind (concur_mapM fun item _ => ?_) fun _ => concur_refl _
      exact Concur.mapRejection (htype _ _ _ _ _ _) _ _
    · exact Context.concur_mismatch _ _ _
  | tupleOf ts =>
    rw [accept_tupleOf, accept_tupleOf]
    split
    · split
      · refine Concur.bind (concur_mapM fun item _ => ?_) fun _ => concur_refl _
        exact Concur.mapRejection (htype _ _ _ _ _ _) _ _
      · exact Context.concur_mismatch _ _ _
    · exact Context.concur_mismatch _ _ _
  | struct name =>
    rw [accept_struct, accept_struct]
    split
    · split
      · exact concur_refl _
      · exact Context.concur_mismatch _ _ _
    · exact Context.concur_mismatch _ _ _

include htype in
theorem Schema.concur_accept_succ (s : Schema) (v : Value) (redact redact' : Bool) :
    Concur (accept host (fuel + 1) s v redact) (accept host (fuel + 1) s v redact') := by
  rw [accept_succ, accept_succ]
  split
  · exact concur_refl _
  · refine Concur.bind (concur_refl _) fun es => ?_
    exact Options.concur_accept htype redact redact' es _

end

theorem concur_accept (host : Host) (fuel : Nat) :
    Acceptance.Concurs (OptionType.accept host fuel) (OptionType.accept host fuel) ∧
    ∀ s v redact redact', Concur (Schema.accept host fuel s v redact)
      (Schema.accept host fuel s v redact') := by
  induction fuel with
  | zero =>
    refine ⟨fun t label label' v cx cx' => ?_, fun s v redact redact' => ?_⟩
    · rw [OptionType.accept_zero, OptionType.accept_zero]
      exact concur_refl _
    · rw [Schema.accept_zero, Schema.accept_zero]
      exact concur_refl _
  | succ fuel ih =>
    exact ⟨OptionType.concur_accept_succ ih.1 ih.2, Schema.concur_accept_succ ih.1⟩

/-- Neither the label nor the context has a say in what a value becomes. -/
theorem OptionType.accept_eq_ok_congr {host : Host} {fuel : Nat} {t : OptionType} {v n : Value}
    (label label' : Label) (cx cx' : Context) :
    (t.accept host fuel label v cx).result = .ok n ↔
      (t.accept host fuel label' v cx').result = .ok n :=
  ⟨((concur_accept host fuel).1 t _ _ v _ _).eq_ok, ((concur_accept host fuel).1 t _ _ v _ _).eq_ok⟩

theorem Schema.accept_eq_ok_congr {host : Host} {fuel : Nat} {s : Schema} {v n : Value}
    (redact redact' : Bool) :
    (s.accept host fuel v redact).result = .ok n ↔ (s.accept host fuel v redact').result = .ok n :=
  ⟨((concur_accept host fuel).2 s v _ _).eq_ok, ((concur_accept host fuel).2 s v _ _).eq_ok⟩

end Conform
