import Conform.Proofs.Acceptance.Settlement
import Conform.Proofs.Acceptance.Step
import Conform.Proofs.Run.Depth
import Conform.Proofs.Schema.Reading

namespace Conform

open Run (Approximates)

theorem Schema.resolve?_succ {host : Host} {fuel : Nat} {s : Schema} {es : List Entry}
    (h : s.resolve? host fuel = some es) : s.resolve? host (fuel + 1) = some es := by
  induction fuel generalizing s with
  | zero =>
    cases s with
    | entries ds => exact h
    | deferred d => simp [resolve?] at h
  | succ fuel ih =>
    cases s with
    | entries ds => exact h
    | deferred d => exact ih h

theorem Schema.resolve?_approximates (host : Host) (fuel : Nat) (s : Schema) :
    Approximates (Run.ofOption (s.resolve? host fuel))
      (Run.ofOption (s.resolve? host (fuel + 1))) := by
  cases h : s.resolve? host fuel with
  | none => exact .exhausted _
  | some es =>
    rw [resolve?_succ h]
    exact .refl _

theorem Schema.resolve?_mono (host : Host) {fuel fuel' : Nat} (h : fuel ≤ fuel') (s : Schema) :
    Approximates (Run.ofOption (s.resolve? host fuel)) (Run.ofOption (s.resolve? host fuel')) := by
  induction h with
  | refl => exact .refl _
  | step _ ih => exact ih.trans (resolve?_approximates host _ s)

theorem Schema.exists_resolve? {host : Host} {s : Schema} {es : List Entry}
    (h : s.Resolves host es) :
    ∃ depth, ∀ limit, depth ≤ limit → s.resolve? host limit = some es := by
  induction h with
  | entries es => exact ⟨0, fun limit _ => resolve?_entries host limit es⟩
  | deferred _ ih =>
    obtain ⟨depth, hdepth⟩ := ih
    refine ⟨depth + 1, fun limit hlimit => ?_⟩
    obtain ⟨limit, rfl⟩ : ∃ n, limit = n + 1 := ⟨limit - 1, by omega⟩
    exact hdepth limit (by omega)

theorem OptionType.read_approximates {nested nested' : Value → ExceptT ReadError Run Schema}
    (h : ∀ s, Approximates (nested s).run (nested' s).run) (v : Value) :
    Approximates (OptionType.read nested v).run (OptionType.read nested' v).run := by
  have hr := Congruence.of_run (r := fun _ x y => Approximates x y) (fun a => .refl _)
    fun hxy hfg => hxy.bind hfg
  exact hr.read v fun s _ => h s

theorem Schema.checkNested_approximates {judge judge' : Value → Run (Option ValidationError)}
    (h : ∀ v, Approximates (judge v) (judge' v)) (v : Value) :
    Approximates (checkNested judge v).run (checkNested judge' v).run := by
  cases hv : v.isProducer with
  | true =>
    rw [checkNested_of_producer hv, checkNested_of_producer hv]
    exact .refl _
  | false =>
    rw [checkNested_of_data hv, checkNested_of_data hv]
    exact .map _ (h v)

theorem OptionSpec.accept_approximates {acceptance acceptance' : Acceptance}
    (h : ∀ t label v cx, Approximates (acceptance t label v cx) (acceptance' t label v cx))
    (redact : Bool) (spec : OptionSpec) (key : Value) (pairs : List (Value × Value)) :
    Approximates (spec.accept acceptance redact key pairs)
      (spec.accept acceptance' redact key pairs) := by
  rw [accept_eq_bind, accept_eq_bind]
  refine .bind (.refl _) fun supplied => ?_
  cases supplied with
  | none => exact .refl _
  | some supplied =>
    refine .map _ ?_
    unfold acceptValue
    exact .bind (.refl _) fun _ => h _ _ _ _

theorem Options.accept_approximates {acceptance acceptance' : Acceptance}
    (h : ∀ t label v cx, Approximates (acceptance t label v cx) (acceptance' t label v cx))
    (redact : Bool) (es : List Entry) (o : Options) :
    Approximates (o.accept acceptance redact es) (o.accept acceptance' redact es) := by
  unfold Options.accept
  dsimp only
  split
  · refine .bind (.foldlM _ fun d _ pairs => ?_) fun pairs => .refl _
    exact OptionSpec.accept_approximates h redact d.2 d.1 pairs
  · exact .refl _

section

variable {host : Host} {fuel : Nat}
  (htype : ∀ t label v cx, Approximates (OptionType.accept host fuel t label v cx)
    (OptionType.accept host (fuel + 1) t label v cx))
  (hschema : ∀ s v redact, Approximates (Schema.accept host fuel s v redact)
    (Schema.accept host (fuel + 1) s v redact))
  (hcall : ∀ f args, Approximates (Function.call host fuel f args)
    (Function.call host (fuel + 1) f args))

include htype hschema hcall in
theorem OptionType.accept_approximates_succ (t : OptionType) (label : Label) (v : Value)
    (cx : Context) :
    Approximates (accept host (fuel + 1) t label v cx) (accept host (fuel + 2) t label v cx) := by
  cases t with
  | basic b =>
    rw [accept_basic, accept_basic]
    exact .refl _
  | keywordListOf s | nonEmptyKeywordListOf s | mapOfKeys s =>
    rw [accept_container _ _ _ _ _ rfl, accept_container _ _ _ _ _ rfl]
    split
    · exact .mapRejection _ (hschema _ _ _)
    · exact .refl _
  | mapOf keyType valueType =>
    rw [accept_mapOf, accept_mapOf]
    split
    · refine .bind (.mapM _ fun pair => ?_) fun _ => .refl _
      refine .bind (.mapRejection _ (htype _ _ _ _)) fun _ => ?_
      exact .bind (.mapRejection _ (htype _ _ _ _)) fun _ => .refl _
    · exact .refl _
  | function arity =>
    rw [accept_function, accept_function]
    exact .refl _
  | oneOf choices =>
    rw [accept_oneOf, accept_oneOf]
    exact .refl _
  | custom validator args =>
    rw [accept_custom, accept_custom]
    exact .bind (hcall _ _) fun _ => .refl _
  | union ts =>
    rw [accept_union, accept_union]
    exact .bind (.firstAccepted _ fun t => htype _ _ _ _) fun _ => .refl _
  | listOf t =>
    rw [accept_listOf, accept_listOf]
    split
    · exact .bind (.mapM _ fun item => .mapRejection _ (htype _ _ _ _)) fun _ => .refl _
    · exact .refl _
  | tupleOf ts =>
    rw [accept_tupleOf, accept_tupleOf]
    split
    · split
      · exact .bind (.mapM _ fun item => .mapRejection _ (htype _ _ _ _)) fun _ => .refl _
      · exact .refl _
    · exact .refl _
  | struct name =>
    rw [accept_struct, accept_struct]
    exact .refl _

include htype in
theorem Schema.accept_approximates_succ (s : Schema) (v : Value) (redact : Bool) :
    Approximates (accept host (fuel + 1) s v redact) (accept host (fuel + 2) s v redact) := by
  rw [accept_succ, accept_succ]
  split
  · exact .refl _
  · refine .bind (resolve?_approximates host fuel s) fun es => ?_
    exact Options.accept_approximates htype redact es _

include hschema in
theorem Function.call_approximates_succ (f : Function) (args : List Value) :
    Approximates (call host (fuel + 1) f args) (call host (fuel + 2) f args) := by
  rw [call_succ, call_succ]
  split
  · exact .refl _
  · exact .refl _
  · split
    · exact .refl _
    next v _ =>
      refine .map _ (OptionType.read_approximates (fun s => ?_) v)
      refine Schema.checkNested_approximates (fun data => ?_) s
      exact .bind (.attempt (hschema _ _ _)) fun _ => .refl _

end

/-- Acceptance by types, acceptance by schemas and calls are defined by one recursion, so their
verdicts persist together. -/
theorem accept_approximates (host : Host) (fuel : Nat) :
    (∀ t label v cx, Approximates (OptionType.accept host fuel t label v cx)
      (OptionType.accept host (fuel + 1) t label v cx)) ∧
    (∀ s v redact, Approximates (Schema.accept host fuel s v redact)
      (Schema.accept host (fuel + 1) s v redact)) ∧
    ∀ f args, Approximates (Function.call host fuel f args)
      (Function.call host (fuel + 1) f args) := by
  induction fuel with
  | zero =>
    refine ⟨fun t label v cx => ?_, fun s v redact => ?_, fun f args => ?_⟩
    · rw [OptionType.accept_zero]
      exact .exhausted _
    · rw [Schema.accept_zero]
      exact .exhausted _
    · rw [Function.call_zero]
      exact .exhausted _
  | succ fuel ih =>
    obtain ⟨htype, hschema, hcall⟩ := ih
    refine ⟨fun t label v cx => ?_, fun s v redact => ?_, fun f args => ?_⟩
    · exact OptionType.accept_approximates_succ htype hschema hcall t label v cx
    · exact Schema.accept_approximates_succ htype s v redact
    · exact Function.call_approximates_succ hschema f args

theorem OptionType.accept_mono {host : Host} {fuel fuel' : Nat} (h : fuel ≤ fuel') (t : OptionType)
    (label : Label) (v : Value) (cx : Context) :
    Approximates (accept host fuel t label v cx) (accept host fuel' t label v cx) := by
  induction h with
  | refl => exact .refl _
  | step _ ih => exact ih.trans ((accept_approximates host _).1 t label v cx)

theorem Schema.accept_mono {host : Host} {fuel fuel' : Nat} (h : fuel ≤ fuel') (s : Schema)
    (v : Value) (redact : Bool) :
    Approximates (accept host fuel s v redact) (accept host fuel' s v redact) := by
  induction h with
  | refl => exact .refl _
  | step _ ih => exact ih.trans ((accept_approximates host _).2.1 s v redact)

theorem Function.call_mono {host : Host} {fuel fuel' : Nat} (h : fuel ≤ fuel') (f : Function)
    (args : List Value) :
    Approximates (call host fuel f args) (call host fuel' f args) := by
  induction h with
  | refl => exact .refl _
  | step _ ih => exact ih.trans ((accept_approximates host _).2.2 f args)

/-- A function returns one value at most, whatever the depth allowed for the call. -/
theorem Function.call_deterministic {host : Host} {fuel fuel' : Nat} {f : Function}
    {args : List Value} {v w : Value} (hv : (call host fuel f args).result = .ok v)
    (hw : (call host fuel' f args).result = .ok w) : v = w := by
  rcases Nat.le_total fuel fuel' with h | h
  · rw [call_mono h f args (Run.ends_of_ok hv), hv] at hw
    exact Except.ok.inj hw
  · rw [call_mono h f args (Run.ends_of_ok hw), hw] at hv
    exact (Except.ok.inj hv).symm

end Conform
