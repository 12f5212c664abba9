import Conform.Proofs.Acceptance.Membership
import Conform.Proofs.Acceptance.Settlement
import Conform.Proofs.Acceptance.Step
import Conform.Proofs.Run.Invariant
import Conform.Proofs.Schema.Reading

namespace Conform

open Run

/-- A property of runs that acceptance has where all entries and types are of one kind. Besides what
puts runs together, only the report of a deprecated option and the call of a validator have to be
looked at. -/
structure Acceptance.Invariant (host : Host) (entries : List Entry → Prop)
    (types : OptionType → Prop) (p : (α : Type) → Run α → Prop) : Prop extends
    Run.Invariant p where
  announce : ∀ es, entries es → ∀ e ∈ es, ∀ key, p Unit (e.spec.announce key)
  verdict : ∀ f args v returned, types (.custom f args) → f.Returns host (v :: args) returned →
    ∀ cx : Context, p Value (emit (.called f (v :: args) returned) >>= fun _ =>
      cx.verdict f v returned)
  container : ∀ t b s, t.container? = some (b, s) → types t
  listOf : ∀ t, types (.listOf t)
  schemaOfSchemas : metaSchema.Everywhere host entries types

section

variable {p : (α : Type) → Run α → Prop} (hp : Run.Invariant p)

include hp

theorem OptionSpec.accept_invariant {acceptance : Acceptance} {spec : OptionSpec} {key : Value}
    (hannounce : p Unit (spec.announce key))
    (h : ∀ label v cx, p Value (acceptance spec.effectiveType label v cx)) (redact : Bool)
    (pairs : List (Value × Value)) : p _ (spec.accept acceptance redact key pairs) := by
  have hsupply : p _ (spec.supply key pairs) := by
    unfold supply
    split
    · exact hp.pure _
    · split
      · exact hp.reject _
      · split <;> exact hp.pure _
  rw [accept_eq_bind]
  refine hp.bind hsupply fun supplied _ => ?_
  cases supplied with
  | none => exact hp.pure _
  | some supplied => exact hp.map _ (hp.bind hannounce fun _ _ => h _ _ _)

theorem Options.accept_invariant {acceptance : Acceptance} {es : List Entry}
    (hannounce : ∀ e ∈ es, ∀ key, p Unit (e.spec.announce key))
    (h : ∀ e ∈ es, ∀ label v cx, p Value (acceptance e.spec.effectiveType label v cx))
    (redact : Bool) (o : Options) : p Value (o.accept acceptance redact es) := by
  unfold accept
  dsimp only
  split
  · refine hp.bind (hp.foldlM (fun d hd pairs => ?_) _) fun _ _ => hp.pure _
    obtain ⟨e, he, hspec⟩ := Entry.spec_of_mem_expand (Pairs.pairwise_keys _) hd
    rw [← hspec]
    exact OptionSpec.accept_invariant hp (hannounce e he d.1) (h e he) redact pairs
  · exact hp.reject _

theorem OptionType.read_invariant {nested : Value → ExceptT ReadError Run Schema}
    (h : ∀ s, p _ (nested s).run) (v : Value) : p _ (OptionType.read nested v).run := by
  have hr := Congruence.of_run (r := fun α x _ => p α x)
    (fun a => hp.pure a) fun hx hf => hp.bind hx fun a _ => hf a
  exact @Congruence.read _ _ _ _ _ _ _ nested nested hr v fun s _ => h s

theorem Schema.checkNested_invariant {judge : Value → Run (Option ValidationError)}
    (h : ∀ v, p _ (judge v)) (v : Value) : p _ (checkNested judge v).run := by
  cases hv : v.isProducer with
  | true =>
    rw [checkNested_of_producer hv]
    exact hp.pure _
  | false =>
    rw [checkNested_of_data hv]
    exact hp.map _ (h v)

theorem Run.judged_invariant {r : Run Value} (h : p Value r) : p _ r.judged := by
  refine hp.bind (hp.attempt h) fun outcome _ => ?_
  cases outcome with
  | ok accepted => exact hp.pure _
  | error e => exact hp.bind (hp.schemaRejected e) fun _ _ => hp.pure _

end

namespace Acceptance.Invariant

variable {host : Host} {entries : List Entry → Prop} {types : OptionType → Prop}
  {p : (α : Type) → Run α → Prop} {fuel : Nat} (hp : Acceptance.Invariant host entries types p)
  (htype : ∀ t : OptionType, t.Everywhere host entries types → ∀ label v cx,
    p Value (t.accept host fuel label v cx))
  (hschema : ∀ s : Schema, s.Everywhere host entries types → ∀ v redact,
    p Value (s.accept host fuel v redact))
  (hcall : ∀ f args, p Value (Function.call host fuel f args))

include hp htype in
theorem schema_succ {s : Schema} (hs : s.Everywhere host entries types) (v : Value)
    (redact : Bool) : p Value (s.accept host (fuel + 1) v redact) := by
  rw [Schema.accept_succ]
  split
  · exact hp.reject _
  · refine hp.bind (hp.ofOption _) fun es hes => ?_
    have hresolves := Schema.resolves_of_resolve? (ofOption_eq_ok.1 hes)
    refine Options.accept_invariant hp.toInvariant (hp.announce es (hs.entries hresolves))
      (fun e he => ?_) redact _
    exact htype _ (hs.effectiveType hresolves he hp.container hp.listOf)

include hp hschema in
theorem call_succ (f : Function) (args : List Value) : p Value (f.call host (fuel + 1) args) := by
  rw [Function.call_succ]
  split
  · exact hp.pure _
  · exact hp.pure _
  · split
    · exact hp.pure _
    · refine hp.map _ (OptionType.read_invariant hp.toInvariant (fun s => ?_) _)
      refine Schema.checkNested_invariant hp.toInvariant (fun data => ?_) s
      exact judged_invariant hp.toInvariant (hschema _ hp.schemaOfSchemas data false)

include hp htype hschema hcall in
theorem type_succ {t : OptionType} (ht : t.Everywhere host entries types) (label : Label)
    (v : Value) (cx : Context) : p Value (t.accept host (fuel + 1) label v cx) := by
  have hmismatch : ∀ v expected, p Value (cx.mismatch label v expected) := fun _ _ => hp.reject _
  cases t with
  | basic b =>
    rw [OptionType.accept_basic]
    split
    · exact hp.pure _
    · exact hmismatch _ _
  | keywordListOf s | nonEmptyKeywordListOf s | mapOfKeys s =>
    rw [OptionType.accept_container _ _ _ _ _ rfl]
    split
    · exact hp.mapRejection _ (hschema s (ht.container rfl) _ _)
    · exact hmismatch _ _
  | mapOf keyType valueType =>
    rw [OptionType.accept_mapOf]
    split
    · refine hp.bind (hp.mapM fun pair _ => ?_) fun _ _ => hp.pure _
      have hkey := htype keyType (ht.part fun w hw => .mapKey hw) .mapKey pair.1 cx
      have hvalue := htype valueType (ht.part fun w hw => .mapValue hw) (.mapValue pair.1) pair.2 cx
      refine hp.bind (hp.mapRejection _ hkey) fun _ _ => ?_
      exact hp.bind (hp.mapRejection _ hvalue) fun _ _ => hp.pure _
    · exact hmismatch _ _
  | function arity =>
    rw [OptionType.accept_function]
    split
    · split
      · exact hp.pure _
      · exact hp.reject _
    · exact hmismatch _ _
  | oneOf choices =>
    rw [OptionType.accept_oneOf]
    split
    · exact hp.pure _
    · exact hmismatch _ _
  | custom f args =>
    rw [OptionType.accept_custom]
    -- The event of the call and the verdict stay together: a fault has to be that of the last call.
    refine hp.bind (hcall f (v :: args)) fun returned hreturned => ?_
    exact hp.verdict f args v returned ht.self ⟨fuel, hreturned⟩ cx
  | union ts =>
    rw [OptionType.accept_union]
    refine hp.bind (hp.firstAccepted fun u hu => ?_) fun outcome _ => ?_
    · exact htype u (ht.part fun w hw => .alternative hu hw) label v cx
    · cases outcome with
      | ok accepted => exact hp.pure _
      | error es => exact hp.reject _
  | listOf u =>
    rw [OptionType.accept_listOf]
    split
    · refine hp.bind (hp.mapM fun item _ => ?_) fun _ _ => hp.pure _
      exact hp.mapRejection _ (htype u (ht.part fun w hw => .listElement hw) _ _ _)
    · exact hmismatch _ _
  | tupleOf ts =>
    rw [OptionType.accept_tupleOf]
    split
    · split
      · refine hp.bind (hp.mapM fun item hitem => ?_) fun _ _ => hp.pure _
        have hu : item.1.1 ∈ ts := (List.of_mem_zip (List.fst_mem_of_mem_zipIdx hitem)).1
        exact hp.mapRejection _ (htype _ (ht.part fun w hw => .tupleElement hu hw) _ _ _)
      · exact hmismatch _ _
    · exact hmismatch _ _
  | struct name =>
    rw [OptionType.accept_struct]
    split
    · split
      · exact hp.pure _
      · exact hmismatch _ _
    · exact hmismatch _ _

/-- The principle of induction on acceptance: types, schemas and calls are defined by one recursion,
so an invariant holds of them together. -/
theorem accept (hp : Acceptance.Invariant host entries types p) (fuel : Nat) :
    (∀ t : OptionType, t.Everywhere host entries types → ∀ label v cx,
      p Value (t.accept host fuel label v cx)) ∧
    (∀ s : Schema, s.Everywhere host entries types → ∀ v redact,
      p Value (s.accept host fuel v redact)) ∧
    ∀ f args, p Value (Function.call host fuel f args) := by
  induction fuel with
  | zero =>
    refine ⟨fun t _ label v cx => ?_, fun s _ v redact => ?_, fun f args => ?_⟩
    · rw [OptionType.accept_zero]
      exact hp.exhausted
    · rw [Schema.accept_zero]
      exact hp.exhausted
    · rw [Function.call_zero]
      exact hp.exhausted
  | succ fuel ih =>
    obtain ⟨htype, hschema, hcall⟩ := ih
    refine ⟨fun t ht label v cx => ?_, fun s hs v redact => ?_, fun f args => ?_⟩
    · exact hp.type_succ htype hschema hcall ht label v cx
    · exact hp.schema_succ htype hs v redact
    · exact hp.call_succ hschema f args

end Acceptance.Invariant

end Conform
