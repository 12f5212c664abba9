import Conform.Acceptance
import Conform.Proofs.Schema.Levels

namespace Conform

namespace OptionType

attribute [local simp] accept

variable (host : Host) (fuel : Nat) (label : Label) (v : Value) (cx : Context)

theorem accept_zero (t : OptionType) : accept host 0 t label v cx = .fail .exhausted := by
  simp

theorem accept_basic (b : BasicType) :
    accept host (fuel + 1) (.basic b) label v cx =
      match b.accept? v with
      | some accepted => pure accepted
      | none => cx.mismatch label v (.basic b) := by
  refine (accept.eq_def ..).trans ?_
  rfl

theorem accept_container {t : OptionType} {b : BasicType} {s : Schema}
    (h : t.container? = some (b, s)) :
    accept host (fuel + 1) t label v cx =
      match b.accept? v with
      | some v => (Schema.accept host fuel s v cx.redact).mapRejection (.under [cx.key])
      | none => cx.mismatch label v (.basic b) := by
  cases t <;> simp only [container?, reduceCtorEq, Option.some.injEq, Prod.mk.injEq] at h
  all_goals
    obtain ⟨rfl, rfl⟩ := h
    refine (accept.eq_def ..).trans ?_
    rfl

theorem accept_mapOf (keyType valueType : OptionType) :
    accept host (fuel + 1) (.mapOf keyType valueType) label v cx =
      match v with
      | .map pairs => do
        let accepted ← pairs.mapM fun pair => do
          let key ← (accept host fuel keyType .mapKey pair.1 cx).mapRejection
            (cx.elementError .map label v)
          let item ← (accept host fuel valueType (.mapValue pair.1) pair.2 cx).mapRejection
            (cx.elementError .map label v)
          return (key, item)
        return .map accepted
      | _ => cx.mismatch label v (.basic .map) := by
  refine (accept.eq_def ..).trans ?_
  rfl

theorem accept_function (arity : Nat) :
    accept host (fuel + 1) (.function arity) label v cx =
      match v with
      | .function f => if f.arity = arity then pure v else cx.reject v (.arity label arity f.arity)
      | _ => cx.mismatch label v (.function arity) := by
  refine (accept.eq_def ..).trans ?_
  rfl

theorem accept_oneOf (choices : Choices) :
    accept host (fuel + 1) (.oneOf choices) label v cx =
      if choices.contains v then pure v else cx.mismatch label v (.oneOf choices) := by
  simp

theorem accept_custom (validator : Function) (args : List Value) :
    accept host (fuel + 1) (.custom validator args) label v cx = (do
      let returned ← Function.call host fuel validator (v :: args)
      Run.emit (.called validator (v :: args) returned)
      cx.verdict validator v returned) := by
  simp

theorem accept_union (ts : List OptionType) :
    accept host (fuel + 1) (.union ts) label v cx = (do
      match ← Run.firstAccepted (fun t => accept host fuel t label v cx) ts with
      | .ok accepted => return accepted
      | .error es => cx.reject v (.noAlternative label (es.map ValidationError.text))) := by
  refine (accept.eq_def ..).trans ?_
  rfl

theorem accept_listOf (t : OptionType) :
    accept host (fuel + 1) (.listOf t) label v cx =
      match v.asList? with
      | some items => do
        let accepted ← items.zipIdx.mapM fun item =>
          (accept host fuel t (.listElement item.2) item.1 cx).mapRejection
            (cx.elementError .list label v)
        return .list accepted
      | none => cx.mismatch label v .list := by
  refine (accept.eq_def ..).trans ?_
  rfl

theorem accept_tupleOf (ts : List OptionType) :
    accept host (fuel + 1) (.tupleOf ts) label v cx =
      match v with
      | .tuple items =>
        if items.length = ts.length then do
          let accepted ← (ts.zip items).zipIdx.mapM fun item =>
            (accept host fuel item.1.1 (.tupleElement item.2) item.1.2 cx).mapRejection
              (cx.elementError .tuple label v)
          return .tuple accepted
        else cx.mismatch label v (.tuple ts.length)
      | _ => cx.mismatch label v (.tuple ts.length) := by
  refine (accept.eq_def ..).trans ?_
  rfl

theorem accept_struct (name : String) :
    accept host (fuel + 1) (.struct name) label v cx =
      match v with
      | .struct tag _ => if tag = name then pure v else cx.mismatch label v (.struct name)
      | _ => cx.mismatch label v (.struct name) := by
  refine (accept.eq_def ..).trans ?_
  rfl

end OptionType

theorem Schema.accept_zero (host : Host) (s : Schema) (v : Value) (redact : Bool) :
    accept host 0 s v redact = .fail .exhausted := by
  rw [accept]

theorem Schema.accept_succ (host : Host) (fuel : Nat) (s : Schema) (v : Value) (redact : Bool) :
    accept host (fuel + 1) s v redact =
      match Options.ofValue? v with
      | none => .reject (ValidationError.withValue { key := .root, reason := .notOptions v } v)
      | some o =>
        Run.ofOption (s.resolve? host fuel) >>= fun es =>
          o.accept (OptionType.accept host fuel) redact es := by
  refine (accept.eq_def ..).trans ?_
  rfl

/-- A function that needs no argument stands for a schema that is not looked at. -/
def Value.isProducer : Value → Bool
  | .function f => f.arity == 0
  | _ => false

theorem Schema.checkNested_of_producer {judge : Value → Run (Option ValidationError)} {v : Value}
    (h : v.isProducer = true) : (checkNested judge v).run = pure (.ok .empty) := by
  cases v with
  | function f =>
    have harity : f.arity = 0 := by simpa [Value.isProducer] using h
    simp [checkNested, harity]
  | _ => simp [Value.isProducer] at h

def Schema.nestedOutcome : Option ValidationError → Except ReadError Schema
  | none => .ok .empty
  | some e => .error (.rejected e.text)

theorem Schema.checkNested_of_data {judge : Value → Run (Option ValidationError)} {v : Value}
    (h : v.isProducer = false) : (checkNested judge v).run = nestedOutcome <$> judge v := by
  have hbody : checkNested judge v = (do
      match ← (liftM (judge v) : ExceptT ReadError Run (Option ValidationError)) with
      | none => return .empty
      | some e => throw (.rejected e.text)) := by
    cases v with
    | function f =>
      have harity : ¬f.arity = 0 := by simpa [Value.isProducer] using h
      exact if_neg harity
    | _ => rfl
  have hlift : (liftM (judge v) : ExceptT ReadError Run (Option ValidationError)).run =
      Except.ok <$> judge v := rfl
  rw [hbody, ExceptT.run_bind, hlift, bind_map_left, map_eq_pure_bind]
  refine congrArg _ (funext fun e? => ?_)
  cases e? <;> rfl

def OptionType.checkAnswer (v : Value) : Except ReadError OptionType → Value
  | .ok _ => .ok v
  | .error e => .error e.message

theorem Function.call_zero (host : Host) (f : Function) (args : List Value) :
    call host 0 f args = .fail .exhausted := by
  rw [call.eq_def]

theorem Function.call_succ (host : Host) (fuel : Nat) (f : Function) (args : List Value) :
    call host (fuel + 1) f args =
      match f.body with
      | .host id => pure (host.call id args)
      | .dataForm d => pure (host.schemaOf d).toValue
      | .typeCheck =>
        match args with
        | [] => pure (.error "validate_type called without a value")
        | v :: _ =>
          OptionType.checkAnswer v <$>
            (OptionType.read (Schema.checkNested (Schema.judge host fuel)) v).run := by
  rw [call.eq_def]
  obtain ⟨name, arity, body⟩ := f
  cases body with
  | host id => rfl
  | dataForm d => rfl
  | typeCheck =>
    cases args with
    | nil => rfl
    | cons v rest =>
      dsimp only
      rw [map_eq_pure_bind]
      refine congrArg _ (funext fun outcome => ?_)
      cases outcome <;> rfl

end Conform
