import Conform.Acceptance.Basic

namespace Conform

mutual

/-- Accepts a value by a type and gives its normal form. Types hold schemas, schemas may be
deferred, and the validator of types accepts schemas, so the depth of the recursion has no bound
that the input shows. A run that needs more than `fuel` is exhausted, which is no verdict. -/
def OptionType.accept (host : Host) (fuel : Nat) (t : OptionType) (label : Label) (v : Value)
    (cx : Context) : Run Value :=
  match fuel with
  | 0 => .fail .exhausted
  | fuel + 1 =>
    let nested (b : BasicType) (s : Schema) : Run Value :=
      match b.accept? v with
      | some v => (Schema.accept host fuel s v cx.redact).mapRejection (.under [cx.key])
      | none => cx.mismatch label v (.basic b)
    match t with
    | .basic b =>
      match b.accept? v with
      | some accepted => return accepted
      | none => cx.mismatch label v (.basic b)
    | .keywordListOf s => nested .keywordList s
    | .nonEmptyKeywordListOf s => nested .nonEmptyKeywordList s
    | .mapOfKeys s => nested .map s
    | .mapOf keyType valueType =>
      match v with
      | .map pairs => do
        let wrap : Run Value → Run Value := Run.mapRejection (cx.elementError .map label v)
        let accepted ← pairs.mapM fun (key, item) => do
          let key' ← wrap (OptionType.accept host fuel keyType .mapKey key cx)
          let item' ← wrap (OptionType.accept host fuel valueType (.mapValue key) item cx)
          return (key', item')
        return .map accepted
      | _ => cx.mismatch label v (.basic .map)
    | .function arity =>
      match v with
      | .function f =>
        if f.arity = arity then return v else cx.reject v (.arity label arity f.arity)
      | _ => cx.mismatch label v (.function arity)
    | .oneOf choices =>
      if choices.contains v then return v else cx.mismatch label v (.oneOf choices)
    | .custom validator args => do
      let returned ← Function.call host fuel validator (v :: args)
      Run.emit (.called validator (v :: args) returned)
      cx.verdict validator v returned
    | .union ts => do
      match ← Run.firstAccepted (fun t => OptionType.accept host fuel t label v cx) ts with
      | .ok accepted => return accepted
      | .error es => cx.reject v (.noAlternative label (es.map ValidationError.text))
    | .listOf t =>
      match v.asList? with
      | some items => do
        let accepted ← items.zipIdx.mapM fun (item, i) =>
          (OptionType.accept host fuel t (.listElement i) item cx).mapRejection
            (cx.elementError .list label v)
        return .list accepted
      | none => cx.mismatch label v .list
    | .tupleOf ts =>
      match v with
      | .tuple items =>
        if items.length = ts.length then do
          let accepted ← (ts.zip items).zipIdx.mapM fun ((t, item), i) =>
            (OptionType.accept host fuel t (.tupleElement i) item cx).mapRejection
              (cx.elementError .tuple label v)
          return .tuple accepted
        else cx.mismatch label v (.tuple ts.length)
      | _ => cx.mismatch label v (.tuple ts.length)
    | .struct name =>
      match v with
      | .struct tag _ => if tag = name then return v else cx.mismatch label v (.struct name)
      | _ => cx.mismatch label v (.struct name)

/-- Accepts options by a schema. Errors have paths that start at these options. -/
def Schema.accept (host : Host) (fuel : Nat) (s : Schema) (v : Value) (redact : Bool) : Run Value :=
  match fuel with
  | 0 => .fail .exhausted
  | fuel + 1 =>
    match Options.ofValue? v with
    | none => .reject ({ key := .root, reason := .notOptions v : ValidationError }.withValue v)
    | some options => do
      let es ← Run.ofOption (s.resolve? host fuel)
      options.accept (fun t label v cx => OptionType.accept host fuel t label v cx) redact es

def Function.call (host : Host) (fuel : Nat) (f : Function) (args : List Value) : Run Value :=
  match fuel with
  | 0 => .fail .exhausted
  | fuel + 1 =>
    match f.body with
    | .host id => return host.call id args
    | .dataForm d => return (host.schemaOf d).toValue
    | .typeCheck =>
      match args with
      | [] => return .error "validate_type called without a value"
      | v :: _ => do
        let judge data := (Schema.accept host fuel metaSchema data false).judged
        match ← (OptionType.read (Schema.checkNested judge) v).run with
        | .ok _ => return .ok v
        | .error e => return .error e.message

end

def Schema.judge (host : Host) (fuel : Nat) (data : Value) : Run (Option ValidationError) :=
  (metaSchema.accept host fuel data false).judged

end Conform
