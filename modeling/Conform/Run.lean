import Conform.Error

namespace Conform

/-- What happens during a run, in the order of occurrence. -/
inductive Event where
  /-- A deprecated option is present. -/
  | deprecated (key : Value) (text : String)
  /-- A validator is called. -/
  | called (validator : Function) (args : List Value) (returned : Value)
  /-- A value is not the data form of a schema. -/
  | schemaRejected (error : ValidationError)
  /-- A schema with this many entries is compiled. -/
  | schemaCompiled (size : Nat)

def Event.message : Event → String
  | .deprecated key text => (Label.option key).text ++ " is deprecated. " ++ text
  | .called validator _ _ => "called " ++ validator.reference
  | .schemaRejected _ => "schema rejected by meta-schema"
  | .schemaCompiled _ => "compiled schema"

inductive Failure where
  | invalid (error : ValidationError)
  | fault (fault : ContractFault)
  /-- The depth allowed for the run does not suffice. -/
  | exhausted

structure Run (α : Type) where
  events : List Event
  result : Except Failure α

namespace Run

variable {α β : Type}

def andThen (r : Run α) (f : α → Run β) : Run β :=
  match r.result with
  | .ok a => ⟨r.events ++ (f a).events, (f a).result⟩
  | .error e => ⟨r.events, .error e⟩

instance : Monad Run where
  pure a := ⟨[], .ok a⟩
  bind := andThen

def fail (e : Failure) : Run α :=
  ⟨[], .error e⟩

def reject (e : ValidationError) : Run α :=
  fail (.invalid e)

def emit (e : Event) : Run Unit :=
  ⟨[e], .ok ()⟩

/-- The value, or the end of a run that was not allowed enough depth to find it. -/
def ofOption (a? : Option α) : Run α :=
  match a? with
  | some a => pure a
  | none => fail .exhausted

/-- Turns a rejection into a result. Other failures remain. -/
def attempt (r : Run α) : Run (Except ValidationError α) :=
  match r.result with
  | .ok a => ⟨r.events, .ok (.ok a)⟩
  | .error (.invalid e) => ⟨r.events, .ok (.error e)⟩
  | .error e => ⟨r.events, .error e⟩

def mapRejection (f : ValidationError → ValidationError) (r : Run α) : Run α :=
  match r.result with
  | .error (.invalid e) => ⟨r.events, .error (.invalid (f e))⟩
  | _ => r

/-- The first success, or the errors of all rejections. -/
def firstAccepted (f : α → Run β) : List α → Run (Except (List ValidationError) β)
  | [] => return .error []
  | a :: rest => do
    match ← attempt (f a) with
    | .ok b => return .ok b
    | .error e => do
      match ← firstAccepted f rest with
      | .ok b => return .ok b
      | .error es => return .error (e :: es)

theorem id_map (r : Run α) : id <$> r = r := by
  rcases r with ⟨events, _ | a⟩
  · rfl
  · simp [Functor.map, andThen]

theorem pure_bind (a : α) (f : α → Run β) : pure a >>= f = f a := by
  simp [bind, pure, andThen]

theorem bind_assoc {γ : Type} (r : Run α) (f : α → Run β) (g : β → Run γ) :
    r >>= f >>= g = r >>= fun a => f a >>= g := by
  rcases r with ⟨events, _ | a⟩
  · rfl
  · simp only [bind, andThen]
    cases (f a).result <;> simp [List.append_assoc]

instance : LawfulMonad Run :=
  LawfulMonad.mk' Run id_map pure_bind bind_assoc

end Run

end Conform
