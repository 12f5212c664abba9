import Conform.Proofs.Acceptance.Descent
import Conform.Proofs.Acceptance.Exactness

namespace Conform

open Run

namespace Reason

/-- A reason to reject a value for itself. -/
def Own : Reason → Prop
  | .mismatch .. | .arity .. | .stated _ | .noAlternative .. => True
  | _ => False

/-- The reason as the containers around a value tell it, the outermost of them first. -/
def within (r : Reason) : List (Container × Label) → Reason
  | [] => r
  | (container, label) :: inner => .element container label (r.within inner)

end Reason

namespace Context

variable {cx : Context} {v : Value} {e : ValidationError}

theorem reject_eq_invalid {reason : Reason} :
    (cx.reject v reason).result = .error (.invalid e) ↔ cx.error v reason = e := by
  simp [reject]

theorem error_eq (reason : Reason) : cx.error v reason =
    { key := .single cx.key
      reason
      value? := some (if cx.redact then redactedValue else v)
      redact := cx.redact } := by
  rw [error, ValidationError.withValue_eq, ValidationError.redacted_eq]
  cases cx.redact <;> rfl

@[simp] theorem reason_error (reason : Reason) : (cx.error v reason).reason = reason := by
  rw [error_eq]

@[simp] theorem keysPath_error (reason : Reason) : (cx.error v reason).keysPath = [] := by
  rw [error_eq]

theorem elementError_of_direct {container : Container} {label : Label} (h : e.keysPath = []) :
    cx.elementError container label v e = cx.error v (.element container label e.reason) :=
  if_pos (by simp [h])

theorem elementError_of_nested {container : Container} {label : Label} (h : e.keysPath ≠ []) :
    cx.elementError container label v e = e :=
  if_neg (by simp [h])

end Context

theorem Function.call_ne_invalid {host : Host} {fuel : Nat} {f : Function} {args : List Value}
    {e : ValidationError} : (f.call host fuel args).result ≠ .error (.invalid e) :=
  fun h => ((accept_decides host fuel).2.2 f args).of_error h trivial

namespace OptionType

/-- A value of the first type has an element, which is to be of the second type, and to which
errors refer by the label. -/
inductive Element : OptionType → Value → Container → OptionType → Label → Value → Prop where
  | list {t v items i item} : v.asList? = some items → items[i]? = some item →
      Element (.listOf t) v .list t (.listElement i) item
  | tuple {ts items i t item} : items.length = ts.length → ts[i]? = some t →
      items[i]? = some item → Element (.tupleOf ts) (.tuple items) .tuple t (.tupleElement i) item
  | mapKey {key value pairs p} : p ∈ pairs →
      Element (.mapOf key value) (.map pairs) .map key .mapKey p.1
  | mapValue {key value pairs p} : p ∈ pairs →
      Element (.mapOf key value) (.map pairs) .map value (.mapValue p.1) p.2

/-- Elements of elements, with the containers passed on the way to them. -/
inductive Descends : OptionType → Label → Value → List (Container × Label) →
    OptionType → Label → Value → Prop where
  | here {t label v} : Descends t label v [] t label v
  | element {t label v container t' label' v' steps u inner w} :
      Element t v container t' label' v' → Descends t' label' v' steps u inner w →
      Descends t label v ((container, label) :: steps) u inner w

/-- How an error of a value comes about. -/
inductive Arises (host : Host) (cx : Context) : OptionType → Label → Value → ValidationError →
    Prop where
  | own {t label v reason fuel} : reason.Own →
      (t.accept host fuel label v cx).result = .error (.invalid (cx.error v reason)) →
      Arises host cx t label v (cx.error v reason)
  | options {t label v b s fuel inner} : t.container? = some (b, s) → b.Member v →
      (s.accept host fuel v cx.redact).result = .error (.invalid inner) →
      Arises host cx t label v (inner.under [cx.key])
  | element {t label v container t' label' v' inner} : Element t v container t' label' v' →
      Arises host cx t' label' v' inner →
      Arises host cx t label v (cx.elementError container label v inner)

variable {host : Host} {fuel : Nat} {cx : Context} {t : OptionType} {label : Label} {v : Value}
  {e : ValidationError}

theorem Arises.of_own {reason : Reason}
    (h : (t.accept host fuel label v cx).result = .error (.invalid e))
    (hreject : (cx.reject v reason).result = .error (.invalid e)) (hown : reason.Own) :
    Arises host cx t label v e := by
  obtain rfl := Context.reject_eq_invalid.1 hreject
  exact .own hown h

theorem Arises.of_mismatch {expected : Expectation}
    (h : (t.accept host fuel label v cx).result = .error (.invalid e))
    (hreject : (cx.mismatch label v expected).result = .error (.invalid e)) :
    Arises host cx t label v e :=
  .of_own h hreject trivial

theorem Arises.of_element {container : Container} {r : Run Value} {t' : OptionType} {label' : Label}
    {v' : Value} (helement : Element t v container t' label' v')
    (hr : ∀ e, r.result = .error (.invalid e) → Arises host cx t' label' v' e)
    (h : (r.mapRejection (cx.elementError container label v)).result = .error (.invalid e)) :
    Arises host cx t label v e := by
  obtain ⟨inner, hinner, rfl⟩ := mapRejection_eq_invalid.1 h
  exact .element helement (hr inner hinner)

theorem Arises.of_container {b : BasicType} {s : Schema} (ht : t.container? = some (b, s))
    (h : (t.accept host (fuel + 1) label v cx).result = .error (.invalid e)) :
    Arises host cx t label v e := by
  have hself := h
  rw [accept_container _ _ _ _ _ ht] at h
  split at h
  next options hitem =>
    obtain ⟨inner, hinner, rfl⟩ := mapRejection_eq_invalid.1 h
    rw [accept_options ht hitem] at hinner
    exact .options ht (BasicType.accept?_isSome.1 (by simp [hitem])) hinner
  next => exact .of_mismatch hself h

theorem arises_of_accept (h : (t.accept host fuel label v cx).result = .error (.invalid e)) :
    Arises host cx t label v e := by
  induction fuel generalizing t label v e with
  | zero =>
    rw [accept_zero] at h
    cases h
  | succ fuel ih =>
    have hself := h
    cases t with
    | basic b =>
      rw [accept_basic] at h
      split at h
      · cases h
      · exact .of_mismatch hself h
    | keywordListOf s | nonEmptyKeywordListOf s | mapOfKeys s => exact .of_container rfl h
    | mapOf keyType valueType =>
      rw [accept_mapOf] at h
      split at h
      next pairs =>
        rw [bind_pure_comp, map_eq_error] at h
        obtain ⟨pair, hpair, h⟩ := exists_error_of_mapM h
        rcases bind_eq_error.1 h with h | ⟨key, -, h⟩
        · exact .of_element (.mapKey hpair) (fun _ => ih) h
        · rw [bind_pure_comp, map_eq_error] at h
          exact .of_element (.mapValue hpair) (fun _ => ih) h
      next => exact .of_mismatch hself h
    | function arity =>
      rw [accept_function] at h
      split at h
      · split at h
        · cases h
        · exact .of_own hself h trivial
      · exact .of_mismatch hself h
    | oneOf choices =>
      rw [accept_oneOf] at h
      split at h
      · cases h
      · exact .of_mismatch hself h
    | custom f args =>
      rw [accept_custom] at h
      rcases bind_eq_error.1 h with h | ⟨returned, -, h⟩
      · exact absurd h Function.call_ne_invalid
      · rw [result_bind, result_emit] at h
        change (cx.verdict f v returned).result = _ at h
        unfold Context.verdict at h
        split at h
        · cases h
        · exact .of_own hself h trivial
        · cases h
    | union ts =>
      -- The errors of the alternatives end here: they are texts in the reason.
      rw [accept_union] at h
      rcases bind_eq_error.1 h with h | ⟨outcome, -, h⟩
      · exact absurd rfl ((firstAccepted_eq_error h).1 e)
      · cases outcome with
        | ok accepted => cases h
        | error es => exact .of_own hself h trivial
    | listOf u =>
      rw [accept_listOf] at h
      split at h
      next items hitems =>
        rw [bind_pure_comp, map_eq_error] at h
        obtain ⟨item, hitem, h⟩ := exists_error_of_mapM h
        rw [List.mem_zipIdx_iff_getElem?] at hitem
        exact .of_element (.list hitems hitem) (fun _ => ih) h
      next => exact .of_mismatch hself h
    | tupleOf ts =>
      rw [accept_tupleOf] at h
      split at h
      next items =>
        split at h
        next hlength =>
          rw [bind_pure_comp, map_eq_error] at h
          obtain ⟨item, hitem, h⟩ := exists_error_of_mapM h
          rw [List.mem_zipIdx_iff_getElem?, List.getElem?_zip_eq_some] at hitem
          exact .of_element (.tuple hlength hitem.1 hitem.2) (fun _ => ih) h
        next => exact .of_mismatch hself h
      next => exact .of_mismatch hself h
    | struct name =>
      rw [accept_struct] at h
      split at h
      · split at h
        · cases h
        · exact .of_mismatch hself h
      · exact .of_mismatch hself h

theorem Element.reaches {container : Container} {t' : OptionType} {label' : Label} {v' : Value}
    (h : Element t v container t' label' v') {unions : Prop} {u : OptionType} {w : Value}
    (hreaches : Reaches unions t' v' u w) : Reaches unions t v u w := by
  cases h with
  | list hitems hitem => exact .listElement hitems (List.mem_of_getElem? hitem) hreaches
  | @tuple ts items i _ _ _ ht hitem =>
    have hpair : (ts.zip items)[i]? = some (t', v') := List.getElem?_zip_eq_some.2 ⟨ht, hitem⟩
    exact .tupleElement (List.mem_of_getElem? hpair) hreaches
  | mapKey hp => exact .mapKey hp hreaches
  | mapValue hp => exact .mapValue hp hreaches

theorem Descends.reaches {steps : List (Container × Label)} {u : OptionType} {inner : Label}
    {w : Value} (h : Descends t label v steps u inner w) (unions : Prop) :
    Reaches unions t v u w := by
  induction h with
  | here => exact .here
  | element helement _ ih => exact helement.reaches ih

/-- The error is that of options inside the value, which a schema has rejected. All of it is as the
schema has it, but that the key of the context stands before its path. -/
def Nested (host : Host) (cx : Context) (u : OptionType) (w : Value) (e : ValidationError) : Prop :=
  ∃ b s fuel inner, u.container? = some (b, s) ∧ b.Member w ∧
    (s.accept host fuel w cx.redact).result = .error (.invalid inner) ∧
    e = { inner with keysPath := cx.key :: inner.keysPath }

theorem Nested.keysPath_ne_nil {u : OptionType} {w : Value} (h : u.Nested host cx w e) :
    e.keysPath ≠ [] := by
  obtain ⟨_, _, _, _, _, _, _, rfl⟩ := h
  exact List.cons_ne_nil _ _

/-- Down the way from a value to the place where its error arises, either every container adds to
the reason, or none changes anything. -/
theorem Arises.along (h : Arises host cx t label v e) :
    ∃ steps u inner w, t.Descends label v steps u inner w ∧
      ((∃ reason fuel', reason.Own ∧
          (u.accept host fuel' inner w cx).result = .error (.invalid (cx.error w reason)) ∧
          e = cx.error v (reason.within steps)) ∨
        u.Nested host cx w e) := by
  induction h with
  | own hown h => exact ⟨[], _, _, _, .here, .inl ⟨_, _, hown, h, rfl⟩⟩
  | options ht hv h => exact ⟨[], _, _, _, .here, .inr ⟨_, _, _, _, ht, hv, h, rfl⟩⟩
  | element helement _ ih =>
    obtain ⟨steps, u, inner, w, hdescends, ⟨reason, fuel', hown, h, rfl⟩ | hnested⟩ := ih
    · refine ⟨_, u, inner, w, .element helement hdescends, .inl ⟨reason, fuel', hown, h, ?_⟩⟩
      rw [Context.elementError_of_direct (Context.keysPath_error _), Context.reason_error]
      rfl
    · refine ⟨_, u, inner, w, .element helement hdescends, .inr ?_⟩
      rwa [Context.elementError_of_nested hnested.keysPath_ne_nil]

end OptionType

/-- The error is about the value that was matched: it has no path, its key is that of the context,
and it carries the value itself, or the placeholder for it. -/
structure ValidationError.Direct (cx : Context) (v : Value) (e : ValidationError) : Prop where
  keysPath : e.keysPath = []
  key : e.key = .single cx.key
  value : e.value? = some (if cx.redact then redactedValue else v)

theorem ValidationError.direct_error (cx : Context) (v : Value) (reason : Reason) :
    (cx.error v reason).Direct cx v := by
  rw [Context.error_eq]
  exact ⟨rfl, rfl, rfl⟩

/-- An error of a type is about the value itself or about options inside it. In both cases it arises
at the end of a way down through lists, tuples and maps. If it is about the value, all containers on
this way have told it anew, and so will any other; if it is about options, its path starts with the
key of the context, and no container has changed or will change anything. -/
theorem OptionType.direct_or_nested {host : Host} {fuel : Nat} {t : OptionType} {label : Label}
    {v : Value} {cx : Context} {e : ValidationError}
    (h : (t.accept host fuel label v cx).result = .error (.invalid e)) :
    ∃ steps u inner w, t.Descends label v steps u inner w ∧
      (e.Direct cx v ∧
        (∃ reason fuel', reason.Own ∧
          (u.accept host fuel' inner w cx).result = .error (.invalid (cx.error w reason)) ∧
          e.reason = reason.within steps) ∧
        (∀ container label' c, cx.elementError container label' c e =
          cx.error c (.element container label' e.reason)) ∨
      u.Nested host cx w e ∧ ∀ container label' c, cx.elementError container label' c e = e) := by
  obtain ⟨steps, u, inner, w, hdescends, ⟨reason, fuel', hown, hw, rfl⟩ | hnested⟩ :=
    (arises_of_accept h).along
  · have hdirect := ValidationError.direct_error cx v (reason.within steps)
    refine ⟨steps, u, inner, w, hdescends, .inl ⟨hdirect, ⟨reason, fuel', hown, hw, ?_⟩, ?_⟩⟩
    · exact Context.reason_error _
    · exact fun _ _ _ => Context.elementError_of_direct hdirect.keysPath
  · refine ⟨steps, u, inner, w, hdescends, .inr ⟨hnested, fun _ _ _ => ?_⟩⟩
    exact Context.elementError_of_nested hnested.keysPath_ne_nil

/-- Named hosts, each with options of its own, which are produced when they are needed. -/
def hostsType : OptionType :=
  .listOf (.tupleOf [.basic .string, .keywordListOf (.deferred ⟨.function "host", 0⟩)])

def hostsHost : Host where
  call _ _ := .nil
  produce _ := .entries [⟨.atom "port", .ofType (.listOf (.basic .integer))⟩]

def acceptHosts (hosts : List Value) : Run Value :=
  hostsType.accept hostsHost 6 (.option (.atom "hosts")) (.list hosts) ⟨.atom "hosts", false⟩

/-- The second host has no name. The port of another one is no list: that error has the path to it
and knows nothing of the list and the tuple around. -/
theorem hostsType_origins :
    (∃ e, (acceptHosts [.tuple [.string "a", .list []], .tuple [.nil, .list []]]).result =
        .error (.invalid e) ∧
      e.Direct ⟨.atom "hosts", false⟩
        (.list [.tuple [.string "a", .list []], .tuple [.nil, .list []]]) ∧
      e.reason = .element .list (.option (.atom "hosts")) (.element .tuple (.listElement 1)
        (.mismatch (.tupleElement 0) (.basic .string) (some .nil)))) ∧
    ∃ e, (acceptHosts [.tuple [.string "a", .keyword [("port", .list [.nil])]]]).result =
        .error (.invalid e) ∧
      e.key = .single (.atom "port") ∧ e.keysPath = [.atom "hosts"] ∧
      ∃ u w, OptionType.Nested hostsHost ⟨.atom "hosts", false⟩ u w e := by
  constructor
  · have hresult : (acceptHosts [.tuple [.string "a", .list []], .tuple [.nil, .list []]]).result =
        .error (.invalid {
          key := .single (.atom "hosts")
          reason := .element .list (.option (.atom "hosts")) (.element .tuple (.listElement 1)
            (.mismatch (.tupleElement 0) (.basic .string) (some .nil)))
          value? := some (.list [.tuple [.string "a", .list []], .tuple [.nil, .list []]]) }) := by
      with_unfolding_all rfl
    refine ⟨_, hresult, ?_, rfl⟩
    obtain ⟨_, _, _, _, _, ⟨hdirect, -⟩ | ⟨hnested, -⟩⟩ := OptionType.direct_or_nested hresult
    · exact hdirect
    · exact absurd rfl hnested.keysPath_ne_nil
  · have hresult :
        (acceptHosts [.tuple [.string "a", .keyword [("port", .list [.nil])]]]).result =
          .error (.invalid {
            key := .single (.atom "port")
            keysPath := [.atom "hosts"]
            reason := .element .list (.option (.atom "port"))
              (.mismatch (.listElement 0) (.basic .integer) (some .nil))
            value? := some (.list [.nil]) }) := by
      with_unfolding_all rfl
    refine ⟨_, hresult, rfl, rfl, ?_⟩
    obtain ⟨_, u, _, w, _, ⟨hdirect, -⟩ | ⟨hnested, -⟩⟩ := OptionType.direct_or_nested hresult
    · cases hdirect.keysPath
    · exact ⟨u, w, hnested⟩

end Conform
