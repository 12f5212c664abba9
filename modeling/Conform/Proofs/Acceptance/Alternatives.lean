import Conform.Proofs.Acceptance.Rejection
import Conform.Proofs.Acceptance.Silence
import Conform.Proofs.Text.Items

namespace Conform

open Run

namespace Run

variable {α β : Type} {f : α → Run β}

theorem firstAccepted_of_rejections {as : List α} {es : List ValidationError}
    (h : List.Forall₂ (fun a e => (f a).result = .error (.invalid e)) as es) :
    (firstAccepted f as).result = .ok (.error es) := by
  induction h with
  | nil => rfl
  | @cons a e as es ha _ ih =>
    unfold firstAccepted
    have hattempt : (attempt (f a)).result = .ok (.error e) := attempt_eq_ok.2 ha
    exact bind_eq_ok.2 ⟨_, hattempt, bind_eq_ok.2 ⟨_, ih, rfl⟩⟩

/-- The first success ends the search. What was tried before it was rejected, and its events come
first. -/
theorem exists_of_firstAccepted {as : List α} {b : β}
    (h : (firstAccepted f as).result = .ok (.ok b)) :
    ∃ before a after, as = before ++ a :: after ∧
      (∀ x ∈ before, ∃ e, (f x).result = .error (.invalid e)) ∧ (f a).result = .ok b ∧
      (firstAccepted f as).events = before.flatMap (fun x => (f x).events) ++ (f a).events := by
  induction as with
  | nil => cases h
  | cons x as ih =>
    unfold firstAccepted at h ⊢
    obtain ⟨tried, htried, h⟩ := bind_eq_ok.1 h
    rw [bind_of_ok htried]
    have hx := attempt_eq_ok.1 htried
    have hevents : (attempt (f x)).events = (f x).events := by
      unfold attempt
      split <;> rfl
    cases tried with
    | ok b' =>
      cases h
      exact ⟨[], x, as, rfl, by simp, hx, by simp [hevents, pure]⟩
    | error e =>
      obtain ⟨later, hlater, h⟩ := bind_eq_ok.1 h
      cases later with
      | error es => cases h
      | ok b' =>
        cases h
        obtain ⟨before, a, after, rfl, hbefore, ha, hrest⟩ := ih hlater
        refine ⟨x :: before, a, after, rfl, ?_, ha, ?_⟩
        · exact List.forall_mem_cons.2 ⟨⟨e, hx⟩, hbefore⟩
        · dsimp only
          rw [bind_of_ok hlater]
          simp [hevents, hrest, pure]

end Run

def Label.unmatched (label : Label) : String :=
  "expected " ++ label.text ++ " to match at least one given type, but didn't match any. " ++
    "Here are the reasons why it didn't match each of the allowed types:\n\n"

theorem Reason.message_noAlternative (label : Label) (errors : List String) :
    (noAlternative label errors).message = label.unmatched ++ Text.bullets errors.reverse := by
  rw [message.eq_def]
  rfl

namespace OptionType

variable {host : Host} {fuel : Nat} {label : Label} {v : Value} {cx : Context}
  {ts : List OptionType}

theorem accept_union_of_rejections {es : List ValidationError}
    (h : List.Forall₂ (fun t e => (accept host fuel t label v cx).result = .error (.invalid e))
      ts es) :
    (accept host (fuel + 1) (.union ts) label v cx).result =
      .error (.invalid (cx.error v (.noAlternative label (es.map ValidationError.text)))) := by
  rw [accept_union, result_bind, firstAccepted_of_rejections h]
  rfl

/-- The message of a union that no alternative matches can be read back. After the header it has one
item for each alternative, and from the last item to the first these are the lines of the texts of
the errors. -/
theorem items_of_union (hts : ts ≠ []) {es : List ValidationError}
    (h : List.Forall₂ (fun t e => (accept host fuel t label v cx).result = .error (.invalid e))
      ts es) :
    ∃ e body, (accept host (fuel + 1) (.union ts) label v cx).result = .error (.invalid e) ∧
      e.message = label.unmatched ++ body ∧
      (Text.items body.toList).length = ts.length ∧
      (Text.items body.toList).reverse = es.map fun e => Text.itemLines e.text := by
  have hlength : es.length = ts.length := h.length_eq.symm
  have hne : (es.map ValidationError.text).reverse ≠ [] := by
    intro hnil
    have hzero := congrArg List.length hnil
    simp only [List.length_reverse, List.length_map, List.length_nil] at hzero
    exact hts (List.length_eq_zero_iff.1 (by omega))
  have hitems := Text.items_bullets hne
  refine ⟨_, Text.bullets (es.map ValidationError.text).reverse, accept_union_of_rejections h,
    ?_, ?_, ?_⟩
  · rw [Context.error_eq]
    exact Reason.message_noAlternative _ _
  · rw [hitems]
    simp [hlength]
  · rw [hitems, ← List.map_reverse, List.reverse_reverse, List.map_map]
    rfl

end OptionType

/-- A calling program with one validator, which answers every value by several lines. The second of
them looks like an item. -/
def essayHost : Host where
  call _ _ := .error "too short:\n  * no title\n\nno end\n"
  produce _ := .empty

def essayType : OptionType := .custom ⟨"essay", 1, .host "essay"⟩ []

/-- The union inside is an alternative whose reason is a list of items of its own. -/
def essayTypes : List OptionType :=
  [.basic .integer, .union [essayType, .basic .nil], essayType]

def acceptEssay (fuel : Nat) (t : OptionType) : Run Value :=
  t.accept essayHost fuel (.option (.atom "essay")) (.string "x") ⟨.atom "essay", false⟩

def essayError (reason : Reason) : ValidationError :=
  Context.error ⟨.atom "essay", false⟩ (.string "x") reason

theorem essayTypes_items :
    ∃ es : List ValidationError,
      List.Forall₂ (fun t e => (acceptEssay 10 t).result = .error (.invalid e)) essayTypes es ∧
      ∃ e body, (acceptEssay 11 (.union essayTypes)).result = .error (.invalid e) ∧
        e.message = (Label.option (.atom "essay")).unmatched ++ body ∧
        (Text.items body.toList).length = essayTypes.length ∧
        (Text.items body.toList).reverse = es.map fun e => Text.itemLines e.text := by
  have hinteger : (acceptEssay 10 (.basic .integer)).result = .error (.invalid (essayError
      (.mismatch (.option (.atom "essay")) (.basic .integer) (some (.string "x"))))) := by
    with_unfolding_all rfl
  have hnil : (acceptEssay 9 (.basic .nil)).result = .error (.invalid (essayError
      (.mismatch (.option (.atom "essay")) (.basic .nil) (some (.string "x"))))) := by
    with_unfolding_all rfl
  have hessay : ∀ fuel, (acceptEssay (fuel + 2) essayType).result = .error (.invalid (essayError
      (.stated "too short:\n  * no title\n\nno end\n"))) := by
    intro fuel
    with_unfolding_all rfl
  obtain ⟨inner, hinner⟩ : ∃ inner, (acceptEssay 10 (.union [essayType, .basic .nil])).result =
      .error (.invalid inner) :=
    ⟨_, OptionType.accept_union_of_rejections (.cons (hessay 7) (.cons hnil .nil))⟩
  have h : List.Forall₂ (fun t e => (acceptEssay 10 t).result = .error (.invalid e)) essayTypes _ :=
    .cons hinteger (.cons hinner (.cons (hessay 8) .nil))
  exact ⟨_, h, OptionType.items_of_union (List.cons_ne_nil _ _) h⟩

namespace OptionType

/-- The first alternative that accepts the value ends the union. Its events come last, after those
of the alternatives before it, each of which was tried and rejected; what comes after it is not
tried. So the reports of deprecated options are its own if nothing is deprecated in those before. -/
theorem events_of_union {w : Value}
    (h : (accept host (fuel + 1) (.union ts) label v cx).result = .ok w) :
    ∃ before t after, ts = before ++ t :: after ∧
      (∀ u ∈ before, ∃ e, (accept host fuel u label v cx).result = .error (.invalid e)) ∧
      (accept host fuel t label v cx).result = .ok w ∧
      (accept host (fuel + 1) (.union ts) label v cx).events =
        before.flatMap (fun u => (accept host fuel u label v cx).events) ++
          (accept host fuel t label v cx).events ∧
      ((∀ u ∈ before, u.Undeprecated host) →
        (accept host (fuel + 1) (.union ts) label v cx).deprecations =
          (accept host fuel t label v cx).deprecations) := by
  rw [accept_union] at h ⊢
  obtain ⟨outcome, houtcome, h⟩ := bind_eq_ok.1 h
  cases outcome with
  | error es => cases h
  | ok accepted =>
    cases h
    obtain ⟨before, t, after, hts, hbefore, ht, hevents⟩ := exists_of_firstAccepted houtcome
    have hunion : ∀ f : Except (List ValidationError) Value → Run Value, f (.ok w) = pure w →
        (firstAccepted (fun t => accept host fuel t label v cx) ts >>= f).events =
          before.flatMap (fun u => (accept host fuel u label v cx).events) ++
            (accept host fuel t label v cx).events := by
      intro f hf
      rw [bind_of_ok houtcome, hf, hevents]
      exact List.append_nil _
    refine ⟨before, t, after, hts, hbefore, ht, hunion _ rfl, fun hquiet => ?_⟩
    have hnone : (before.flatMap fun u => (accept host fuel u label v cx).deprecations) = [] :=
      List.flatMap_eq_nil_iff.2 fun u hu => quiet_accept (hquiet u hu) fuel label v cx
    unfold deprecations at hnone ⊢
    rw [hunion _ rfl, List.filter_append, List.filter_flatMap, hnone, List.nil_append]

end OptionType

/-- Limits have a name that is deprecated and one that is required. -/
def limitsType : OptionType :=
  .keywordListOf (.entries [
    ⟨.atom "old", { type := .basic .integer, deprecation? := some "use :new instead" }⟩,
    ⟨.atom "new", { type := .basic .integer, required := true }⟩])

def acceptLimits (fuel : Nat) (t : OptionType) (v : Value) : Run Value :=
  t.accept .bare fuel (.option (.atom "limits")) v ⟨.atom "limits", false⟩

theorem limitsType_events :
    let v : Value := .keyword [("old", .integer 1), ("new", .integer 2)]
    let ts : List OptionType := [.basic .integer, limitsType]
    (acceptLimits 11 (.union ts) v).result = .ok v ∧
    ∃ before t after, ts = before ++ t :: after ∧
      (∀ u ∈ before, ∃ e, (acceptLimits 10 u v).result = .error (.invalid e)) ∧
      (acceptLimits 10 t v).result = .ok v ∧
      (acceptLimits 11 (.union ts) v).events =
        before.flatMap (fun u => (acceptLimits 10 u v).events) ++ (acceptLimits 10 t v).events ∧
      ((∀ u ∈ before, u.Undeprecated .bare) →
        (acceptLimits 11 (.union ts) v).deprecations = (acceptLimits 10 t v).deprecations) := by
  have h : (acceptLimits 11 (.union [.basic .integer, limitsType])
      (.keyword [("old", .integer 1), ("new", .integer 2)])).result =
      .ok (.keyword [("old", .integer 1), ("new", .integer 2)]) := by
    with_unfolding_all rfl
  exact ⟨h, OptionType.events_of_union h⟩

/-- Limits without the required name are rejected, and any value is accepted after that. But the
report of the deprecated name remains. -/
theorem limitsType_reports :
    (acceptLimits 11 (.union [limitsType, .basic .any]) (.keyword [("old", .integer 1)])).result =
      .ok (.keyword [("old", .integer 1)]) ∧
    (∃ e, (acceptLimits 10 limitsType (.keyword [("old", .integer 1)])).result =
      .error (.invalid e)) ∧
    (acceptLimits 10 (.basic .any) (.keyword [("old", .integer 1)])).result =
      .ok (.keyword [("old", .integer 1)]) ∧
    (acceptLimits 10 (.basic .any) (.keyword [("old", .integer 1)])).deprecations = [] ∧
    (acceptLimits 11 (.union [limitsType, .basic .any])
      (.keyword [("old", .integer 1)])).deprecations =
        [.deprecated (.atom "old") "use :new instead"] := by
  have hmissing : (acceptLimits 10 limitsType (.keyword [("old", .integer 1)])).result =
      .error (.invalid {
        key := .single (.atom "new")
        keysPath := [.atom "limits"]
        reason := .missingOption (.atom "new") [.atom "old"] }) := by
    with_unfolding_all rfl
  refine ⟨?_, ⟨_, hmissing⟩, ?_, ?_, ?_⟩ <;> with_unfolding_all rfl

end Conform
