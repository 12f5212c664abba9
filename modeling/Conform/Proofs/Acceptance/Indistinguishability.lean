import Conform.Proofs.Acceptance.Disclosure
import Conform.Proofs.Run.Parallel

namespace Conform

open Run

/-- Two values are indistinguishable for a type if the same decisions are made about both. A type
without parts accepts both or rejects both, and every alternative of a union makes the same
decisions. Lists have the same length and elements that are indistinguishable in pairs, unless
neither value is a list, and so do tuples, unless neither is one of the right length. -/
inductive OptionType.Indistinguishable (host : Host) : OptionType → Value → Value → Prop where
  | whole {t v w} : t.expectation?.isSome → (t.Member host v ↔ t.Member host w) →
      Indistinguishable host t v w
  | union {ts v w} : (∀ t ∈ ts, Indistinguishable host t v w) →
      Indistinguishable host (.union ts) v w
  | noList {t v w} : v.asList? = none → w.asList? = none →
      Indistinguishable host (.listOf t) v w
  | listOf {t v w xs ys} : v.asList? = some xs → w.asList? = some ys → xs.length = ys.length →
      (∀ i (hx : i < xs.length) (hy : i < ys.length), Indistinguishable host t xs[i] ys[i]) →
      Indistinguishable host (.listOf t) v w
  | noTuple {ts v w} : (∀ xs, v = .tuple xs → xs.length ≠ ts.length) →
      (∀ ys, w = .tuple ys → ys.length ≠ ts.length) → Indistinguishable host (.tupleOf ts) v w
  | tupleOf {ts xs ys} : xs.length = ts.length → ys.length = ts.length →
      (∀ i (ht : i < ts.length) (hx : i < xs.length) (hy : i < ys.length),
        Indistinguishable host ts[i] xs[i] ys[i]) →
      Indistinguishable host (.tupleOf ts) (.tuple xs) (.tuple ys)

/-- Two runs make the same decision, and if they reject, it is with the same error. -/
def Run.SameDecision (r r' : Run Value) : Prop :=
  r.Parallel Eq (fun _ => False) (fun _ _ => True) r'

namespace Context

variable {cx : Context}

theorem sameDecision_mismatch (h : cx.redact = true) (label : Label) (v w : Value)
    (expected : Expectation) :
    (cx.mismatch label v expected).SameDecision (cx.mismatch label w expected) := by
  unfold mismatch
  rw [h]
  exact parallel_reject (error_congr h v w _)

theorem elementError_congr (h : cx.redact = true) (container : Container) (label : Label)
    (v w : Value) (e : ValidationError) :
    cx.elementError container label v e = cx.elementError container label w e := by
  unfold elementError
  rw [error_congr h v w]

end Context

namespace OptionType

variable {host : Host} {fuel : Nat} {label : Label} {v w : Value} {cx : Context}

theorem result_accept_of_expectation {t : OptionType} {expected : Expectation}
    (ht : t.expectation? = some expected) :
    t.Member host v ∧ (∃ n, (t.accept host (fuel + 1) label v cx).result = .ok n) ∨
      ¬t.Member host v ∧
        t.accept host (fuel + 1) label v cx = cx.mismatch label v expected := by
  cases t with
  | basic b =>
    cases ht
    rw [accept_basic, member_basic, ← BasicType.accept?_isSome]
    cases b.accept? v with
    | some n => exact .inl ⟨rfl, n, rfl⟩
    | none => exact .inr ⟨by simp, rfl⟩
  | oneOf choices =>
    cases ht
    rw [accept_oneOf, member_oneOf, ← Choices.contains_eq_true]
    cases choices.contains v with
    | true => exact .inl ⟨rfl, v, rfl⟩
    | false => exact .inr ⟨by simp, rfl⟩
  | struct name =>
    cases ht
    rw [accept_struct, member_struct]
    split
    next tag fields =>
      split
      next htag => exact .inl ⟨⟨fields, by rw [htag]⟩, _, rfl⟩
      next htag => exact .inr ⟨by simpa using htag, rfl⟩
    next hne =>
      refine .inr ⟨?_, rfl⟩
      rintro ⟨fields, hv⟩
      exact hne name fields hv
  | _ => cases ht

theorem sameDecision_of_expectation {t : OptionType} (ht : t.expectation?.isSome)
    (h : t.Member host v ↔ t.Member host w) (hredact : cx.redact = true) :
    (t.accept host (fuel + 1) label v cx).SameDecision (t.accept host (fuel + 1) label w cx) := by
  obtain ⟨expected, hexpected⟩ := Option.isSome_iff_exists.1 ht
  rcases result_accept_of_expectation hexpected with ⟨hv, n, hn⟩ | ⟨hv, hrejected⟩ <;>
    rcases result_accept_of_expectation hexpected with ⟨hw, m, hm⟩ | ⟨hw, hrejected'⟩
  · unfold SameDecision Parallel
    rw [hn, hm]
    exact .ok trivial
  · exact absurd (h.1 hv) hw
  · exact absurd (h.2 hw) hv
  · rw [hrejected, hrejected']
    exact Context.sameDecision_mismatch hredact label v w expected

/-- A union of types that make the same decisions makes the same decision: its error is put together
from theirs. -/
theorem sameDecision_union {ts : List OptionType} (hredact : cx.redact = true)
    (h : ∀ t ∈ ts, (t.accept host fuel label v cx).SameDecision (t.accept host fuel label w cx)) :
    ((union ts).accept host (fuel + 1) label v cx).SameDecision
      ((union ts).accept host (fuel + 1) label w cx) := by
  rw [accept_union, accept_union]
  refine (parallel_firstAccepted h).bind fun outcome outcome' houtcome => ?_
  cases houtcome with
  | ok _ => exact parallel_pure trivial
  | error hes =>
    rw [List.forall₂_eq_eq_eq] at hes
    rw [hes]
    exact parallel_reject (Context.error_congr hredact v w _)

theorem parallel_elements {container : Container} (hredact : cx.redact = true)
    {α : Type} {f : α × Nat → Run Value} {as bs : List α} (hlength : as.length = bs.length)
    (h : ∀ i (ha : i < as.length) (hb : i < bs.length),
      (f (as[i], i)).SameDecision (f (bs[i], i))) :
    (as.zipIdx.mapM fun item => (f item).mapRejection (cx.elementError container label v)).Parallel
      Eq (fun _ => False) (List.Forall₂ fun _ _ => True)
      (bs.zipIdx.mapM fun item => (f item).mapRejection (cx.elementError container label w)) := by
  apply parallel_mapM
  rw [List.forall₂_iff_get]
  refine ⟨by simp [hlength], fun i ha hb => ?_⟩
  simp only [List.get_eq_getElem, List.getElem_zipIdx, Nat.zero_add]
  refine (h i (by simpa using ha) (by simpa using hb)).mapRejection ?_
  rintro e _ rfl
  exact Context.elementError_congr hredact container label v w e

theorem exists_eq_succ_of_sizeOf_le {t : OptionType} (h : sizeOf t ≤ fuel) :
    ∃ depth, fuel = depth + 1 := by
  refine Nat.exists_eq_succ_of_ne_zero fun hzero => ?_
  subst hzero
  cases t <;> simp at h

theorem accept_of_noTuple {ts : List OptionType} (h : ∀ xs, v = .tuple xs → xs.length ≠ ts.length) :
    (tupleOf ts).accept host (fuel + 1) label v cx = cx.mismatch label v (.tuple ts.length) := by
  rw [accept_tupleOf]
  split
  next xs => exact if_neg (h xs rfl)
  next => rfl

/-- Where the value is withheld, indistinguishable values are accepted alike or rejected with the
same error, at any depth that suffices for the type. -/
theorem Indistinguishable.sameDecision {t : OptionType} (h : t.Indistinguishable host v w)
    (hredact : cx.redact = true) (hfuel : sizeOf t ≤ fuel) :
    (t.accept host fuel label v cx).SameDecision (t.accept host fuel label w cx) := by
  obtain ⟨fuel, rfl⟩ := exists_eq_succ_of_sizeOf_le hfuel
  -- Each level of the type takes one step, and there is one for each unit of its size.
  induction h generalizing label fuel with
  | whole ht hmember => exact sameDecision_of_expectation ht hmember hredact
  | @union ts v w _ ih =>
    refine sameDecision_union hredact fun t ht => ?_
    have hsize : sizeOf t ≤ fuel := by
      have := List.sizeOf_lt_of_mem ht
      simp only [union.sizeOf_spec] at hfuel
      omega
    obtain ⟨depth, rfl⟩ := exists_eq_succ_of_sizeOf_le hsize
    exact ih t ht depth hsize
  | noList hv hw =>
    rw [accept_listOf, accept_listOf, hv, hw]
    exact Context.sameDecision_mismatch hredact label _ _ _
  | @listOf t v w xs ys hv hw hlength _ ih =>
    have hsize : sizeOf t ≤ fuel := by
      simp only [listOf.sizeOf_spec] at hfuel
      omega
    obtain ⟨depth, rfl⟩ := exists_eq_succ_of_sizeOf_le hsize
    rw [accept_listOf, accept_listOf, hv, hw]
    refine Parallel.bind (parallel_elements hredact hlength fun i hx hy => ?_) fun _ _ _ => ?_
    · exact ih i hx hy depth hsize
    · exact parallel_pure trivial
  | noTuple hv hw =>
    rw [accept_of_noTuple hv, accept_of_noTuple hw]
    exact Context.sameDecision_mismatch hredact label _ _ _
  | @tupleOf ts xs ys hxs hys _ ih =>
    rw [accept_tupleOf, accept_tupleOf]
    dsimp only
    rw [if_pos hxs, if_pos hys]
    refine Parallel.bind (parallel_elements hredact (by simp [hxs, hys]) fun i hi hi' => ?_)
      fun _ _ _ => ?_
    · rw [List.length_zip, Nat.lt_min] at hi hi'
      have hsize : sizeOf ts[i] ≤ fuel := by
        have := List.sizeOf_lt_of_mem (List.getElem_mem hi.1)
        simp only [tupleOf.sizeOf_spec] at hfuel
        omega
      obtain ⟨depth, rfl⟩ := exists_eq_succ_of_sizeOf_le hsize
      simp only [List.getElem_zip]
      exact ih i hi.1 hi.2 hi'.2 depth hsize
    · exact parallel_pure trivial

/-- An error that withholds the value tells two values apart only if different decisions are made
about them: indistinguishable ones are both accepted, or rejected with the same error. -/
theorem outcomes_of_indistinguishable {t : OptionType} (h : t.Indistinguishable host v w)
    (hredact : cx.redact = true) (hfuel : sizeOf t ≤ fuel) (label : Label) :
    (∃ n m, (t.accept host fuel label v cx).result = .ok n ∧
      (t.accept host fuel label w cx).result = .ok m) ∨
    ∃ e, (t.accept host fuel label v cx).result = .error (.invalid e) ∧
      (t.accept host fuel label w cx).result = .error (.invalid e) := by
  have hsame : (t.accept host fuel label v cx).SameDecision (t.accept host fuel label w cx) :=
    h.sameDecision hredact hfuel
  rcases Parallel.outcomes hsame with ⟨n, m, hn, hm, -⟩ | ⟨e, _, he, he', rfl⟩ | ⟨_, _, _, hnone⟩
  · exact .inl ⟨n, m, hn, hm⟩
  · exact .inr ⟨e, he, he'⟩
  · exact hnone.elim

end OptionType

def credentialType : OptionType :=
  .tupleOf [.union [.basic .integer, .basic .atom], .listOf (.basic .string)]

theorem credentialType_outcomes :
    ∃ e, (credentialType.accept .bare 50 (.option (.atom "key"))
        (.tuple [.integer 1, .list [.string "hunter2", .nil]]) ⟨.atom "key", true⟩).result =
          .error (.invalid e) ∧
      (credentialType.accept .bare 50 (.option (.atom "key"))
        (.tuple [.integer 7, .list [.string "swordfish", .integer 3]]) ⟨.atom "key", true⟩).result =
          .error (.invalid e) ∧
      e.reason = .element .tuple (.option (.atom "key")) (.element .list (.tupleElement 1)
        (.mismatch (.listElement 1) (.basic .string) none)) := by
  have hwhole : ∀ {b : BasicType} {v w : Value}, (b.Member v ↔ b.Member w) →
      (OptionType.basic b).Indistinguishable .bare v w := fun h =>
    .whole rfl (by rw [OptionType.member_basic, OptionType.member_basic, h])
  have halike : credentialType.Indistinguishable .bare
      (.tuple [.integer 1, .list [.string "hunter2", .nil]])
      (.tuple [.integer 7, .list [.string "swordfish", .integer 3]]) := by
    refine .tupleOf rfl rfl fun i ht _ _ => ?_
    have hi : i = 0 ∨ i = 1 := by
      change i < 2 at ht
      omega
    rcases hi with rfl | rfl
    · refine .union fun t ht => ?_
      simp only [List.mem_cons, List.not_mem_nil, or_false] at ht
      rcases ht with rfl | rfl <;> exact hwhole (by simp [BasicType.Member])
    · refine .listOf rfl rfl rfl fun i hx _ => ?_
      have hi : i = 0 ∨ i = 1 := by
        change i < 2 at hx
        omega
      rcases hi with rfl | rfl <;> exact hwhole (by simp [BasicType.Member])
  have hrejected : (credentialType.accept .bare 50 (.option (.atom "key"))
      (.tuple [.integer 1, .list [.string "hunter2", .nil]]) ⟨.atom "key", true⟩).result =
      .error (.invalid {
        key := .single (.atom "key")
        reason := .element .tuple (.option (.atom "key")) (.element .list (.tupleElement 1)
          (.mismatch (.listElement 1) (.basic .string) none))
        value? := some redactedValue
        redact := true }) := by
    with_unfolding_all rfl
  have hredact : (⟨.atom "key", true⟩ : Context).redact = true := rfl
  have hfuel : sizeOf credentialType ≤ 50 := by simp [credentialType]
  rcases OptionType.outcomes_of_indistinguishable halike hredact hfuel (.option (.atom "key")) with
    ⟨n, m, hn, -⟩ | ⟨e, he, he'⟩
  · rw [hrejected] at hn
    cases hn
  · refine ⟨e, he, he', ?_⟩
    rw [hrejected] at he
    cases he
    rfl

end Conform
