import Conform.Proofs.Acceptance.Report
import Conform.Proofs.Compiled.Placement

namespace Conform

open Run

namespace Value

/-- Two values are equal, or both are the empty sequence. -/
def SameSequence (v w : Value) : Prop :=
  v = w ∨ v.isEmptySequence = true ∧ w.isEmptySequence = true

theorem sameSequence_empty : SameSequence (.list []) (.keyword []) := .inr ⟨rfl, rfl⟩

theorem inspect_empty : (list []).inspect = (keyword []).inspect := by decide

end Value

theorem BasicType.accept?_empty (b : BasicType) :
    b.accept? (.list []) = b.accept? (.keyword []) ∨
      b.accept? (.list []) = some (.list []) ∧ b.accept? (.keyword []) = some (.keyword []) := by
  cases b <;> first | exact .inl rfl | exact .inr ⟨rfl, rfl⟩

namespace OptionType

/-- A type that a value is tried against: the type itself, or an alternative of the unions it is
made of. -/
inductive Alternative : OptionType → OptionType → Prop where
  | self {t} : Alternative t t
  | union {u t ts} : t ∈ ts → Alternative u t → Alternative u (.union ts)

/-- The type itself does not ask how the empty sequence is spelled. A validator may ask, and so do
choices that hold one spelling without the other. -/
def IgnoresSpelling : OptionType → Prop
  | .custom _ _ => False
  | .oneOf choices => choices.contains (.list []) = choices.contains (.keyword [])
  | _ => True

/-- A type treats the two spellings alike in one context: it accepts both as the same sequence, or
rejects both with the same report. -/
def AlikeOnEmpty (host : Host) (fuel : Nat) (label : Label) (cx : Context) (t : OptionType) :
    Prop :=
  Reports (fun _ => True) Value.SameSequence (t.accept host fuel label (.list []) cx)
    (t.accept host fuel label (.keyword []) cx)

variable {host : Host} {fuel : Nat} {label : Label} {cx : Context}

theorem reports_same (r : Run Value) : Reports (fun _ => True) Value.SameSequence r r :=
  parallel_refl .refl (fun _ => .inl rfl) r

theorem alikeOnEmpty_basic (b : BasicType) :
    (basic b).AlikeOnEmpty host (fuel + 1) label cx := by
  unfold AlikeOnEmpty
  rw [accept_basic, accept_basic]
  rcases b.accept?_empty with h | ⟨hlist, hkeyword⟩
  · rw [h]
    split
    · exact reports_same _
    · exact Context.reports_mismatch Value.inspect_empty label _
  · rw [hlist, hkeyword]
    exact parallel_pure Value.sameSequence_empty

/-- Options are taken from the empty sequence in the same way. -/
theorem alikeOnEmpty_container {t : OptionType} {b : BasicType} {s : Schema}
    (h : t.container? = some (b, s)) : t.AlikeOnEmpty host (fuel + 1) label cx := by
  have hsame : b.accept? (.list []) = b.accept? (.keyword []) := by
    cases t <;> cases h <;> rfl
  unfold AlikeOnEmpty
  rw [accept_container _ _ _ _ _ h, accept_container _ _ _ _ _ h, hsame]
  split
  · exact reports_same _
  · exact Context.reports_mismatch Value.inspect_empty label _

theorem alikeOnEmpty (t : OptionType) (h : ∀ u, Alternative u t → u.IgnoresSpelling) :
    t.AlikeOnEmpty host fuel label cx := by
  induction fuel generalizing t with
  | zero =>
    unfold AlikeOnEmpty
    rw [accept_zero, accept_zero]
    exact reports_same _
  | succ fuel ih =>
    have hmismatch : ∀ expected, Reports (fun _ => True) Value.SameSequence
        (cx.mismatch label (.list []) expected) (cx.mismatch label (.keyword []) expected) :=
      Context.reports_mismatch Value.inspect_empty label
    cases t with
    | basic b => exact alikeOnEmpty_basic b
    | keywordListOf s | nonEmptyKeywordListOf s | mapOfKeys s => exact alikeOnEmpty_container rfl
    | union ts => exact reports_union fun t ht => ih t fun u hu => h u (.union ht hu)
    | custom validator args => exact (h _ .self).elim
    | oneOf choices =>
      have hsame : choices.contains (.list []) = choices.contains (.keyword []) := h _ .self
      unfold AlikeOnEmpty
      rw [accept_oneOf, accept_oneOf, hsame]
      split
      · exact parallel_pure Value.sameSequence_empty
      · exact hmismatch _
    | listOf t =>
      -- There are no elements, so the type of the elements is not asked.
      unfold AlikeOnEmpty
      rw [accept_listOf, accept_listOf]
      exact reports_same _
    | mapOf keyType valueType =>
      unfold AlikeOnEmpty
      rw [accept_mapOf, accept_mapOf]
      exact hmismatch _
    | function arity =>
      unfold AlikeOnEmpty
      rw [accept_function, accept_function]
      exact hmismatch _
    | tupleOf ts =>
      unfold AlikeOnEmpty
      rw [accept_tupleOf, accept_tupleOf]
      exact hmismatch _
    | struct name =>
      unfold AlikeOnEmpty
      rw [accept_struct, accept_struct]
      exact hmismatch _

/-- The two spellings of the empty sequence are accepted alike or rejected with the same report, by
every type whose alternatives do not look at the spelling. What they become is the same, or the
empty sequence again. -/
theorem empty_accepted_alike (t : OptionType) (h : ∀ u, Alternative u t → u.IgnoresSpelling)
    (host : Host) (fuel : Nat) (label : Label) (cx : Context) :
    (∃ v w, (t.accept host fuel label (.list []) cx).result = .ok v ∧
      (t.accept host fuel label (.keyword []) cx).result = .ok w ∧ v.SameSequence w) ∨
    (∃ e e', (t.accept host fuel label (.list []) cx).result = .error (.invalid e) ∧
      (t.accept host fuel label (.keyword []) cx).result = .error (.invalid e') ∧
      e.SameReport e') ∨
    ∃ f, (t.accept host fuel label (.list []) cx).result = .error f ∧
      (t.accept host fuel label (.keyword []) cx).result = .error f := by
  rcases Parallel.outcomes (alikeOnEmpty t h) with hok | hinvalid | ⟨f, hf, hf', -⟩
  · exact .inl hok
  · exact .inr (.inl hinvalid)
  · exact .inr (.inr ⟨f, hf, hf'⟩)

end OptionType

def tagsType : OptionType :=
  .union [.oneOf (.values [.string "all"]), .listOf (.basic .string)]

/-- No tags, which is one of the choices and is spelled as a list there. -/
def noTagsType : OptionType :=
  .oneOf (.values [.list [], .string "all"])

def acceptTags (t : OptionType) (v : Value) : Run Value :=
  t.accept .bare 3 (.option (.atom "tags")) v ⟨.atom "tags", false⟩

theorem tagsType_accepts_empty :
    (acceptTags tagsType (.list [])).result = .ok (.list []) ∧
      ∃ w, (acceptTags tagsType (.keyword [])).result = .ok w ∧
        (Value.list []).SameSequence w := by
  have hignores : ∀ u, OptionType.Alternative u tagsType → u.IgnoresSpelling := by
    intro u hu
    cases hu with
    | self => trivial
    | union ht hu =>
      simp only [List.mem_cons, List.not_mem_nil, or_false] at ht
      rcases ht with rfl | rfl
      · cases hu
        simp [OptionType.IgnoresSpelling, Choices.contains, BEq.beq, Value.beq]
      · cases hu
        trivial
  have hlist : (acceptTags tagsType (.list [])).result = .ok (.list []) := by with_unfolding_all rfl
  refine ⟨hlist, ?_⟩
  unfold acceptTags at hlist
  rcases OptionType.empty_accepted_alike tagsType hignores .bare 3 (.option (.atom "tags"))
      ⟨.atom "tags", false⟩ with ⟨v, w, hv, hw, hsame⟩ | ⟨e, -, he, -⟩ | ⟨f, hf, -⟩
  · rw [hlist] at hv
    cases hv
    exact ⟨w, hw, hsame⟩
  · rw [hlist] at he
    cases he
  · rw [hlist] at hf
    cases hf

/-- Choices are compared as they are spelled. -/
theorem noTagsType_rejects_other_spelling :
    (acceptTags noTagsType (.list [])).result = .ok (.list []) ∧
      ∃ e, (acceptTags noTagsType (.keyword [])).result = .error (.invalid e) := by
  refine ⟨by with_unfolding_all rfl, ?_⟩
  exact ⟨_, by with_unfolding_all rfl⟩

end Conform
