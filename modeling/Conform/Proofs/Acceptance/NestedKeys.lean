import Conform.Proofs.Acceptance.Concealment
import Conform.Proofs.Acceptance.Depth
import Conform.Proofs.Acceptance.Membership

namespace Conform

open Run

namespace Value

/-- Lists in lists, `n` deep, whose items become others. A list may be the empty sequence in its
other spelling, and becomes a list in any case. -/
def Nest (r : Value → Value → Prop) : Nat → Value → Value → Prop
  | 0, v, w => r v w
  | n + 1, v, w => ∃ items outs, v.asList? = some items ∧ w = .list outs ∧
      List.Forall₂ (Nest r n) items outs

theorem Nest.mono {r r' : Value → Value → Prop} (h : ∀ v w, r v w → r' v w) {n : Nat}
    {v w : Value} (hnest : Nest r n v w) : Nest r' n v w := by
  induction n generalizing v w with
  | zero => exact h v w hnest
  | succ n ih =>
    obtain ⟨items, outs, hv, hw, hitems⟩ := hnest
    exact ⟨items, outs, hv, hw, hitems.imp fun _ _ => ih⟩

theorem Nest.exists_depth {r : Nat → Value → Value → Prop}
    (hmono : ∀ m n v w, m ≤ n → r m v w → r n v w) {n : Nat} {v w : Value}
    (h : Nest (fun v w => ∃ depth, r depth v w) n v w) : ∃ depth, Nest (r depth) n v w := by
  induction n generalizing v w with
  | zero => exact h
  | succ n ih =>
    obtain ⟨items, outs, hv, hw, hitems⟩ := h
    obtain ⟨depth, hdepth⟩ : ∃ depth, List.Forall₂ (Nest (r depth) n) items outs := by
      clear hv hw
      induction hitems with
      | nil => exact ⟨0, .nil⟩
      | cons hitem _ ihrest =>
        obtain ⟨m, hm⟩ := ih hitem
        obtain ⟨k, hk⟩ := ihrest
        refine ⟨max m k, .cons (hm.mono fun v w => ?_) (hk.imp fun _ _ => Nest.mono fun v w => ?_)⟩
        · exact hmono m _ v w (Nat.le_max_left m k)
        · exact hmono k _ v w (Nat.le_max_right m k)
    exact ⟨depth, items, outs, hv, hw, hdepth⟩

end Value

def BasicType.keyed? : BasicType → Option BasicType
  | .any => some .keywordList
  | .keywordList => some .keywordList
  | .nonEmptyKeywordList => some .nonEmptyKeywordList
  | .map => some .map
  | _ => none

namespace OptionType

def listsOf (t : OptionType) : Nat → OptionType
  | 0 => t
  | n + 1 => .listOf (t.listsOf n)

variable {host : Host} {fuel : Nat} {label : Label} {v w : Value} {cx : Context} {keys : Schema}

theorem withKeys_of_not_acceptsKeys {t : OptionType} (h : t.acceptsKeys = false) :
    t.withKeys keys = t := by
  induction t using acceptsKeys.induct with
  | case5 t ih => rw [withKeys, ih h]
  | case1 | case2 | case3 | case4 => cases h
  | case6 => rw [withKeys] <;> assumption

theorem exists_keyed_of_acceptsKeys {t : OptionType} (h : t.acceptsKeys = true) :
    ∃ n b c, t = (basic b).listsOf n ∧ b.keyed? = some c := by
  induction t using acceptsKeys.induct with
  | case1 | case2 | case3 | case4 => exact ⟨0, _, _, rfl, rfl⟩
  | case5 t ih =>
    obtain ⟨n, b, c, rfl, hb⟩ := ih h
    exact ⟨n + 1, b, c, rfl, hb⟩
  | case6 t hany hkeyword hnonEmpty hmap hlist =>
    rw [acceptsKeys] at h <;> first | assumption | cases h

theorem withKeys_listsOf (n : Nat) (t : OptionType) :
    (t.listsOf n).withKeys keys = (t.withKeys keys).listsOf n := by
  induction n with
  | zero => rfl
  | succ n ih => rw [listsOf, listsOf, withKeys, ih]

theorem container?_withKeys {b c : BasicType} (h : b.keyed? = some c) :
    ((basic b).withKeys keys).container? = some (c, keys) := by
  cases b <;> cases h <;> rfl

theorem accept_listOf_eq_ok {t : OptionType} :
    ((listOf t).accept host (fuel + 1) label v cx).result = .ok w ↔
      ∃ items outs, v.asList? = some items ∧ w = .list outs ∧
        List.Forall₂ (fun item out => (t.accept host fuel label item cx).result = .ok out)
          items outs := by
  rw [accept_listOf]
  cases hv : v.asList? with
  | none => simp [Context.mismatch, Context.reject]
  | some items =>
    have hitems {outs : List Value} : (items.zipIdx.mapM fun item =>
          (accept host fuel t (.listElement item.2) item.1 cx).mapRejection
            (cx.elementError .list label v)).result = .ok outs ↔
        List.Forall₂ (fun item out => (t.accept host fuel label item cx).result = .ok out)
          items outs := by
      simp only [mapM_eq_ok, mapRejection_eq_ok,
        accept_eq_ok_congr (.listElement _) label cx cx]
      rw [← List.forall₂_map_left_iff
        (R := fun item out => (t.accept host fuel label item cx).result = .ok out),
        List.zipIdx_map_fst]
    simp only [bind_eq_ok, hitems, result_pure, Except.ok.injEq, Option.some.injEq]
    constructor
    · rintro ⟨outs, houts, rfl⟩
      exact ⟨items, outs, rfl, rfl, houts⟩
    · rintro ⟨_, outs, rfl, rfl, houts⟩
      exact ⟨outs, houts, rfl⟩

theorem accept_listsOf_eq_ok {n : Nat} {t : OptionType} :
    ((t.listsOf n).accept host (fuel + n) label v cx).result = .ok w ↔
      Value.Nest (fun item out => (t.accept host fuel label item cx).result = .ok out) n v w := by
  induction n generalizing v w with
  | zero => exact Iff.rfl
  | succ n ih =>
    rw [listsOf, ← Nat.add_assoc, accept_listOf_eq_ok]
    simp only [ih]
    rfl

theorem accept_container_eq_ok {t : OptionType} {b : BasicType}
    (ht : t.container? = some (b, keys)) :
    (t.accept host (fuel + 1) label v cx).result = .ok w ↔
      b.Member v ∧ (keys.accept host fuel v false).result = .ok w := by
  rw [accept_container host fuel label v cx ht, ← BasicType.accept?_isSome]
  cases hv : b.accept? v with
  | none => simp [Context.mismatch, Context.reject]
  | some options =>
    simp only [mapRejection_eq_ok, accept_options ht hv, Option.isSome_some, true_and]
    exact Schema.accept_eq_ok_congr cx.redact false

/-- Keys are never ignored. A type that accepts them is `n` lists around a container, and its values
with the keys are the lists, `n` deep, of containers of this kind that the keys accept; the value
becomes the same lists of what the keys make of these containers. Any other type is left alone. -/
theorem accept_withKeys_iff_nest (t : OptionType) (keys : Schema) :
    (t.acceptsKeys = false → t.withKeys keys = t) ∧
    (t.acceptsKeys = true → ∃ n b c, t = (basic b).listsOf n ∧ b.keyed? = some c ∧
      ∀ (host : Host) (label : Label) (v w : Value) (cx : Context),
        (∃ fuel, ((t.withKeys keys).accept host fuel label v cx).result = .ok w) ↔
          Value.Nest (fun item out => c.Member item ∧
            ∃ fuel, (keys.accept host fuel item false).result = .ok out) n v w) := by
  refine ⟨withKeys_of_not_acceptsKeys, fun h => ?_⟩
  obtain ⟨n, b, c, rfl, hb⟩ := exists_keyed_of_acceptsKeys h
  refine ⟨n, b, c, rfl, hb, fun host label v w cx => ?_⟩
  -- Each list takes one step of the depth, and the container one more.
  have hat (fuel : Nat) :
      ((((basic b).listsOf n).withKeys keys).accept host (fuel + 1 + n) label v cx).result = .ok w ↔
        Value.Nest (fun item out => c.Member item ∧
          (keys.accept host fuel item false).result = .ok out) n v w := by
    rw [withKeys_listsOf, accept_listsOf_eq_ok]
    simp only [accept_container_eq_ok (container?_withKeys hb)]
  constructor
  · rintro ⟨fuel, hfuel⟩
    have hmore := (accept_mono (by omega : fuel ≤ fuel + 1 + n) _ label v cx).eq_ok hfuel
    exact ((hat fuel).1 hmore).mono fun item out hitem => ⟨hitem.1, fuel, hitem.2⟩
  · intro hnest
    obtain ⟨fuel, hfuel⟩ := Value.Nest.exists_depth
      (r := fun fuel item out => c.Member item ∧
        (keys.accept host fuel item false).result = .ok out)
      (fun _ _ item _ hle hitem =>
        ⟨hitem.1, (Schema.accept_mono hle keys item false).eq_ok hitem.2⟩)
      (hnest.mono fun item out ⟨hmember, fuel, hfuel⟩ => ⟨fuel, hmember, hfuel⟩)
    exact ⟨fuel + 1 + n, (hat fuel).2 hfuel⟩

end OptionType

def backendsType : OptionType := .listOf (.listOf (.basic .any))

def backendKeys : Schema := .deferred ⟨.function "backend", 0⟩

def backendsHost : Host where
  call _ _ := .nil
  produce _ := .entries [⟨.atom "port",
    { OptionSpec.ofType (.basic .integer) with default? := some (.integer 80) }⟩]

/-- An empty group becomes a list, and an empty backend gets the port that is the default. -/
theorem backendsType_nested :
    (∃ fuel, ((backendsType.withKeys backendKeys).accept backendsHost fuel
        (.option (.atom "backends"))
        (.list [.keyword [], .list [.keyword [("port", .integer 81)], .list []]])
        ⟨.atom "backends", false⟩).result =
      .ok (.list [.list [], .list [.keyword [("port", .integer 81)],
        .keyword [("port", .integer 80)]]])) ∧
    (OptionType.basic .integer).withKeys backendKeys = .basic .integer := by
  refine ⟨?_, (OptionType.accept_withKeys_iff_nest (.basic .integer) backendKeys).1 rfl⟩
  obtain ⟨n, b, c, ht, hb, h⟩ :=
    (OptionType.accept_withKeys_iff_nest backendsType backendKeys).2 rfl
  obtain ⟨rfl, rfl⟩ : n = 2 ∧ b = .any := by
    rcases n with _ | _ | _ | n <;> simp_all [OptionType.listsOf, backendsType]
  cases hb
  have hgiven : (backendKeys.accept backendsHost 4 (.keyword [("port", .integer 81)])
      false).result = .ok (.keyword [("port", .integer 81)]) := by
    with_unfolding_all rfl
  have hnone : (backendKeys.accept backendsHost 4 (.list []) false).result =
      .ok (.keyword [("port", .integer 80)]) := by
    with_unfolding_all rfl
  refine (h _ _ _ _ _).2 ⟨_, _, rfl, rfl, .cons ⟨[], [], rfl, rfl, .nil⟩ (.cons ?_ .nil)⟩
  refine ⟨_, _, rfl, rfl, .cons ⟨.inr ⟨_, rfl⟩, 4, hgiven⟩ (.cons ⟨.inl rfl, 4, hnone⟩ .nil)⟩

end Conform
