import Mathlib.Data.Finite.Prod
import Mathlib.Data.Nat.SuccPred
import Mathlib.Data.Set.Finite.Lattice
import Mathlib.Order.Preorder.Finite
import Mathlib.Order.SuccPred.Relation
import Mathlib.Order.WellFounded
import Conform.Proofs.Acceptance.Termination
import Conform.Proofs.Compiled.Lawfulness

namespace Conform

open Run

theorem Value.finite_holds (v : Value) : {w | v.Holds w}.Finite := by
  induction hn : v.depth using Nat.strongRecOn generalizing v with
  | _ n ih =>
    subst hn
    have hchildren : (⋃ c ∈ {c | c ∈ v.children}, {w | c.Holds w}).Finite :=
      v.children.finite_toSet.biUnion fun c hc => ih _ (depth_lt_of_mem_children hc) c rfl
    refine (hchildren.insert v).subset fun w hw => ?_
    rcases Relation.ReflTransGen.cases_head hw with rfl | ⟨c, hc, hw⟩
    · exact Set.mem_insert _ _
    · exact Set.mem_insert_of_mem _ (Set.mem_biUnion hc hw)

namespace Schema

variable {host : Host} {s t u : Schema}

theorem finite_inside (s : Schema) : {t | Inside t s}.Finite := by
  induction s using inside_induction with
  | deferred d =>
    refine (Set.finite_singleton (deferred d)).subset fun t ht => ?_
    cases ht
    rfl
  | entries es ih =>
    have hinner : (⋃ e ∈ {e | e ∈ es}, ⋃ u ∈ {u | u ∈ e.spec.schemas}, {t | Inside t u}).Finite :=
      es.finite_toSet.biUnion fun e he => e.spec.schemas.finite_toSet.biUnion fun u hu =>
        ih e he u hu
    refine (hinner.insert (entries es)).subset fun t ht => ?_
    cases ht with
    | self => exact Set.mem_insert _ _
    | inner he hu ht =>
      exact Set.mem_insert_of_mem _ (Set.mem_biUnion he (Set.mem_biUnion hu ht))

theorem Inside.trans (h : Inside u t) (ht : Inside t s) : Inside u s := by
  induction ht with
  | self => exact h
  | inner he hmem _ ih => exact .inner he hmem ih

/-- Each level is written inside of the schema, or inside of entries that are produced. -/
theorem inside_of_within (h : s.Within host t) : Inside t s ∨
    ∃ es d, s.LeadsTo host d ∧ (deferred d).Resolves host es ∧ Inside t (.entries es) := by
  induction h with
  | refl => exact .inl .self
  | @tail t u hst htu ih =>
    obtain ⟨es, hes, e, he, hu⟩ := contains_iff.1 htu
    cases t with
    | deferred d => exact .inr ⟨es, d, hst, hes, .inner he hu .self⟩
    | entries =>
      cases hes
      have hinside : Inside u (.entries es) := .inner he hu .self
      rcases ih with h | ⟨es, d, hd, hes, h⟩
      · exact .inl (hinside.trans h)
      · exact .inr ⟨es, d, hd, hes, hinside.trans h⟩

section

variable {limit : Nat} {c : Compiled}
  (hstateless : ∀ d, s.LeadsTo host d → d.producer.code.isStateless = true)
  (hcompile : (s.compile host limit).result = .ok c)

include hstateless hcompile

theorem resolves_of_compile (h : s.Within host t) : ∃ es, t.Resolves host es := by
  obtain ⟨-, done, hclosed, hexplored⟩ :=
    explored_of_compile (unentangled_of_stateless hstateless) hcompile
  cases t with
  | entries es => exact ⟨es, .entries es⟩
  | deferred d =>
    obtain ⟨es, hes, -⟩ := hclosed.explored d (hexplored.mem_done hclosed hstateless h)
    exact ⟨es, hes⟩

/-- What is produced for a schema that compiles are finitely many lists of entries, one for each
code that is done. -/
theorem finite_produced :
    {es | ∃ d, s.LeadsTo host d ∧ (deferred d).Resolves host es}.Finite := by
  obtain ⟨-, done, hclosed, hexplored⟩ :=
    explored_of_compile (unentangled_of_stateless hstateless) hcompile
  have hcodes : (⋃ x ∈ {x | x ∈ done}, {es | ∃ d, s.LeadsTo host d ∧ d.producer.code = x ∧
      (deferred d).Resolves host es}).Finite := by
    refine done.finite_toSet.biUnion fun x _ => Set.Subsingleton.finite ?_
    rintro es ⟨d, hd, hcode, hes⟩ es' ⟨d', hd', hcode', hes'⟩
    have hproducer : d'.producer = d.producer :=
      Producer.eq_of_code (hcode'.trans hcode.symm) (hstateless d' hd')
    exact (hes.of_producer hproducer).unique hes'
  refine hcodes.subset fun es ⟨d, hd, hes⟩ => ?_
  exact Set.mem_biUnion (hexplored.mem_done hclosed hstateless hd) ⟨d, hd, rfl, hes⟩

theorem finite_within : {t | s.Within host t}.Finite := by
  have hinside : (⋃ es ∈ {es | ∃ d, s.LeadsTo host d ∧ (deferred d).Resolves host es},
      {t | Inside t (.entries es)}).Finite :=
    (finite_produced hstateless hcompile).biUnion fun es _ => finite_inside _
  refine ((finite_inside s).union hinside).subset fun t ht => ?_
  rcases inside_of_within ht with h | ⟨es, d, hd, hes, h⟩
  · exact .inl h
  · exact .inr (Set.mem_biUnion ⟨d, hd, hes⟩ h)

theorem finite_defaults : {v | ∃ t es, s.Within host t ∧ t.Resolves host es ∧
    ∃ e ∈ es, e.spec.default? = some v}.Finite := by
  have hlevels : (⋃ t ∈ {t | s.Within host t},
      {v | ∃ es, t.Resolves host es ∧ ∃ e ∈ es, e.spec.default? = some v}).Finite := by
    refine (finite_within hstateless hcompile).biUnion fun t ht => ?_
    obtain ⟨es, hes⟩ := resolves_of_compile hstateless hcompile ht
    refine (es.filterMap fun e => e.spec.default?).finite_toSet.subset ?_
    rintro v ⟨es', hes', he⟩
    cases hes.unique hes'
    exact List.mem_filterMap.2 he
  refine hlevels.subset fun v ⟨t, es, ht, hes, he⟩ => ?_
  exact Set.mem_biUnion ht ⟨es, hes, he⟩

end

/-- What acceptance comes upon, if nothing is declared twice or renamed: levels of the schema, and
values that stand in the options or in a default. -/
theorem mem_of_enters (hs : s.Everywhere host Entry.Regular fun _ => True) {v : Value}
    {x : Schema × Value} (h : Relation.ReflTransGen (Enters host) (s, v) x) :
    s.Within host x.1 ∧ (v.Holds x.2 ∨ ∃ t es e d, s.Within host t ∧ t.Resolves host es ∧
      e ∈ es ∧ e.spec.default? = some d ∧ d.Holds x.2) := by
  induction h with
  | refl => exact ⟨.refl, .inl .refl⟩
  | @tail x y hx henters ih =>
    obtain ⟨t, w⟩ := x
    obtain ⟨u, item⟩ := y
    obtain ⟨ht, hw⟩ := ih
    refine ⟨.tail ht henters.contains, ?_⟩
    obtain ⟨hes, ho, hsupplies, _, _, hreaches, -, -⟩ := henters
    obtain ⟨e, he, hspec⟩ := Entry.spec_of_mem_expand (Pairs.pairwise_keys _) hsupplies.mem
    rcases Option.or_eq_some_iff.1 (hsupplies.value (hs t _ ht hes).1) with hfind | ⟨-, hdefault⟩
    · -- The option was there, so its value stands in the options.
      obtain ⟨p, hp, rfl⟩ := Option.map_eq_some_iff.1 hfind
      have hitem : w.Holds item :=
        .head (Value.mem_children_of_options ho (List.mem_of_find?_eq_some hp)) hreaches.holds
      rcases hw with hw | ⟨r, rs, f, d, hr, hrs, hf, hd, hw⟩
      · exact .inl (hw.trans hitem)
      · exact .inr ⟨r, rs, f, d, hr, hrs, hf, hd, hw.trans hitem⟩
    · rw [← hspec] at hdefault
      exact .inr ⟨t, _, e, _, ht, hes, he, hdefault, hreaches.holds⟩

theorem finite_enters {limit : Nat} {c : Compiled}
    (hstateless : ∀ d, s.LeadsTo host d → d.producer.code.isStateless = true)
    (hcompile : (s.compile host limit).result = .ok c)
    (hs : s.Everywhere host Entry.Regular fun _ => True) (v : Value) :
    {x | Relation.ReflTransGen (Enters host) (s, v) x}.Finite := by
  have hvalues : ({w | v.Holds w} ∪ ⋃ d ∈ {d | ∃ t es, s.Within host t ∧ t.Resolves host es ∧
      ∃ e ∈ es, e.spec.default? = some d}, {w | d.Holds w}).Finite :=
    v.finite_holds.union
      ((finite_defaults hstateless hcompile).biUnion fun d _ => d.finite_holds)
  refine ((finite_within hstateless hcompile).prod hvalues).subset fun x hx => ?_
  obtain ⟨hlevel, hvalue | ⟨t, es, e, d, ht, hes, he, hd, hvalue⟩⟩ := mem_of_enters hs hx
  · exact ⟨hlevel, .inl hvalue⟩
  · exact ⟨hlevel, .inr (Set.mem_biUnion ⟨t, es, ht, hes, e, he, hd⟩ hvalue)⟩

theorem exists_injects_of_loop (hs : s.Everywhere host Entry.Regular fun _ => True) {v : Value}
    (h : Relation.TransGen (Enters host) (s, v) (s, v)) :
    ∃ x y, Relation.ReflTransGen (Enters host) (s, v) x ∧ Injects host x y ∧
      Relation.ReflTransGen (Enters host) y (s, v) := by
  have hpath : ∀ z, Relation.TransGen (Enters host) (s, v) z →
      (∃ x y, Relation.ReflTransGen (Enters host) (s, v) x ∧ Injects host x y ∧
        Relation.ReflTransGen (Enters host) y z) ∨ z.2.depth < v.depth := by
    intro z hz
    induction hz with
    | single h =>
      rcases h.injects_or_depth_lt hs with h | h
      · exact .inl ⟨_, _, .refl, h, .refl⟩
      · exact .inr h
    | @tail y z hy h ih =>
      have hlevel := (mem_of_enters hs hy.to_reflTransGen).1
      rcases ih with ⟨a, b, ha, hab, hb⟩ | hlt
      · exact .inl ⟨a, b, ha, hab, .tail hb h⟩
      · rcases h.injects_or_depth_lt (hs.within hlevel) with h | h
        · exact .inl ⟨y, z, hy.to_reflTransGen, h, .refl⟩
        · exact .inr (h.trans hlt)
  exact (hpath _ h).resolve_right (Nat.lt_irrefl _)

end Schema

/-- Where only finitely many things are come upon, and none of them again below itself, there is no
endless chain. -/
theorem acc_of_finite {α : Type} {r : α → α → Prop} {x : α}
    (hfinite : {y | Relation.ReflTransGen r x y}.Finite)
    (hacyclic : ∀ y, Relation.ReflTransGen r x y → ¬Relation.TransGen r y y) : Acc (flip r) x := by
  by_contra hacc
  obtain ⟨chain, rfl, hstep⟩ := not_acc_iff_exists_descending_chain.1 hacc
  -- Some two members of a chain through finitely many things are the same.
  have hreach : ∀ n, Relation.ReflTransGen r (chain 0) (chain n) := fun n =>
    (reflTransGen_of_succ_of_le (fun i j => r (chain i) (chain j)) (fun i _ => hstep i)
      (Nat.zero_le n)).lift chain fun _ _ h => h
  obtain ⟨m, n, hmn, heq⟩ := hfinite.exists_lt_map_eq_of_forall_mem hreach
  have hloop : Relation.TransGen r (chain m) (chain n) :=
    (transGen_of_succ_of_lt (fun i j => r (chain i) (chain j)) (fun i _ => hstep i) hmn).lift
      chain fun _ _ h => h
  rw [← heq] at hloop
  exact hacyclic _ (hreach m) hloop

namespace Schema

variable {host : Host} {limit : Nat} {s : Schema} {c : Compiled}

theorem acc_of_injects (hcompile : (s.compile host limit).result = .ok c)
    (hstateless : ∀ d, s.LeadsTo host d → d.producer.code.isStateless = true)
    (hs : s.Everywhere host Entry.Regular fun _ => True) {v : Value}
    (h : ∀ x y, Relation.ReflTransGen (Enters host) (s, v) x → Injects host x y →
      ¬Relation.ReflTransGen (Enters host) y x) : Acc (flip (Enters host)) (s, v) := by
  refine acc_of_finite (finite_enters hstateless hcompile hs v) fun x hx hloop => ?_
  obtain ⟨t, w⟩ := x
  have hlevel := (mem_of_enters hs hx).1
  obtain ⟨x, y, htx, hxy, hyt⟩ := exists_injects_of_loop (hs.within hlevel) hloop
  exact h x y (hx.trans htx) hxy (hyt.trans htx)

/-- Let a schema compile whose producers have no state. The validation of options by it ends, unless
there is an endless chain of options that it comes upon, each inside of the ones before. If nothing
is declared twice or renamed, it ends unless a default leads back to the options for which it is the
default, by the same schema. -/
theorem validate_converges (hcompile : (s.compile host limit).result = .ok c)
    (hstateless : ∀ d, s.LeadsTo host d → d.producer.code.isStateless = true) (v : Value) :
    ((¬∃ chain : Nat → Schema × Value, chain 0 = (s, v) ∧
        ∀ n, Enters host (chain n) (chain (n + 1))) →
      Converges fun fuel => c.validate host fuel v) ∧
    (s.Everywhere host Entry.Regular (fun _ => True) →
      (∀ x y, Relation.ReflTransGen (Enters host) (s, v) x → Injects host x y →
        ¬Relation.ReflTransGen (Enters host) y x) →
      Converges fun fuel => c.validate host fuel v) := by
  have hacc : Acc (flip (Enters host)) (s, v) → Converges fun fuel => c.validate host fuel v := by
    intro h
    rw [eq_of_compile hcompile]
    exact converges_of_acc (fun t => resolves_of_compile hstateless hcompile) h false
  constructor
  · intro hchain
    exact hacc (not_imp_comm.1 not_acc_iff_exists_descending_chain.1 hchain)
  · intro hs hinjects
    exact hacc (acc_of_injects hcompile hstateless hs hinjects)

end Schema

def twig : Schema := .deferred ⟨.function "twig", 0⟩

def twigEntries : List Entry := [
  ⟨.atom "name", .ofType (.basic .string)⟩,
  ⟨.atom "twigs", .ofType (.listOf (.keywordListOf twig))⟩]

def twigHost : Host where
  call _ _ := .nil
  produce _ := .entries twigEntries

def forked : Value := .keyword [("name", .string "fork"), ("twigs", .list [.keyword []])]

/-- A hedge has a forked twig, unless something else is said. -/
def hedgeEntries : List Entry := [⟨.atom "twig", {
  type := .union [.basic .nil, .nonEmptyKeywordListOf twig]
  default? := some forked }⟩]

theorem twig_resolves : twig.Resolves twigHost twigEntries := .deferred (.entries _)

theorem twig_within {t : Schema} (h : twig.Within twigHost t) : t = twig :=
  Schema.within_eq_self twig_resolves
    (by simp [twigEntries, OptionSpec.schemas, OptionSpec.ofType]) h

theorem twig_undefaulted : twig.Everywhere twigHost Entry.Undefaulted fun _ => True := by
  intro t es ht hes
  cases twig_within ht
  cases hes.unique twig_resolves
  refine ⟨⟨⟨?_, ?_⟩, ?_⟩, fun _ _ _ _ => trivial⟩
  · simp [Entry.DistinctKeys, twigEntries]
  · simp [twigEntries, OptionSpec.ofType]
  · simp [twigEntries, OptionSpec.ofType]

theorem hedge_contains {t : Schema} (h : (Schema.entries hedgeEntries).Contains twigHost t) :
    t = twig := by
  obtain ⟨es, hes, e, he, hmem⟩ := Schema.contains_iff.1 h
  cases hes
  simp only [hedgeEntries, List.mem_singleton] at he
  subst he
  simpa [OptionSpec.schemas] using hmem

theorem hedge_within {t : Schema} (h : (Schema.entries hedgeEntries).Within twigHost t) :
    t = .entries hedgeEntries ∨ t = twig := by
  rcases h.cases_head with rfl | ⟨u, hu, ht⟩
  · exact .inl rfl
  · cases hedge_contains hu
    exact .inr (twig_within ht)

theorem hedge_regular :
    (Schema.entries hedgeEntries).Everywhere twigHost Entry.Regular fun _ => True := by
  intro t es ht hes
  refine ⟨?_, fun _ _ _ _ => trivial⟩
  rcases hedge_within ht with rfl | rfl
  · cases hes
    exact ⟨by simp [Entry.DistinctKeys, hedgeEntries], by simp [hedgeEntries]⟩
  · exact (twig_undefaulted.entries hes).toRegular

/-- The default of the hedge leads to twigs, and from these no way leads back. -/
theorem hedge_not_injects_back {x y : Schema × Value}
    (hx : Relation.ReflTransGen (Schema.Enters twigHost) (.entries hedgeEntries, .keyword []) x)
    (hxy : Schema.Injects twigHost x y) :
    ¬Relation.ReflTransGen (Schema.Enters twigHost) y x := by
  intro hback
  obtain ⟨s, v⟩ := x
  obtain ⟨t, w⟩ := y
  rcases hedge_within (Schema.mem_of_enters hedge_regular hx).1 with rfl | rfl
  · cases hedge_contains hxy.enters.contains
    have htwig := twig_undefaulted.mono (fun _ h => h.toRegular) fun _ h => h
    cases twig_within (Schema.mem_of_enters htwig hback).1
  · exact Schema.not_injects twig_undefaulted hxy

theorem hedge_injects_forked :
    Schema.Injects twigHost (.entries hedgeEntries, .keyword []) (twig, forked) := by
  have hexpand : Entry.expand hedgeEntries [] = [] ++ [(.atom "twig", hedgeEntries[0].spec)] := rfl
  have hbefore : (Options.acceptAll (OptionType.accept twigHost 0) false [] []).result = .ok [] :=
    rfl
  have hsupplies : Options.Supplies twigHost hedgeEntries ⟨.keyword, []⟩
      (.atom "twig", hedgeEntries[0].spec) forked :=
    .intro hexpand hbefore rfl
  refine .intro (.entries _) rfl hsupplies rfl ⟨.nonEmptyKeywordListOf twig, .nonEmptyKeywordList,
    .alternative trivial (.tail _ (.head _)) .here, rfl, ⟨_, _, rfl⟩⟩

theorem hedge_converges :
    ((Schema.entries hedgeEntries).compile twigHost 60).result = .ok ⟨.entries hedgeEntries⟩ ∧
    (∀ d, (Schema.entries hedgeEntries).LeadsTo twigHost d →
      d.producer.code.isStateless = true) ∧
    Schema.Injects twigHost (.entries hedgeEntries, .keyword []) (twig, forked) ∧
    (¬∃ chain : Nat → Schema × Value, chain 0 = (.entries hedgeEntries, .keyword []) ∧
      ∀ n, Schema.Enters twigHost (chain n) (chain (n + 1))) ∧
    Converges fun fuel =>
      Compiled.validate twigHost fuel ⟨.entries hedgeEntries⟩ (.keyword []) := by
  have hcompile : ((Schema.entries hedgeEntries).compile twigHost 60).result =
      .ok ⟨.entries hedgeEntries⟩ := by
    with_unfolding_all rfl
  have hstateless : ∀ d, (Schema.entries hedgeEntries).LeadsTo twigHost d →
      d.producer.code.isStateless = true := by
    intro d hd
    rcases hedge_within hd with h | h
    · cases h
    · cases h
      rfl
  have hacc := Schema.acc_of_injects hcompile hstateless hedge_regular
    fun _ _ => hedge_not_injects_back
  refine ⟨hcompile, hstateless, hedge_injects_forked, fun hchain => ?_, ?_⟩
  · exact not_acc_iff_exists_descending_chain.2 hchain hacc
  · exact (Schema.validate_converges hcompile hstateless (.keyword [])).2 hedge_regular
      fun _ _ => hedge_not_injects_back

def spring : Schema := .deferred ⟨.function "spring", 0⟩

def springType : OptionType := .union [.keywordListOf spring, .basic .any]

/-- There is no spring without one below it: it is there by default. -/
def springEntries : List Entry := [
  ⟨.atom "child", { type := springType, default? := some (.keyword []) }⟩,
  ⟨.atom "stop", { type := .basic .any, required := true }⟩]

def springHost : Host where
  call _ _ := .nil
  produce _ := .entries springEntries

theorem spring_within {t : Schema} (h : spring.Within springHost t) : t = spring := by
  refine Schema.within_eq_self (.deferred (.entries springEntries)) ?_ h
  simp [springEntries, springType, OptionSpec.schemas]

theorem ends_of_springType {fuel : Nat} {label : Label} {cx : Context}
    (h : (springType.accept springHost fuel label (.keyword []) cx).Ends) :
    ∃ n < fuel, (spring.accept springHost n (.keyword []) cx.redact).Ends := by
  cases fuel with
  | zero => simp [OptionType.accept_zero] at h
  | succ fuel =>
    rw [springType, OptionType.accept_union] at h
    have hfirst : ((OptionType.keywordListOf spring).accept springHost fuel label (.keyword [])
        cx).Ends :=
      ends_attempt.1 (ends_bind.1 (ends_bind.1 h).1).1
    have hcontainer : (OptionType.keywordListOf spring).container? = some (.keywordList, spring) :=
      rfl
    cases fuel with
    | zero => simp [OptionType.accept_zero] at hfirst
    | succ fuel =>
      rw [OptionType.accept_container _ _ _ _ _ hcontainer] at hfirst
      exact ⟨fuel, by omega, ends_mapRejection.1 hfirst⟩

theorem ends_of_spring {fuel : Nat} {redact : Bool}
    (h : (spring.accept springHost fuel (.keyword []) redact).Ends) :
    ∃ n < fuel, ∃ label cx, (springType.accept springHost n label (.keyword []) cx).Ends := by
  cases fuel with
  | zero => simp [Schema.accept_zero] at h
  | succ fuel =>
    rw [Schema.accept_succ] at h
    obtain ⟨hresolve, haccept⟩ := ends_bind.1 h
    cases fuel with
    | zero => simp [spring, Schema.resolve?, ofOption] at hresolve
    | succ fuel =>
      have hes : (ofOption (spring.resolve? springHost (fuel + 1))).result = .ok springEntries :=
        congrArg (fun es? => (ofOption es?).result) (Schema.resolve?_entries springHost fuel _)
      have hends := haccept springEntries hes
      rw [Options.accept_eq_acceptAll rfl, ends_map] at hends
      have hchild := (ends_bind.1 hends).1
      dsimp only at hchild
      rw [OptionSpec.accept_eq_bind] at hchild
      have htype := (ends_bind.1 hchild).2 _ rfl
      rw [ends_map, Ends, OptionSpec.result_acceptValue] at htype
      exact ⟨fuel + 1, by omega, _, _, htype⟩

/-- No depth is enough for a spring, as there is always one below it. -/
theorem not_ends_spring (fuel : Nat) (redact : Bool) :
    ¬(spring.accept springHost fuel (.keyword []) redact).Ends := by
  induction fuel using Nat.strongRecOn generalizing redact with
  | _ fuel ih =>
    intro h
    obtain ⟨m, hm, label, cx, htype⟩ := ends_of_spring h
    obtain ⟨n, hn, hspring⟩ := ends_of_springType htype
    exact ih n (hn.trans hm) cx.redact hspring

theorem spring_exhausted :
    (∃ c, (spring.compile springHost 60).result = .ok c) ∧
    (∀ d, spring.LeadsTo springHost d → d.producer.code.isStateless = true ∧
      ∃ es, (Schema.deferred d).Resolves springHost es) ∧
    ∀ fuel, (Compiled.validate springHost fuel ⟨spring⟩ (.keyword [])).result =
      .error .exhausted := by
  refine ⟨⟨_, by with_unfolding_all rfl⟩, fun d hd => ?_, fun fuel => ?_⟩
  · cases spring_within hd
    exact ⟨rfl, _, .deferred (.entries _)⟩
  · exact not_not.1 (not_ends_spring fuel false)

end Conform
