import Conform.Proofs.Acceptance.Conformance
import Conform.Proofs.Acceptance.Depth
import Conform.Proofs.Run.Verdict
import Conform.Proofs.Schema.MetaLevels

namespace Conform

open Run

namespace Context

variable {cx : Context} {v : Value} {p : Prop}

theorem decides_reject {reason : Reason} (h : ¬p) : (cx.reject v reason).Decides p := h

theorem decides_mismatch {label : Label} {expected : Expectation} (h : ¬p) :
    (cx.mismatch label v expected).Decides p := h

end Context

namespace OptionSpec

variable {acceptance : Acceptance} {redact : Bool} {spec : OptionSpec} {key : Value}

theorem decides_acceptValue {v : Value} {p : Prop}
    (h : ∀ cx, (acceptance spec.effectiveType (.option key) v cx).Decides p) :
    (spec.acceptValue acceptance redact key v).Decides p := by
  have hannounce : (spec.announce key).Decides True := by
    unfold announce
    split
    · exact decides_emit
    · exact decides_pure trivial
  exact (hannounce.bind fun _ _ => h _).congr (by rw [true_and])

theorem decides_settle {p : Value → Prop}
    (h : ∀ v, (spec.acceptValue acceptance redact key v).Decides (p v)) (received : List Value)
    (v? : Option Value) :
    (spec.settle acceptance redact key received v?).Decides (spec.Suits p v?) := by
  unfold settle Suits
  cases v? with
  | some v => exact decides_map.2 (h v)
  | none =>
    cases hrequired : spec.required with
    | true => exact decides_reject (by simp)
    | false =>
      cases hdefault : spec.default? with
      | none => exact decides_pure (by simp)
      | some v => exact (decides_map.2 (h v)).congr (by simp)

end OptionSpec

theorem Options.decides_settleAll {acceptance : Acceptance} {redact : Bool}
    {p : OptionSpec → Value → Prop} {ps : List (Value × Value)}
    {declared : List (Value × OptionSpec)}
    (h : ∀ d ∈ declared, ∀ v, (d.2.acceptValue acceptance redact d.1 v).Decides (p d.2 v))
    (received : List Value) :
    (settleAll acceptance redact ps received declared).Decides
      (∀ d ∈ declared, d.2.Suits (p d.2) (Pairs.find? ps d.1)) := by
  induction declared generalizing received with
  | nil => exact decides_pure (by simp)
  | cons d declared ih =>
    obtain ⟨key, spec⟩ := d
    replace ih := ih fun d hd => h d (List.mem_cons_of_mem _ hd)
    have hsettle := OptionSpec.decides_settle (h (key, spec) (by simp)) received
      (Pairs.find? ps key)
    rw [List.forall_mem_cons]
    apply hsettle.bind
    intro settled _
    cases settled with
    | none => exact ih received
    | some v => exact decides_map.2 (ih _)

/-- A validator in a type says that a value is accepted or why it is rejected. -/
def OptionType.Answered (host : Host) (t : OptionType) : Prop :=
  ∀ f args, t = .custom f args → f.Answers host args

namespace Function

variable {host : Host}

theorem answers_typeCheck (args : List Value) : typeCheck.Answers host args := by
  rintro v returned ⟨fuel, h⟩
  cases fuel with
  | zero =>
    rw [call_zero] at h
    simp at h
  | succ fuel =>
    rw [call_succ] at h
    obtain ⟨outcome, -, rfl⟩ := map_eq_ok.1 h
    cases outcome with
    | ok t => exact .inl ⟨v, rfl⟩
    | error e => exact .inr ⟨e.message, rfl⟩

theorem decides_verdict {fuel : Nat} {f : Function} {args : List Value} (hf : f.Answers host args)
    {v returned : Value} (h : (f.call host fuel (v :: args)).result = .ok returned) (cx : Context) :
    (cx.verdict f v returned).Decides (∃ cast, f.Returns host (v :: args) (.ok cast)) := by
  unfold Context.verdict
  rcases hf v returned ⟨fuel, h⟩ with ⟨cast, rfl⟩ | ⟨message, rfl⟩
  · exact decides_pure ⟨cast, fuel, h⟩
  · refine decides_reject ?_
    rintro ⟨cast, fuel', h'⟩
    have := call_deterministic h h'
    simp [Value.ok, Value.error] at this

end Function

namespace Schema

variable {host : Host} {fuel : Nat}

theorem decides_checkNested (v : Value)
    (h : ∀ v redact, (metaSchema.accept host fuel v redact).Decides (metaSchema.Conforms host v)) :
    (checkNested (judge host fuel) v).run.Decides True := by
  cases hv : v.isProducer with
  | true =>
    rw [checkNested_of_producer hv]
    exact decides_pure trivial
  | false =>
    rw [checkNested_of_data hv, decides_map]
    refine ((decides_attempt (h v false)).bind fun outcome _ => ?_).congr (by rw [true_and])
    cases outcome with
    | ok accepted => exact decides_pure trivial
    | error e => exact (decides_emit.bind fun _ _ => decides_pure trivial).congr (by rw [true_and])

end Schema

theorem OptionType.decides_read {nested : Value → ExceptT ReadError Run Schema}
    (h : ∀ s, (nested s).run.Decides True) (v : Value) :
    (OptionType.read nested v).run.Decides True := by
  have hr := Congruence.of_run (r := fun _ x _ => x.Decides True) (fun a => decides_pure trivial)
    fun hx hf => (hx.bind fun a _ => hf a).congr (by rw [true_and])
  exact @Congruence.read _ _ _ _ _ _ _ nested nested hr v fun s _ => h s

abbrev OptionType.Sound (host : Host) : OptionType → Prop :=
  OptionType.Everywhere host Entry.Regular (OptionType.Answered host)

/-- A schema that is regular and whose validators give answers, at every level. -/
abbrev Schema.Sound (host : Host) : Schema → Prop :=
  Schema.Everywhere host Entry.Regular (OptionType.Answered host)

theorem Schema.sound_metaSchema {host : Host} : metaSchema.Sound host := by
  refine IsMeta.root.everywhere.mono (fun _ => id) fun t ht f args h => ?_
  obtain ⟨rfl, rfl⟩ := ht f args h
  exact Function.answers_typeCheck []

theorem Schema.Sound.effectiveType {host : Host} {s : Schema} {es : List Entry} (h : s.Sound host)
    (hes : s.Resolves host es) {e : Entry} (he : e ∈ es) : e.spec.effectiveType.Sound host := by
  refine Everywhere.effectiveType h hes he ?_ ?_
  · rintro t b u ht f args rfl
    simp [OptionType.container?] at ht
  · intro t f args h
    simp at h

section

variable {host : Host} {fuel : Nat}
  (htype : ∀ t : OptionType, t.Sound host → ∀ label v cx,
    (t.accept host fuel label v cx).Decides (t.Member host v))
  (hschema : ∀ s : Schema, s.Sound host → ∀ v redact,
    (s.accept host fuel v redact).Decides (s.Conforms host v))
  (hcall : ∀ f args, (Function.call host fuel f args).Decides True)

include htype in
theorem Schema.decides_accept_succ {s : Schema} (hs : s.Sound host) (v : Value) (redact : Bool) :
    (s.accept host (fuel + 1) v redact).Decides (s.Conforms host v) := by
  rw [accept_succ]
  cases ho : Options.ofValue? v with
  | none =>
    refine Run.decides_reject ?_
    rintro ⟨-, ho', -⟩
    rw [ho] at ho'
    simp at ho'
  | some o =>
    cases hes : s.resolve? host fuel with
    | none => exact decides_exhausted
    | some es =>
      have hresolves := resolves_of_resolve? hes
      have hregular := hs.entries hresolves
      refine Decides.congr ?_ (conforms_iff hresolves hregular.distinct ho).symm
      change (pure es >>= _ : Run Value).Decides _
      rw [pure_bind]
      by_cases hunknown : Options.unknown es o = []
      · rw [Options.accept_of_known hregular hunknown, decides_map]
        refine (Options.decides_settleAll (p := fun spec => spec.effectiveType.Member host)
          (fun d hd v => ?_) _).congr ⟨fun h => ⟨hunknown, h⟩, fun h => h.2⟩
        obtain ⟨e, he, hspec⟩ := Entry.spec_of_mem_expand (Pairs.pairwise_keys _) hd
        refine OptionSpec.decides_acceptValue fun cx => htype _ ?_ _ v cx
        rw [← hspec]
        exact hs.effectiveType hresolves he
      · rw [Options.accept_of_unknown hunknown]
        exact Run.decides_reject fun h => hunknown h.1

include hschema in
theorem Function.decides_call_succ (f : Function) (args : List Value) :
    (f.call host (fuel + 1) args).Decides True := by
  rw [call_succ]
  split
  · exact decides_pure trivial
  · exact decides_pure trivial
  · split
    · exact decides_pure trivial
    · rw [decides_map]
      refine OptionType.decides_read (fun s => ?_) _
      exact Schema.decides_checkNested s fun v redact => hschema _ Schema.sound_metaSchema v redact

include hschema in
theorem OptionType.decides_accept_container {t : OptionType} {b : BasicType} {s : Schema}
    (ht : t.container? = some (b, s)) (hs : s.Sound host) (label : Label) (v : Value)
    (cx : Context) :
    (t.accept host (fuel + 1) label v cx).Decides (t.Member host v) := by
  rw [accept_container _ _ _ _ _ ht, member_container ht, ← BasicType.accept?_isSome]
  split
  next v' hv' =>
    rw [decides_mapRejection]
    -- The container is passed on in its one spelling, which has the same options.
    refine (hschema s hs v' cx.redact).congr ?_
    rw [Schema.conforms_congr (BasicType.ofValue?_of_accept? hv'), hv']
    simp
  next h => exact Context.decides_mismatch (by simp [h])

include htype in
theorem OptionType.decides_accept_mapOf {keyType valueType : OptionType}
    (ht : (mapOf keyType valueType).Sound host) (label : Label) (v : Value) (cx : Context) :
    (accept host (fuel + 1) (.mapOf keyType valueType) label v cx).Decides
      ((mapOf keyType valueType).Member host v) := by
  rw [accept_mapOf, member_mapOf]
  split
  next pairs =>
    rw [bind_pure_comp, decides_map]
    refine (decides_mapM fun pair _ => ?_).congr ⟨fun h => ⟨pairs, rfl, h⟩, ?_⟩
    refine Decides.bind (decides_mapRejection.2 (htype _ ?_ _ _ _)) fun _ _ => ?_
    · exact ht.part fun w hw => .mapKey hw
    · rw [bind_pure_comp, decides_map, decides_mapRejection]
      exact htype _ (ht.part fun w hw => .mapValue hw) _ _ _
    · rintro ⟨pairs', h, hpairs⟩
      cases h
      exact hpairs
  next hne =>
    refine Context.decides_mismatch ?_
    rintro ⟨pairs, h, -⟩
    exact hne pairs h

include htype in
theorem OptionType.decides_accept_listOf {u : OptionType} (ht : (listOf u).Sound host)
    (label : Label) (v : Value) (cx : Context) :
    (accept host (fuel + 1) (.listOf u) label v cx).Decides ((listOf u).Member host v) := by
  rw [accept_listOf, member_listOf]
  split
  next items hitems =>
    rw [bind_pure_comp, decides_map]
    refine (decides_mapM_zipIdx (p := fun item => u.Member host item) fun item _ i => ?_).congr
      ⟨fun h => ⟨items, hitems, h⟩, ?_⟩
    · rw [decides_mapRejection]
      exact htype _ (ht.part fun w hw => .listElement hw) _ _ _
    · rintro ⟨items', h, hall⟩
      rw [hitems] at h
      cases h
      exact hall
  next hnone =>
    refine Context.decides_mismatch ?_
    rintro ⟨items, h, -⟩
    simp [hnone] at h

include htype in
theorem OptionType.decides_accept_tupleOf {ts : List OptionType} (ht : (tupleOf ts).Sound host)
    (label : Label) (v : Value) (cx : Context) :
    (accept host (fuel + 1) (.tupleOf ts) label v cx).Decides ((tupleOf ts).Member host v) := by
  rw [accept_tupleOf, member_tupleOf]
  split
  next items =>
    split
    next hlength =>
      rw [bind_pure_comp, decides_map]
      refine (decides_mapM_zipIdx (p := fun pair => pair.1.Member host pair.2)
        fun pair hpair i => ?_).congr ⟨fun h => ⟨items, rfl, hlength, h⟩, ?_⟩
      · rw [decides_mapRejection]
        refine htype _ (ht.part fun w hw => ?_) _ _ _
        exact .tupleElement (List.of_mem_zip hpair).1 hw
      · rintro ⟨items', h, -, hall⟩
        cases h
        exact hall
    next hlength =>
      refine Context.decides_mismatch ?_
      rintro ⟨items', h, hl, -⟩
      cases h
      exact hlength hl
  next hne =>
    refine Context.decides_mismatch ?_
    rintro ⟨items, h, -⟩
    exact hne items h

include htype hschema hcall in
theorem OptionType.decides_accept_succ {t : OptionType} (ht : t.Sound host) (label : Label)
    (v : Value) (cx : Context) :
    (t.accept host (fuel + 1) label v cx).Decides (t.Member host v) := by
  cases t with
  | basic b =>
    rw [accept_basic, member_basic, ← BasicType.accept?_isSome]
    split
    next h => exact decides_pure (by simp [h])
    next h => exact Context.decides_mismatch (by simp [h])
  | keywordListOf s | nonEmptyKeywordListOf s | mapOfKeys s =>
    exact decides_accept_container hschema rfl (ht.container rfl) label v cx
  | mapOf keyType valueType => exact decides_accept_mapOf htype ht label v cx
  | function arity =>
    rw [accept_function, member_function]
    split
    next f =>
      split
      next h => exact decides_pure ⟨f, h, rfl⟩
      next h =>
        refine Context.decides_reject ?_
        rintro ⟨f', hf, hv⟩
        cases hv
        exact h hf
    next hne =>
      refine Context.decides_mismatch ?_
      rintro ⟨f, -, h⟩
      exact hne f h
  | oneOf choices =>
    rw [accept_oneOf, member_oneOf, ← Choices.contains_eq_true]
    split
    next h => exact decides_pure h
    next h => exact Context.decides_mismatch h
  | custom f args =>
    rw [accept_custom, member_custom]
    -- The call and the event decide nothing; the verdict on the answer does.
    refine ((hcall f (v :: args)).bind fun returned h => ?_).congr (by rw [true_and])
    refine (decides_emit.bind fun _ _ => ?_).congr (by rw [true_and])
    exact Function.decides_verdict (ht.self f args rfl) h cx
  | union ts =>
    rw [accept_union, member_union]
    refine decides_firstAccepted (fun u hu => htype u ?_ label v cx) fun outcome => ?_
    · exact ht.part fun w hw => .alternative hu hw
    · cases outcome with
      | ok accepted => exact decides_pure ⟨accepted, rfl⟩
      | error es => exact Context.decides_reject (by simp)
  | listOf u => exact decides_accept_listOf htype ht label v cx
  | tupleOf ts => exact decides_accept_tupleOf htype ht label v cx
  | struct name =>
    rw [accept_struct, member_struct]
    split
    next tag fields =>
      split
      next h => exact decides_pure ⟨fields, by rw [h]⟩
      next h =>
        refine Context.decides_mismatch ?_
        rintro ⟨fields', hv⟩
        cases hv
        exact h rfl
    next hne =>
      refine Context.decides_mismatch ?_
      rintro ⟨fields, h⟩
      exact hne _ fields h

end

/-- Acceptance by types and by schemas is exact, and a call breaks no contract. One recursion
defines the three, so each rests on the others within less depth. -/
theorem accept_decides (host : Host) (fuel : Nat) :
    (∀ t : OptionType, t.Sound host → ∀ label v cx,
      (t.accept host fuel label v cx).Decides (t.Member host v)) ∧
    (∀ s : Schema, s.Sound host → ∀ v redact,
      (s.accept host fuel v redact).Decides (s.Conforms host v)) ∧
    ∀ f args, (Function.call host fuel f args).Decides True := by
  induction fuel with
  | zero =>
    refine ⟨fun t _ label v cx => ?_, fun s _ v redact => ?_, fun f args => ?_⟩
    · rw [OptionType.accept_zero]
      exact decides_exhausted
    · rw [Schema.accept_zero]
      exact decides_exhausted
    · rw [Function.call_zero]
      exact decides_exhausted
  | succ fuel ih =>
    obtain ⟨htype, hschema, hcall⟩ := ih
    refine ⟨fun t ht label v cx => ?_, fun s hs v redact => ?_, fun f args => ?_⟩
    · exact OptionType.decides_accept_succ htype hschema hcall ht label v cx
    · exact Schema.decides_accept_succ htype hs v redact
    · exact Function.decides_call_succ hschema f args

/-- Within a depth that suffices, options are accepted if and only if they conform, and otherwise
they are rejected with an error. -/
theorem Schema.accept_ok_iff_conforms {host : Host} {fuel : Nat} {s : Schema} {v : Value}
    {redact : Bool} (hs : s.Sound host) (hends : (s.accept host fuel v redact).Ends) :
    ((∃ n, (s.accept host fuel v redact).result = .ok n) ↔ s.Conforms host v) ∧
      (¬s.Conforms host v → ∃ e, (s.accept host fuel v redact).result = .error (.invalid e)) := by
  have hdecides := (accept_decides host fuel).2.1 s hs v redact
  rcases hdecides.verdict hends with ⟨hok, hconforms⟩ | ⟨herror, hnot⟩
  · exact ⟨⟨fun _ => hconforms, fun _ => hok⟩, fun h => absurd hconforms h⟩
  · refine ⟨⟨fun ⟨n, hn⟩ => hdecides.of_ok hn, fun h => absurd h hnot⟩, fun _ => herror⟩

/-- Trees whose nodes have an even number, and weights or nothing under other keys. -/
def treeSchema : Schema := .entries [
  ⟨.atom "value", { type := .custom ⟨"even", 1, .host "even"⟩ [], required := true }⟩,
  ⟨.atom "children", {
    type := .listOf (.basic .keywordList)
    keys? := some (.deferred ⟨.function "tree", 0⟩)
    default? := some (.list []) }⟩,
  ⟨.wildcard, .ofType (.union [.basic .nil, .mapOf (.basic .string) (.tupleOf [.basic .integer])])⟩]

def treeHost : Host where
  call
    | _, .integer n :: _ => if n % 2 = 0 then .ok (.integer n) else .error "odd"
    | _, _ => .error "no number"
  produce _ := treeSchema

theorem part_tree {e : Entry} {es : List Entry} (hes : treeSchema = .entries es) (he : e ∈ es)
    {u : OptionType} (hu : OptionType.Part u e.spec.type) :
    u.container? = none ∧ ∀ f args, u = .custom f args → f = ⟨"even", 1, .host "even"⟩ := by
  have hmem : u ∈ es.flatMap fun e => e.spec.type.parts :=
    List.mem_flatMap.2 ⟨e, he, hu.mem_parts⟩
  cases hes
  simp only [OptionSpec.ofType, List.flatMap_cons, List.flatMap_nil, OptionType.parts,
    OptionType.partsAll, List.cons_append, List.nil_append, List.mem_cons, List.not_mem_nil,
    or_false] at hmem
  rcases hmem with rfl | rfl | rfl | rfl | rfl | rfl | rfl | rfl | rfl <;>
    simp [OptionType.container?]

theorem answers_even (args : List Value) :
    Function.Answers treeHost ⟨"even", 1, .host "even"⟩ args := by
  rintro v returned ⟨fuel, h⟩
  cases fuel with
  | zero =>
    rw [Function.call_zero] at h
    cases h
  | succ fuel =>
    rw [Function.call_succ] at h
    cases h
    unfold treeHost
    dsimp only
    split
    · split
      · exact .inl ⟨_, rfl⟩
      · exact .inr ⟨_, rfl⟩
    · exact .inr ⟨_, rfl⟩

theorem sound_treeSchema : treeSchema.Sound treeHost := by
  refine .of_invariant (fun s => ∀ es, s.Resolves treeHost es → treeSchema = .entries es) ?_ ?_ ?_
  · intro es hes
    cases hes
    rfl
  · intro s t hs ht es hes
    cases ht with
    | type hds he hu ht =>
      rw [(part_tree (hs _ hds) he hu).1] at ht
      cases ht
    | keys hds he hkeys =>
      cases hs _ hds
      simp only [List.mem_cons, List.not_mem_nil, or_false] at he
      rcases he with rfl | rfl | rfl
      · cases hkeys
      · cases hkeys
        cases hes with
        | deferred hes =>
          cases hes
          rfl
      · cases hkeys
  · intro s es hs hes
    have htree := hs es hes
    refine ⟨?_, fun e he u hu f args hf => ?_⟩
    · cases htree
      exact ⟨by unfold Entry.DistinctKeys; decide, by simp [OptionSpec.ofType]⟩
    · rw [(part_tree htree he hu).2 f args hf]
      exact answers_even args

def tree (n : Int64) : Value :=
  .keyword [("value", .integer 2), ("value", .nil),
    ("children", .list [
      .keyword [("value", .integer n), ("children", .keyword [])],
      .keyword [("value", .integer 6), ("weights", .map [(.string "kg", .tuple [.integer 1])])]])]

theorem conforms_tree : treeSchema.Sound treeHost ∧ treeSchema.Conforms treeHost (tree 4) ∧
    ¬treeSchema.Conforms treeHost (tree 5) := by
  refine ⟨sound_treeSchema, ?_, ?_⟩
  · obtain ⟨n, hn⟩ : ∃ n, (treeSchema.accept treeHost 12 (tree 4) false).result = .ok n :=
      ⟨_, by with_unfolding_all rfl⟩
    exact (Schema.accept_ok_iff_conforms sound_treeSchema (ends_of_ok hn)).1.1 ⟨n, hn⟩
  · intro h
    obtain ⟨e, he⟩ : ∃ e, (treeSchema.accept treeHost 12 (tree 5) false).result =
        .error (.invalid e) := ⟨_, by with_unfolding_all rfl⟩
    obtain ⟨n, hn⟩ := (Schema.accept_ok_iff_conforms sound_treeSchema (ends_of_invalid he)).1.2 h
    rw [he] at hn
    cases hn

end Conform
