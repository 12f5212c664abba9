import Conform.Proofs.Acceptance.MetaAcceptance
import Conform.Proofs.Acceptance.Report
import Conform.Proofs.Schema.Bodiless

namespace Conform

-- Powers are those of the core library, also where more instances are in scope.
attribute [local instance (high)] instPowNat

open Run

namespace Pairs

variable {κ α β : Type} [BEq κ]

theorem keys_congr {ps : List (κ × α)} {qs : List (κ × β)}
    (h : ps.map Prod.fst = qs.map Prod.fst) : keys ps = keys qs := by
  have hfold : ∀ {γ : Type} (ps : List (κ × γ)), keys ps =
      (ps.map Prod.fst).foldl (fun ks k => if ks.any (· == k) then ks else ks ++ [k]) [] := by
    intro γ ps
    rw [List.foldl_map]
    rfl
  rw [hfold, hfold, h]

theorem rel_find? {r : α → β → Prop} {ps : List (κ × α)} {qs : List (κ × β)}
    (h : List.Forall₂ (fun p q => p.1 = q.1 ∧ r p.2 q.2) ps qs) (k : κ) :
    Option.Rel r (find? ps k) (find? qs k) := by
  induction h with
  | nil => exact .none
  | @cons p q _ _ hpq _ ih =>
    rw [find?_cons, find?_cons, ← hpq.1]
    split
    · exact .some hpq.2
    · exact ih

end Pairs

theorem optionRel_imp {α β : Type} {r r' : α → β → Prop} (hr : ∀ a b, r a b → r' a b)
    {a? : Option α} {b? : Option β} (h : Option.Rel r a? b?) : Option.Rel r' a? b? := by
  cases h with
  | none => exact .none
  | some h => exact .some (hr _ _ h)

/-- Two values are accepted or rejected alike, wherever it is asked. No contract is broken. -/
def Acceptance.Alike (acceptance acceptance' : Acceptance) (t : OptionType) (v w : Value) : Prop :=
  ∀ label cx, Reports (· = .exhausted) (fun _ _ => True) (acceptance t label v cx)
    (acceptance' t label w cx)

section

variable {acceptance acceptance' : Acceptance} {redact : Bool}

theorem OptionSpec.reports_acceptValue {spec : OptionSpec} {v w : Value}
    (h : acceptance.Alike acceptance' spec.effectiveType v w) (key : Value) :
    Reports (· = .exhausted) (fun _ _ => True) (spec.acceptValue acceptance redact key v)
      (spec.acceptValue acceptance' redact key w) := by
  unfold Reports Parallel
  rw [result_acceptValue, result_acceptValue]
  exact h _ _

theorem OptionSpec.reports_settle {spec : OptionSpec} {v? w? : Option Value}
    (h : Option.Rel (acceptance.Alike acceptance' spec.effectiveType) v? w?)
    (hdefault : ∀ v, spec.default? = some v → acceptance.Alike acceptance' spec.effectiveType v v)
    (key : Value) (received : List Value) :
    Reports (· = .exhausted) (Option.Rel fun _ _ => True)
      (spec.settle acceptance redact key received v?)
      (spec.settle acceptance' redact key received w?) := by
  cases h with
  | some h => exact (reports_acceptValue h key).map fun _ _ _ => .some trivial
  | none =>
    unfold settle
    dsimp only
    split
    · exact parallel_reject (ValidationError.SameReport.refl _)
    · split
      next v hv => exact (reports_acceptValue (hdefault v hv) key).map fun _ _ _ => .some trivial
      next => exact parallel_pure .none

namespace Options

theorem reports_settleAll {declared : List (Value × OptionSpec)} {ps qs : List (Value × Value)}
    (h : ∀ d ∈ declared,
      Option.Rel (acceptance.Alike acceptance' d.2.effectiveType) (Pairs.find? ps d.1)
        (Pairs.find? qs d.1) ∧
      ∀ v, d.2.default? = some v → acceptance.Alike acceptance' d.2.effectiveType v v)
    (received : List Value) :
    Reports (· = .exhausted) (fun _ _ => True) (settleAll acceptance redact ps received declared)
      (settleAll acceptance' redact qs received declared) := by
  induction declared generalizing received with
  | nil => exact parallel_pure trivial
  | cons d declared ih =>
    obtain ⟨key, spec⟩ := d
    obtain ⟨hfind, hdefault⟩ := h (key, spec) (by simp)
    have hrest := ih fun d hd => h d (List.mem_cons_of_mem _ hd)
    have hsome : (Pairs.find? ps key).isSome = (Pairs.find? qs key).isSome := by
      generalize Pairs.find? ps key = v? at hfind
      generalize Pairs.find? qs key = w? at hfind
      cases hfind <;> rfl
    rw [settleAll, settleAll]
    apply (OptionSpec.reports_settle hfind hdefault key received).bind
    intro settled settled' hs
    cases hs with
    | none => exact hrest received
    | some _ =>
      dsimp only
      rw [hsome]
      exact (hrest _).map fun _ _ _ => trivial

theorem reports_accept {es : List Entry} (hes : Entry.Regular es) {o o' : Options}
    (hkeys : Pairs.keys o.pairs = Pairs.keys o'.pairs)
    (h : ∀ d ∈ Entry.expand es (Pairs.keys o.pairs),
      Option.Rel (acceptance.Alike acceptance' d.2.effectiveType) (Pairs.find? o.pairs d.1)
        (Pairs.find? o'.pairs d.1))
    (hdefault : ∀ e ∈ es, ∀ v, e.spec.default? = some v →
      acceptance.Alike acceptance' e.spec.effectiveType v v) :
    Reports (· = .exhausted) (fun _ _ => True) (o.accept acceptance redact es)
      (o'.accept acceptance' redact es) := by
  have hsame : unknown es o = unknown es o' := by
    unfold unknown
    rw [hkeys]
  by_cases hunknown : unknown es o = []
  · rw [accept_of_known hes hunknown, accept_of_known hes (hsame ▸ hunknown), ← hkeys]
    refine (reports_settleAll (fun d hd => ⟨h d hd, ?_⟩) _).map fun _ _ _ => trivial
    obtain ⟨e, he, hspec⟩ := Entry.spec_of_mem_expand (Pairs.pairwise_keys _) hd
    rw [← hspec]
    exact hdefault e he
  · rw [accept_of_unknown hunknown, accept_of_unknown (hsame ▸ hunknown), ← hsame, ← hkeys]
    exact parallel_reject (ValidationError.SameReport.refl _)

end Options

end

/-- Two readings go the same way, and their errors have the same message. -/
def ReadAlike {α β : Type} (x : ExceptT ReadError Run α) (y : ExceptT ReadError Run β) : Prop :=
  Reports (· = .exhausted) (Agree (fun e e' => e.message = e'.message) fun _ _ => True) x.run y.run

namespace ReadAlike

variable {α α' β β' : Type} {x : ExceptT ReadError Run α} {y : ExceptT ReadError Run α'}

theorem pure (a : α) (b : β) :
    ReadAlike (Pure.pure a : ExceptT ReadError Run α) (Pure.pure b : ExceptT ReadError Run β) :=
  parallel_pure (.ok trivial)

theorem throw {e e' : ReadError} (h : e.message = e'.message) :
    ReadAlike (MonadExcept.throw e : ExceptT ReadError Run α)
      (MonadExcept.throw e' : ExceptT ReadError Run β) :=
  parallel_pure (.error h)

theorem bind (h : ReadAlike x y) {f : α → ExceptT ReadError Run β}
    {g : α' → ExceptT ReadError Run β'} (hfg : ∀ a b, ReadAlike (f a) (g b)) :
    ReadAlike (x >>= f) (y >>= g) := by
  unfold ReadAlike
  rw [ExceptT.run_bind, ExceptT.run_bind]
  refine Parallel.bind h fun outcome outcome' houtcome => ?_
  cases houtcome with
  | ok _ => exact hfg _ _
  | error he => exact parallel_pure (.error he)

theorem map (h : ReadAlike x y) (f : α → β) (g : α' → β') : ReadAlike (f <$> x) (g <$> y) := by
  rw [map_eq_pure_bind, map_eq_pure_bind]
  exact h.bind fun _ _ => pure _ _

end ReadAlike

namespace OptionType

variable {nested nested' : Value → ExceptT ReadError Run Schema}

theorem exists_read_function (arity : Nat) : ∃ n, ∀ nested : Value → ExceptT ReadError Run Schema,
    read nested (function arity).toValue = pure (.function n) := by
  have hcut : (function arity).toValue =
      (function (min arity (2 ^ (63 : Nat) - 1))).toValue := by
    rw [toValue, toValue, Value.ofArity, Value.ofArity, Nat.min_assoc, Nat.min_self]
  refine ⟨min arity (2 ^ (63 : Nat) - 1), fun nested => ?_⟩
  rw [hcut]
  exact read_function nested (Nat.min_le_right _ _)

theorem readAlike_container {t t' : OptionType} {b : BasicType} {s : Schema}
    (h : ReadAlike (nested s.toValue) (nested' s.bodiless.toValue))
    (ht : t.container? = some (b, s)) (ht' : t'.container? = some (b, s.bodiless)) :
    ReadAlike (read nested t.toValue) (read nested' t'.toValue) := by
  obtain ⟨rebuild, -, hread⟩ := read_container nested ht
  obtain ⟨rebuild', -, hread'⟩ := read_container nested' ht'
  rw [hread, hread']
  exact h.map _ _

mutual

theorem readAlike (h : ∀ s : Schema, ReadAlike (nested s.toValue) (nested' s.bodiless.toValue))
    (t : OptionType) : ReadAlike (read nested t.toValue) (read nested' t.bodiless.toValue) := by
  cases t with
  | basic b =>
    rw [bodiless, revise, read_basic, read_basic]
    exact .pure _ _
  | function arity =>
    obtain ⟨n, hread⟩ := exists_read_function arity
    rw [bodiless, revise, hread, hread]
    exact .pure _ _
  | struct name =>
    rw [bodiless, revise, read_struct, read_struct]
    exact .pure _ _
  | oneOf choices =>
    rw [bodiless, revise, read_oneOf, read_oneOf]
    exact .pure _ _
  | custom f args =>
    rw [bodiless, revise, read_custom, read_custom, List.length_map]
    change ReadAlike _ (if f.arity = args.length + 1 then _ else _)
    split
    · exact .pure _ _
    · exact .throw rfl
  | keywordListOf s | nonEmptyKeywordListOf s | mapOfKeys s =>
    rw [bodiless, revise]
    exact readAlike_container (h s) rfl rfl
  | mapOf key value =>
    rw [bodiless, revise, read_mapOf, read_mapOf]
    exact (readAlike h key).bind fun _ _ => (readAlike h value).bind fun _ _ => .pure _ _
  | union ts =>
    rw [bodiless, revise, read_union, read_union]
    exact (readAllAlike h ts).map _ _
  | listOf t =>
    rw [bodiless, revise, read_listOf, read_listOf]
    exact (readAlike h t).map _ _
  | tupleOf ts =>
    rw [bodiless, revise, read_tupleOf, read_tupleOf]
    exact (readAllAlike h ts).map _ _

theorem readAllAlike (h : ∀ s : Schema, ReadAlike (nested s.toValue) (nested' s.bodiless.toValue))
    (ts : List OptionType) :
    ReadAlike (readAll nested (toValues ts))
      (readAll nested' (toValues (reviseAll .bodiless ts))) := by
  cases ts with
  | nil =>
    rw [reviseAll, toValues, readAll, readAll]
    exact .pure _ _
  | cons t ts =>
    rw [reviseAll, toValues, toValues, readAll, readAll]
    exact (readAlike h t).bind fun _ _ => (readAllAlike h ts).bind fun _ _ => .pure _ _

end

end OptionType

/-- The schema of schemas, or a reference to it. -/
inductive Schema.IsRoot : Schema → Prop where
  | metaSchema : IsRoot metaSchema
  | reference (handle : Nat) : IsRoot (metaReference handle)

def Schema.Alike (host host' : Host) (fuel : Nat) : Prop :=
  ∀ m, IsRoot m → ∀ (s : Schema) (redact : Bool), Reports (· = .exhausted) (fun _ _ => True)
    (m.accept host fuel s.toValue redact) (m.accept host' fuel s.bodiless.toValue redact)

abbrev OptionType.Alike (host host' : Host) (fuel : Nat) (t : OptionType) (v w : Value) : Prop :=
  Acceptance.Alike (accept host fuel) (accept host' fuel) t v w

variable {host host' : Host} {fuel : Nat}

theorem Run.reports_judged {r r' : Run Value}
    (h : Reports (· = .exhausted) (fun _ _ => True) r r') :
    Reports (· = .exhausted) (Option.Rel ValidationError.SameReport) r.judged r'.judged := by
  have hattempt : Parallel ValidationError.SameReport (· = .exhausted)
      (Agree ValidationError.SameReport fun _ _ => True) r.attempt r'.attempt := Parallel.attempt h
  refine hattempt.bind fun outcome outcome' houtcome => ?_
  cases houtcome with
  | ok _ => exact parallel_pure .none
  | error he => exact parallel_of_ok rfl rfl (.some he)

theorem Schema.reports_judge (h : Alike host host' fuel) (s : Schema) :
    Reports (· = .exhausted) (Option.Rel ValidationError.SameReport)
      (judge host fuel s.toValue) (judge host' fuel s.bodiless.toValue) :=
  reports_judged (h _ .metaSchema s false)

theorem Schema.readAlike_checkNested (h : Alike host host' fuel) (s : Schema) :
    ReadAlike (checkNested (judge host fuel) s.toValue)
      (checkNested (judge host' fuel) s.bodiless.toValue) := by
  unfold ReadAlike
  cases s with
  | deferred d =>
    rw [bodiless, revise, checkNested_of_producer rfl, checkNested_of_producer rfl]
    exact parallel_pure (.ok trivial)
  | entries es =>
    have hjudge := reports_judge h (entries es)
    rw [bodiless, revise_entries] at hjudge ⊢
    rw [checkNested_of_data (isProducer_toValue _), checkNested_of_data (isProducer_toValue _)]
    refine hjudge.map fun e? e'? he => ?_
    cases he with
    | none => exact .ok trivial
    | some he => exact .error he.text_eq

namespace OptionType

theorem alike_zero (t : OptionType) (v w : Value) :
    Alike host host' 0 t v w := by
  intro label cx
  rw [accept_zero, accept_zero]
  exact .error (.other (by simp) rfl)

theorem alike_basic (b : BasicType) (v : Value) :
    Alike host host' fuel (.basic b) v v := by
  cases fuel with
  | zero => exact alike_zero _ _ _
  | succ fuel =>
    intro label cx
    rw [accept_basic, accept_basic]
    split
    · exact parallel_pure trivial
    · exact Context.reports_mismatch rfl label _

theorem alike_oneOf (choices : Choices) (v : Value) :
    Alike host host' fuel (.oneOf choices) v v := by
  cases fuel with
  | zero => exact alike_zero _ _ _
  | succ fuel =>
    intro label cx
    rw [accept_oneOf, accept_oneOf]
    split
    · exact parallel_pure trivial
    · exact Context.reports_mismatch rfl label _

theorem alike_union {ts : List OptionType} {v w : Value}
    (h : ∀ t ∈ ts, Alike host host' fuel t v w) :
    Alike host host' (fuel + 1) (.union ts) v w :=
  fun label cx => reports_union fun t ht => h t ht label cx

theorem alike_docText (v : Value) :
    Alike host host' fuel .docText v v := by
  cases fuel with
  | zero => exact alike_zero _ _ _
  | succ fuel =>
    refine alike_union fun t ht => ?_
    simp only [List.mem_cons, List.not_mem_nil, or_false] at ht
    rcases ht with rfl | rfl
    · exact alike_basic _ _
    · exact alike_oneOf _ _

theorem reports_verdict {v w : Value} (hinspect : v.inspect = w.inspect) (cx : Context)
    {outcome outcome' : Except ReadError OptionType}
    (h : Agree (fun e e' : ReadError => e.message = e'.message) (fun _ _ => True) outcome
      outcome') :
    Reports (· = .exhausted) (fun _ _ => True)
      (cx.verdict Conform.typeCheck v (checkAnswer v outcome))
      (cx.verdict Conform.typeCheck w (checkAnswer w outcome')) := by
  cases h with
  | ok _ => exact parallel_pure trivial
  | @error e e' he =>
    have hverdict : ∀ (v : Value) (message : String),
        cx.verdict Conform.typeCheck v (.error message) =
          cx.reject v (.stated (if cx.redact then Text.scrub v.inspect message else message)) := by
      intro v message
      rfl
    unfold checkAnswer
    rw [hverdict, hverdict, hinspect, he]
    exact Context.reports_reject rfl

theorem alike_typeCheck (t : OptionType) (h : ∀ n < fuel, Schema.Alike host host' n) :
    Alike host host' fuel (.custom Conform.typeCheck []) t.toValue t.bodiless.toValue := by
  intro label cx
  match fuel with
  | 0 => exact alike_zero _ _ _ label cx
  | 1 =>
    rw [accept_custom, accept_custom, Function.call_zero, Function.call_zero]
    exact .error (.other (by simp) rfl)
  | n + 2 =>
    have hinspect : t.toValue.inspect = t.bodiless.toValue.inspect :=
      (t.inspect_toValue_bodiless fun s _ => s.keepsText).symm
    have hread := readAlike (Schema.readAlike_checkNested (h n (by omega))) t
    rw [accept_custom, accept_custom, Function.call_succ, Function.call_succ]
    dsimp only [Conform.typeCheck]
    rw [bind_map_left, bind_map_left]
    refine Parallel.bind hread fun outcome outcome' houtcome => ?_
    refine (reports_emit _ _).bind fun _ _ _ => ?_
    exact reports_verdict hinspect cx houtcome

theorem accept?_bodiless {b : BasicType} (hb : b = .keywordList ∨ b = .map) (s : Schema) :
    b.accept? s.toValue = none ∧ b.accept? s.bodiless.toValue = none ∨
      b.accept? s.toValue = some s.toValue ∧
        b.accept? s.bodiless.toValue = some s.bodiless.toValue := by
  cases s with
  | deferred d =>
    rw [Schema.bodiless, Schema.revise, Schema.toValue]
    rcases hb with rfl | rfl <;> exact .inl ⟨rfl, rfl⟩
  | entries es =>
    rw [Schema.bodiless, Schema.revise_entries, Schema.toValue, Schema.toValue, Entry.toValues_eq,
      Entry.toValues_eq]
    unfold Entry.collect
    simp only [List.any_map, Function.comp_def, Entry.key_revise, List.map_map]
    split <;> rcases hb with rfl | rfl
    all_goals first | exact .inl ⟨rfl, rfl⟩ | exact .inr ⟨rfl, rfl⟩

theorem alike_container {t : OptionType} {b : BasicType} {m : Schema}
    (ht : t.container? = some (b, m)) (hb : b = .keywordList ∨ b = .map) (hm : m.IsRoot)
    (s : Schema) (h : ∀ n < fuel, Schema.Alike host host' n) :
    Alike host host' fuel t s.toValue s.bodiless.toValue := by
  cases fuel with
  | zero => exact alike_zero _ _ _
  | succ fuel =>
    intro label cx
    rw [accept_container _ _ _ _ _ ht, accept_container _ _ _ _ _ ht]
    rcases accept?_bodiless hb s with ⟨hnone, hnone'⟩ | ⟨hsome, hsome'⟩
    · rw [hnone, hnone']
      exact Context.reports_mismatch s.keepsText.symm label _
    · rw [hsome, hsome']
      exact (h fuel (Nat.lt_succ_self _) m hm s _).mapRejection fun _ _ he => he.under _

theorem alike_function (s : Schema) :
    Alike host host' fuel (.function 0) s.toValue s.bodiless.toValue := by
  cases fuel with
  | zero => exact alike_zero _ _ _
  | succ fuel =>
    intro label cx
    cases s with
    | deferred d =>
      rw [Schema.bodiless, Schema.revise, accept_function, accept_function]
      exact parallel_pure trivial
    | entries es =>
      have hmismatch : ∀ (host : Host) (es : List Entry),
          accept host (fuel + 1) (.function 0) label (Schema.entries es).toValue cx =
            cx.mismatch label (Schema.entries es).toValue (.function 0) := by
        intro host es
        rw [accept_function]
        rcases Schema.toValue_entries es with h | ⟨pairs, h, -⟩ <;> rw [h]
      have hinspect := (Schema.entries es).keepsText.symm
      rw [Schema.bodiless, Schema.revise_entries] at hinspect ⊢
      rw [hmismatch, hmismatch]
      exact Context.reports_mismatch hinspect label _

theorem alike_nestedSchema (s : Schema) (h : ∀ n < fuel, Schema.Alike host host' n) :
    Alike host host' fuel .nestedSchema s.toValue s.bodiless.toValue := by
  cases fuel with
  | zero => exact alike_zero _ _ _
  | succ fuel =>
    have hbelow : ∀ n < fuel, Schema.Alike host host' n := fun n hn => h n (Nat.lt_succ_of_lt hn)
    refine alike_union fun t ht => ?_
    simp only [List.mem_cons, List.not_mem_nil, or_false] at ht
    rcases ht with rfl | rfl | rfl
    · exact alike_function s
    · exact alike_container rfl (.inl rfl) (.reference 0) s hbelow
    · exact alike_container rfl (.inr rfl) (.reference 1) s hbelow

theorem alike_any (v w : Value) : Alike host host' fuel (.basic .any) v w := by
  cases fuel with
  | zero => exact alike_zero _ _ _
  | succ fuel =>
    intro label cx
    rw [accept_basic, accept_basic]
    exact parallel_pure trivial

end OptionType

namespace Schema

/-- The entries of the schema of an option's rules. Apart from the type, the keys and the default,
the fields hold no functions. -/
inductive FieldEntry : Entry → Prop where
  | type : FieldEntry ⟨.atom "type",
      { type := .custom Conform.typeCheck [], default? := some (.atom "any") }⟩
  | keys : FieldEntry ⟨.atom "keys", .ofType .nestedSchema⟩
  | default : FieldEntry ⟨.atom "default", .ofType (.basic .any)⟩
  | plain {name spec b} : name ∉ ["type", "keys", "default"] → spec.effectiveType = .basic b →
      FieldEntry ⟨.atom name, spec⟩
  | doc {name} : name ∉ ["type", "keys", "default"] → FieldEntry ⟨.atom name, .ofType .docText⟩

theorem fieldEntry_of_mem {es : List Entry} (hes : specFields = .entries es) {e : Entry}
    (he : e ∈ es) : FieldEntry e := by
  cases hes
  simp only [List.mem_cons, List.not_mem_nil, or_false] at he
  rcases he with rfl | rfl | rfl | rfl | rfl | rfl | rfl | rfl | rfl | rfl
  · exact .type
  · exact .plain (by decide) rfl
  · exact .default
  · exact .keys
  · exact .plain (by decide) rfl
  · exact .plain (by decide) rfl
  · exact .doc (by decide)
  · exact .plain (by decide) rfl
  · exact .doc (by decide)
  · exact .plain (by decide) rfl

theorem sameFields_alike (h : ∀ n < fuel, Alike host host' n) (spec : OptionSpec) :
    OptionSpec.SameFields
      (fun name v w => ∀ e, FieldEntry e → e.key = .atom name →
        OptionType.Alike host host' fuel e.spec.effectiveType v w)
      spec.fields spec.bodiless.fields := by
  apply spec.sameFields_bodiless
  · intro e he hkey
    cases he with
    | type => exact OptionType.alike_typeCheck _ h
    | keys | default | plain | doc => simp_all
  · intro v e he hkey
    cases he with
    | default => exact OptionType.alike_any _ _
    | type | keys | plain | doc => simp_all
  · intro s _ e he hkey
    cases he with
    | keys => exact OptionType.alike_nestedSchema s h
    | type | default | plain | doc => simp_all
  · intro name v htype hkeys e he hkey
    cases he with
    | type => exact absurd (SchemaKey.atom.inj hkey).symm htype
    | keys => exact absurd (SchemaKey.atom.inj hkey).symm hkeys
    | default => exact OptionType.alike_any _ _
    | plain _ hbasic =>
      rw [hbasic]
      exact OptionType.alike_basic _ v
    | doc => exact OptionType.alike_docText v

theorem reports_accept_of_entries {m : Schema} {es : List Entry} (hm : m.IsMeta)
    (hes : m.resolve? host fuel = some es) (hes' : m.resolve? host' fuel = some es) {v w : Value}
    {o o' : Options} (ho : Options.ofValue? v = some o) (ho' : Options.ofValue? w = some o')
    (hkeys : Pairs.keys o.pairs = Pairs.keys o'.pairs)
    (h : ∀ d ∈ Entry.expand es (Pairs.keys o.pairs),
      Option.Rel (OptionType.Alike host host' fuel d.2.effectiveType) (Pairs.find? o.pairs d.1)
        (Pairs.find? o'.pairs d.1))
    (hdefault : ∀ e ∈ es, ∀ v, e.spec.default? = some v →
      OptionType.Alike host host' fuel e.spec.effectiveType v v) (redact : Bool) :
    Reports (· = .exhausted) (fun _ _ => True) (m.accept host (fuel + 1) v redact)
      (m.accept host' (fuel + 1) w redact) := by
  have hregular := hm.everywhere.entries (resolves_of_resolve? hes)
  rw [accept_succ, accept_succ, ho, ho', hes, hes']
  dsimp only [Run.ofOption]
  rw [pure_bind, pure_bind]
  exact Options.reports_accept hregular hkeys h hdefault

theorem alike_zero : Alike host host' 0 := by
  intro m _ s redact
  rw [accept_zero, accept_zero]
  exact .error (.other (by simp) rfl)

theorem reports_specFields (h : ∀ n < fuel, Alike host host' n) (spec : OptionSpec)
    (redact : Bool) :
    Reports (· = .exhausted) (fun _ _ => True) (specFields.accept host fuel spec.toValue redact)
      (specFields.accept host' fuel spec.bodiless.toValue redact) := by
  cases fuel with
  | zero =>
    rw [accept_zero, accept_zero]
    exact .error (.other (by simp) rfl)
  | succ fuel =>
    have hbelow : ∀ n < fuel, Alike host host' n := fun n hn => h n (Nat.lt_succ_of_lt hn)
    have hfields := sameFields_alike hbelow spec
    rw [OptionSpec.toValue_eq, OptionSpec.toValue_eq]
    refine reports_accept_of_entries .fields (resolve?_entries _ _ _) (resolve?_entries _ _ _) rfl
      rfl ?_ (fun d hd => ?_) (fun e he v hv => ?_) redact
    · have hatoms := congrArg (List.map Value.atom) (map_fst_eq_of_forall₂ hfields)
      rw [List.map_map, List.map_map] at hatoms
      apply Pairs.keys_congr
      rw [List.map_map, List.map_map]
      exact hatoms
    · obtain ⟨key, field⟩ := d
      rw [Entry.expand_eq (Pairs.pairwise_keys _)] at hd
      rcases List.mem_append.1 hd with hd | hd
      · obtain ⟨e, he, hkey, rfl⟩ := Entry.mem_explicit.1 hd
        have hentry := fieldEntry_of_mem rfl he
        obtain ⟨name, hname⟩ : ∃ name, e.key = .atom name := by
          cases hentry <;> exact ⟨_, rfl⟩
        rw [hname] at hkey
        cases hkey
        have hlookup := hfields.rel_lookup name
        rw [← Pairs.find?_map_atom, ← Pairs.find?_map_atom] at hlookup
        exact optionRel_imp (fun _ _ hvw => hvw e hentry hname) hlookup
      · cases hd
    · cases fieldEntry_of_mem rfl he with
      | type =>
        cases hv
        exact OptionType.alike_typeCheck (.basic .any) hbelow
      | plain _ hbasic =>
        rw [hbasic]
        exact OptionType.alike_basic _ v
      | keys | default | doc => cases hv

theorem alike_rules (h : ∀ n < fuel, Alike host host' n) (spec : OptionSpec) :
    OptionType.Alike host host' fuel (.keywordListOf specFields) spec.toValue
      spec.bodiless.toValue := by
  cases fuel with
  | zero => exact OptionType.alike_zero _ _ _
  | succ fuel =>
    intro label cx
    have hspec := reports_specFields (fun n hn => h n (Nat.lt_succ_of_lt hn)) spec cx.redact
    rw [OptionSpec.toValue_eq, OptionSpec.toValue_eq] at hspec ⊢
    rw [OptionType.accept_container _ _ _ _ _ rfl, OptionType.accept_container _ _ _ _ _ rfl]
    exact hspec.mapRejection fun _ _ he => he.under _

theorem IsRoot.resolve? {m : Schema} (hm : m.IsRoot) (fuel : Nat) :
    (∀ host, m.resolve? host fuel = none) ∨
      ∀ host, m.resolve? host fuel = some [⟨.wildcard, .ofType (.keywordListOf specFields)⟩] := by
  cases hm with
  | metaSchema => exact .inr fun host => resolve?_entries _ _ _
  | reference handle =>
    cases fuel with
    | zero => exact .inl fun host => rfl
    | succ fuel => exact .inr fun host => resolve?_entries _ _ _

theorem IsRoot.isMeta {m : Schema} (hm : m.IsRoot) : m.IsMeta := by
  cases hm with
  | metaSchema => exact .root
  | reference handle => exact .reference handle

theorem forall₂_dataPairs (h : ∀ n < fuel, Alike host host' n) (es : List Entry) :
    List.Forall₂ (fun p q => p.1 = q.1 ∧
        OptionType.Alike host host' fuel (.keywordListOf specFields) p.2 q.2)
      (Entry.dataPairs es) (Entry.dataPairs (es.map Entry.bodiless)) := by
  unfold Entry.dataPairs
  rw [List.map_map, List.forall₂_map_left_iff, List.forall₂_map_right_iff, List.forall₂_same]
  intro e _
  dsimp only [Function.comp_apply]
  rw [Entry.key_revise, Entry.spec_revise]
  exact ⟨rfl, alike_rules h e.spec⟩

/-- The data form of a schema is accepted or rejected alike, whatever the bodies of the functions in
it and the functions of the calling program. -/
theorem alike (host host' : Host) (fuel : Nat) : Alike host host' fuel := by
  induction fuel using Nat.strongRecOn with
  | _ fuel ih =>
    intro m hm s redact
    cases fuel with
    | zero => exact alike_zero m hm s redact
    | succ fuel =>
      cases s with
      | deferred d =>
        rw [bodiless, revise, accept_succ, accept_succ]
        exact parallel_reject (ValidationError.SameReport.refl _)
      | entries es =>
        rw [bodiless, revise_entries]
        obtain ⟨o, ho, hpairs⟩ := ofValue?_toValue es
        obtain ⟨o', ho', hpairs'⟩ := ofValue?_toValue (es.map Entry.bodiless)
        rcases hm.resolve? fuel with hnone | hsome
        · rw [accept_succ, accept_succ, ho, ho', hnone, hnone]
          exact .error (.other (by simp) rfl)
        · have hrules := forall₂_dataPairs (fun n hn => ih n (Nat.lt_succ_of_lt hn)) es
          rw [← hpairs, ← hpairs'] at hrules
          refine reports_accept_of_entries hm.isMeta (hsome _) (hsome _) ho ho' ?_
            (fun d hd => ?_) (fun e he v hv => ?_) redact
          · exact Pairs.keys_congr (map_fst_eq_of_forall₂ hrules)
          · obtain ⟨e, he, hspec⟩ := Entry.spec_of_mem_expand (Pairs.pairwise_keys _) hd
            rw [List.mem_singleton] at he
            subst he
            rw [← hspec]
            exact Pairs.rel_find? hrules d.1
          · rw [List.mem_singleton] at he
            subst he
            cases hv

end Schema

end Conform
