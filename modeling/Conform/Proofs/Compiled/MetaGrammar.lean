import Mathlib.Data.List.Nodup
import Conform.Proofs.Compiled.DataCheck
import Conform.Proofs.Schema.Parsing

namespace Conform

open Run (Reads)

namespace Grammar

variable {host : Host}

theorem reads_iff {check : Value → ExceptT ReadError Run Schema} {v : Value} :
    Reads (OptionType.read check v) ↔ IsType (fun s => Reads (check s)) v := by
  -- The reader that gives what the check gives, and an error where the run of the check fails.
  let nested (s : Value) : Except ReadError Schema :=
    match (check s).run.result with
    | .ok outcome => outcome
    | .error _ => .error .deferredSchema
  have hnested : ∀ s u, (check s).run.result = .ok (.ok u) ↔ nested s = .ok u := by
    intro s u
    dsimp only [nested]
    cases (check s).run.result <;> simp
  have hcongruence : OptionType.Congruence fun (α : Type) (x : ExceptT ReadError Run α)
      (y : Except ReadError α) => ∀ a, x.run.result = .ok (.ok a) ↔ y = .ok a := by
    refine ⟨fun a b => ?_, fun e b => ?_, fun {α β x y f g} hxy hfg b => ?_⟩
    · change Except.ok (Except.ok a) = _ ↔ Except.ok a = _
      simp
    · change Except.ok (Except.error e) = _ ↔ Except.error e = _
      simp
    · rw [ExceptT.run_bind, Run.bind_eq_ok, except_bind_eq_ok]
      constructor
      · rintro ⟨_ | a, hx, hf⟩
        · cases hf
        · exact ⟨a, (hxy a).1 hx, (hfg a b).1 hf⟩
      · rintro ⟨a, hy, hg⟩
        exact ⟨.ok a, (hxy a).2 hy, (hfg a b).2 hg⟩
  have hread : ∀ t, (OptionType.read check v).run.result = .ok (.ok t) ↔
      OptionType.read nested v = .ok t := hcongruence.read v fun s _ => hnested s
  calc
    Reads (OptionType.read check v) ↔ ∃ t, OptionType.read nested v = .ok t := exists_congr hread
    _ ↔ IsType (fun s => ∃ u, nested s = .ok u ∧ True) v := by
      constructor
      · rintro ⟨t, ht⟩
        exact isType_of_read (r := fun _ => True) ht (by simp)
      · intro h
        obtain ⟨t, ht, -⟩ := read_of_isType h
        exact ⟨t, ht⟩
    _ ↔ IsType (fun s => Reads (check s)) v := by
      have hreads : (fun s => Reads (check s)) = fun s => ∃ u, nested s = .ok u ∧ True := by
        funext s
        exact propext (exists_congr fun u => by rw [hnested, and_true])
      rw [hreads]

/-- A nested schema is a function that produces one, or conforms to the schema of schemas. -/
def Admits (host : Host) (s : Value) : Prop :=
  s.isProducer = true ∨ metaSchema.Conforms host s

theorem reads_checkNested_iff {judge : Value → Run (Option ValidationError)} {s : Value} :
    Reads (Schema.checkNested judge s) ↔ s.isProducer = true ∨ (judge s).result = .ok none := by
  cases hs : s.isProducer with
  | true =>
    simp only [true_or, iff_true]
    exact ⟨.empty, by rw [Schema.checkNested_of_producer hs]; rfl⟩
  | false =>
    simp only [Bool.false_eq_true, false_or]
    constructor
    · rintro ⟨u, hu⟩
      rw [Schema.checkNested_of_data hs] at hu
      obtain ⟨judgement, hjudge, hu⟩ := Run.map_eq_ok.1 hu
      cases judgement with
      | none => exact hjudge
      | some e => cases hu
    · intro hjudge
      refine ⟨.empty, ?_⟩
      rw [Schema.checkNested_of_data hs]
      exact Run.map_eq_ok.2 ⟨none, hjudge, rfl⟩

theorem judge_eq_none_iff {fuel : Nat} {s : Value} (h : 5 * s.depth + 2 ≤ fuel) :
    (Schema.judge host fuel s).result = .ok none ↔ metaSchema.Conforms host s := by
  constructor
  · intro hjudge
    obtain ⟨n, hn⟩ := Run.judged_eq_none hjudge
    exact (Schema.decides_metaSchema fuel false).of_ok hn
  · intro hconforms
    rcases (Schema.decides_metaSchema fuel false).verdict (Schema.ends_accept_metaSchema h) with
      ⟨⟨n, hn⟩, -⟩ | ⟨-, hnot⟩
    · exact Run.judged_of_ok hn
    · exact absurd hconforms hnot

theorem member_typeCheck {t : Value} :
    (OptionType.custom typeCheck []).Member host t ↔ IsType (Admits host) t := by
  rw [OptionType.member_custom]
  constructor
  · rintro ⟨cast, fuel, hcall⟩
    cases fuel with
    | zero =>
      rw [Function.call_zero] at hcall
      cases hcall
    | succ fuel =>
      rw [Function.call_succ] at hcall
      obtain ⟨outcome, houtcome, hcast⟩ := Run.map_eq_ok.1 hcall
      cases outcome with
      | error e => simp [OptionType.checkAnswer, Value.ok, Value.error] at hcast
      | ok type =>
        refine (reads_iff.1 ⟨type, houtcome⟩).mono fun s _ hs => ?_
        refine (reads_checkNested_iff.1 hs).imp_right fun hjudge => ?_
        obtain ⟨n, hn⟩ := Run.judged_eq_none hjudge
        exact (Schema.decides_metaSchema fuel false).of_ok hn
  · intro h
    obtain ⟨type, htype⟩ : Reads (OptionType.read
        (Schema.checkNested (Schema.judge host (5 * t.depth + 2))) t) := by
      refine reads_iff.2 (h.mono fun s hs hadmits => reads_checkNested_iff.2 ?_)
      have hdepth := hs.depth_lt
      exact hadmits.imp_right (judge_eq_none_iff (by omega)).2
    refine ⟨t, 5 * t.depth + 3, ?_⟩
    rw [Function.call_succ]
    exact Run.map_eq_ok.2 ⟨.ok type, htype, rfl⟩

theorem conforms_metaReference {handle : Nat} {s : Value} :
    (Schema.metaReference handle).Conforms host s ↔ metaSchema.Conforms host s := by
  constructor
  · rintro ⟨hes, ho, hknown, hpresent, hrequired, hdefault⟩
    exact .intro (Schema.resolves_metaReference hes) ho hknown hpresent hrequired hdefault
  · rintro ⟨hes, ho, hknown, hpresent, hrequired, hdefault⟩
    exact .intro (.deferred hes) ho hknown hpresent hrequired hdefault

theorem member_nestedSchema {s : Value} :
    OptionType.nestedSchema.Member host s ↔ Admits host s := by
  have hfunction : (OptionType.function 0).Member host s ↔ s.isProducer = true := by
    rw [OptionType.member_function]
    cases s <;> simp [Value.isProducer]
  have hkeyword : (OptionType.keywordListOf (.metaReference 0)).Member host s ↔
      BasicType.keywordList.Member s ∧ metaSchema.Conforms host s := by
    rw [OptionType.member_container rfl, conforms_metaReference]
  have hmap : (OptionType.mapOfKeys (.metaReference 1)).Member host s ↔
      BasicType.map.Member s ∧ metaSchema.Conforms host s := by
    rw [OptionType.member_container rfl, conforms_metaReference]
  -- What conforms to a schema is a container of options.
  have hcontainer : metaSchema.Conforms host s →
      BasicType.keywordList.Member s ∨ BasicType.map.Member s := by
    rintro ⟨-, ho, -⟩
    unfold Options.ofValue? at ho
    split at ho <;> simp_all [BasicType.Member]
  rw [OptionType.nestedSchema, OptionType.member_union]
  simp only [List.mem_cons, List.not_mem_nil, or_false, exists_eq_or_imp, exists_eq_left,
    hfunction, hkeyword, hmap, Admits]
  constructor
  · rintro (h | h | h)
    · exact .inl h
    · exact .inr h.2
    · exact .inr h.2
  · rintro (h | h)
    · exact .inl h
    · exact .inr ((hcontainer h).imp (⟨·, h⟩) (⟨·, h⟩))

theorem member_docText {v : Value} :
    OptionType.docText.Member host v ↔ ∃ d : Doc, v = d.toValue := by
  rw [OptionType.docText, OptionType.member_union]
  simp only [List.mem_cons, List.not_mem_nil, or_false, exists_eq_or_imp, exists_eq_left,
    OptionType.member_basic, OptionType.member_oneOf]
  constructor
  · rintro (⟨text, rfl⟩ | ⟨choice, hchoice, heq⟩)
    · exact ⟨.text text, rfl⟩
    · rw [List.mem_singleton] at hchoice
      subst hchoice
      refine ⟨.hidden, ?_⟩
      change Value.beq _ _ = true at heq
      cases v <;> simp_all [Value.beq, Doc.toValue]
  · rintro ⟨d | -, rfl⟩
    · exact .inl ⟨d, rfl⟩
    · exact .inr ⟨.bool false, by simp, Value.beq_self_iff.2 rfl⟩

theorem ofValue?_of_fields? {w : Value} {fields : List (String × Value)}
    (h : fields? w = some fields) : Options.ofValue? w =
      some ⟨.keyword, fields.map fun f => (.atom f.1, f.2)⟩ := by
  unfold fields? at h
  split at h <;> cases h <;> rfl

theorem exists_of_declares {es : List Entry} (hatom : ∀ e ∈ es, ∃ name, e.key = .atom name)
    {pairs : List (Value × Value)} {key : Value} {spec : OptionSpec}
    (h : Entry.Declares es pairs key spec) :
    ∃ e ∈ es, ∃ name, e.key = .atom name ∧ key = .atom name ∧ spec = e.spec := by
  cases h with
  | @explicit e _ he hkey =>
    obtain ⟨name, hname⟩ := hatom e he
    rw [hname] at hkey
    exact ⟨e, he, name, hname, (Option.some.inj hkey).symm, rfl⟩
  | wildcard he hkey =>
    obtain ⟨name, hname⟩ := hatom _ he
    rw [hname] at hkey
    cases hkey

/-- Let entries have atoms as their keys, require nothing, and have defaults in their types only.
Then fields conform to them if each name is declared and its first value is in the type. -/
theorem conforms_fields {es : List Entry} {w : Value} {fields : List (String × Value)}
    (hes : Entry.DistinctKeys es) (hatom : ∀ e ∈ es, ∃ name, e.key = .atom name)
    (hplain : ∀ e ∈ es, e.spec.required = false ∧ e.spec.keys? = none ∧
      ∀ v, e.spec.default? = some v → e.spec.type.Member host v)
    (hw : fields? w = some fields) :
    (Schema.entries es).Conforms host w ↔
      ∀ f ∈ Pairs.firsts fields, ∃ e ∈ es, e.key = .atom f.1 ∧ e.spec.type.Member host f.2 := by
  have ho := ofValue?_of_fields? hw
  have htype : ∀ e ∈ es, e.spec.effectiveType = e.spec.type := fun e he => by
    rw [OptionSpec.effectiveType, (hplain e he).2.1]
  constructor
  · rintro ⟨hes', ho', hknown, hpresent, -, -⟩ f hf
    cases hes'
    cases ho.symm.trans ho'
    have hmem := Pairs.mem_of_mem_firsts hf
    obtain ⟨-, e, he, hkey⟩ := hknown (.atom f.1, f.2) (List.mem_map.2 ⟨f, hmem, rfl⟩)
    obtain ⟨name, hname⟩ := hatom e he
    have hkey : e.key = .atom f.1 := by
      rw [hname] at hkey ⊢
      simpa [SchemaKey.option?] using hkey
    refine ⟨e, he, hkey, ?_⟩
    rw [← htype e he]
    refine hpresent (.atom f.1) e.spec f.2 (.explicit he (by rw [hkey]; rfl)) ?_
    rw [Pairs.find?_map_atom]
    exact Pairs.mem_firsts_iff.1 hf
  · intro h
    refine .intro (.entries es) ho (fun p hp => ?_) (fun key spec v hkey hv => ?_)
      (fun key spec hkey _ => ?_) (fun key spec v hkey _ hv => ?_)
    · -- A field is declared under its name, as the first one of this name is.
      obtain ⟨f, hf, rfl⟩ := List.mem_map.1 hp
      obtain ⟨v, hv⟩ := Option.isSome_iff_exists.1
        (Pairs.isSome_find?.2 ⟨f, hf, beq_self_eq_true f.1⟩)
      rw [Pairs.find?_eq_lookup] at hv
      obtain ⟨e, he, hkey, -⟩ := h (f.1, v) (Pairs.mem_firsts_iff.2 hv)
      exact ⟨rfl, e, he, .inl (by rw [hkey]; rfl)⟩
    · obtain ⟨e, he, name, hname, rfl, rfl⟩ := exists_of_declares hatom hkey
      rw [Pairs.find?_map_atom] at hv
      obtain ⟨e', he', hname', hmember⟩ := h (name, v) (Pairs.mem_firsts_iff.2 hv)
      cases List.inj_on_of_nodup_map hes he he' (hname.trans hname'.symm)
      rwa [htype e he]
    · obtain ⟨e, he, name, -, -, rfl⟩ := exists_of_declares hatom hkey
      exact (hplain e he).1
    · obtain ⟨e, he, name, -, -, rfl⟩ := exists_of_declares hatom hkey
      rw [htype e he]
      exact (hplain e he).2.2 v hv

theorem isField_iff {es : List Entry} (hes : Schema.specFields = .entries es) {name : String}
    {v : Value} : IsField (Admits host) name v ↔
      ∃ e ∈ es, e.key = .atom name ∧ e.spec.type.Member host v := by
  cases hes
  simp only [List.mem_cons, List.not_mem_nil, or_false, exists_eq_or_imp, exists_eq_left,
    SchemaKey.atom.injEq, OptionSpec.ofType, member_typeCheck, member_nestedSchema, member_docText,
    OptionType.member_basic, BasicType.Member]
  constructor
  · intro h
    cases h <;> simp_all
  · rintro (⟨rfl, h⟩ | ⟨rfl, b, rfl⟩ | ⟨rfl, -⟩ | ⟨rfl, h⟩ | ⟨rfl, text, rfl⟩ | ⟨rfl, target, rfl⟩ |
      ⟨rfl, d, rfl⟩ | ⟨rfl, text, rfl⟩ | ⟨rfl, d, rfl⟩ | ⟨rfl, b, rfl⟩)
    · exact .type h
    · exact .required b
    · exact .default v
    · exact .keys h
    · exact .deprecated text
    · exact .renameTo target
    · exact .doc d
    · exact .subsection text
    · exact .typeDoc d
    · exact .redact b

theorem conforms_specFields {w : Value} {fields : List (String × Value)}
    (hw : fields? w = some fields) :
    Schema.specFields.Conforms host w ↔ RulesBy .firsts (Admits host) w := by
  have hany : (OptionType.custom typeCheck []).Member host (.atom "any") :=
    member_typeCheck.2 (.basic .any)
  have hfields : Schema.specFields.Conforms host w ↔
      ∀ f ∈ Pairs.firsts fields, IsField (Admits host) f.1 f.2 := by
    simp only [isField_iff rfl]
    refine conforms_fields ?_ ?_ ?_ hw
    · unfold Entry.DistinctKeys
      decide
    · simp
    · simp [OptionSpec.ofType, hany, OptionType.member_basic, BasicType.Member]
  rw [hfields]
  constructor
  · exact fun h => .intro hw h
  · rintro ⟨hw', h⟩
    cases hw.symm.trans hw'
    exact h

theorem member_rules {w : Value} :
    (OptionType.keywordListOf .specFields).Member host w ↔ RulesBy .firsts (Admits host) w := by
  have hkeyword : BasicType.keywordList.Member w ↔ ∃ fields, fields? w = some fields := by
    unfold fields?
    split <;> simp_all [BasicType.Member]
  rw [OptionType.member_container rfl, hkeyword]
  constructor
  · rintro ⟨⟨fields, hw⟩, h⟩
    exact (conforms_specFields hw).1 h
  · intro h
    obtain @⟨fields, _, hw, hfields⟩ := h
    exact ⟨⟨fields, hw⟩, (conforms_specFields hw).2 (.intro hw hfields)⟩

/-- What conforms is a container whose keys equal themselves, with rules under them that are of the
grammar as far as they count. -/
theorem conforms_iff_firsts {v : Value} : metaSchema.Conforms host v ↔
    ∃ o, Options.ofValue? v = some o ∧ (∀ p ∈ o.pairs, p.1.hasNaN = false) ∧
      ∀ p ∈ Pairs.firsts o.pairs, RulesBy .firsts (Admits host) p.2 := by
  rw [Schema.conforms_metaSchema]
  simp only [member_rules]
  constructor
  · rintro ⟨o, ho, h⟩
    refine ⟨o, ho, fun p hp => (h p hp).1, fun p hp => ?_⟩
    have hmem := Pairs.mem_of_mem_firsts hp
    exact (h p hmem).2 p.2 (Pairs.find?_of_mem_firsts hp (Value.beq_self_iff.2 (h p hmem).1))
  · rintro ⟨o, ho, hnan, h⟩
    refine ⟨o, ho, fun p hp => ⟨hnan p hp, fun w hw => ?_⟩⟩
    obtain ⟨q, hq, -, rfl⟩ := Pairs.exists_mem_firsts hw
    exact h q hq

theorem conforms_iff {v : Value} (hd : DistinctLevel v) {o : Options}
    (ho : Options.ofValue? v = some o) :
    metaSchema.Conforms host v ↔ ∀ p ∈ o.pairs, p.1.hasNaN = false ∧ IsRules (Admits host) p.2 := by
  have hrules : ∀ p ∈ o.pairs, RulesBy .firsts (Admits host) p.2 ↔ IsRules (Admits host) p.2 :=
    fun p hp => rulesBy_firsts (hd.fields o ho p hp)
  rw [conforms_iff_firsts]
  constructor
  · rintro ⟨o', ho', hnan, h⟩ p hp
    cases ho.symm.trans ho'
    rw [Pairs.firsts_of_distinct (hd.keys o ho)] at h
    exact ⟨hnan p hp, (hrules p hp).1 (h p hp)⟩
  · intro h
    refine ⟨o, ho, fun p hp => (h p hp).1, fun p hp => ?_⟩
    have hmem := Pairs.mem_of_mem_firsts hp
    exact (hrules p hmem).2 (h p hmem).2

end Grammar

end Conform
