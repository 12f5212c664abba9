import Conform.Proofs.Compiled.DataForm
import Conform.Proofs.Compiled.Recognition
import Conform.Proofs.Value.Canonical

namespace Conform

open Run

namespace OptionType

theorem read_of_canonical {m : Type → Type} [Monad m] [MonadExceptOf ReadError m]
    (nested : Value → m Schema) {v : Value} (h : v.Canonical) :
    read nested v = throw (.unknownType v) := by
  cases h <;> rw [read] <;> simp

end OptionType

/-- No entry states a type or has its option renamed, at any level. -/
inductive Schema.Untyped : Schema → Prop where
  | entries {es} : (∀ e ∈ es, e.spec.type = .basic .any ∧ e.spec.renameTo? = none) →
      (∀ e ∈ es, ∀ keys, e.spec.keys? = some keys → Untyped keys) → Untyped (.entries es)

theorem Value.Canonical.get? {v w key : Value} (h : v.Canonical) (hw : v.get? key = some w) :
    w.Canonical := by
  cases h with
  | keyword hpairs =>
    cases key with
    | atom name =>
      obtain ⟨before, after, rfl, -⟩ := List.lookup_eq_some_iff.1 hw
      exact hpairs (name, w) (by simp)
    | _ => cases hw
  | _ => cases hw

theorem Value.Canonical.pairs {v : Value} (h : v.Canonical) {o : Options}
    (ho : Options.ofValue? v = some o) : ∀ p ∈ o.pairs, p.2.Canonical := by
  cases h with
  | keyword hpairs =>
    cases ho
    intro p hp
    obtain ⟨f, hf, rfl⟩ := List.mem_map.1 hp
    exact hpairs f hf
  | @list items =>
    cases items <;> cases ho
    simp
  | _ => cases ho

theorem OptionSpec.untyped_of_read {nested : Value → Except ReadError Schema} {v : Value}
    (hv : v.Canonical) {spec : OptionSpec} (h : read nested v = .ok spec) :
    spec.type = .basic .any ∧ spec.renameTo? = none := by
  obtain ⟨htype, -, hrename⟩ := Grammar.of_read h
  constructor
  · cases ht : v.get? (.atom "type") with
    | none =>
      rw [ht] at htype
      exact (Except.ok.inj htype).symm
    | some t =>
      rw [ht] at htype
      change OptionType.read nested t = _ at htype
      rw [OptionType.read_of_canonical _ (hv.get? ht)] at htype
      cases htype
  · rw [hrename]
    cases ht : v.get? (.atom "rename_to") with
    | none => rfl
    | some t => cases hv.get? ht <;> rfl

theorem OptionSpec.exists_keys_of_read {nested : Value → Except ReadError Schema} {v : Value}
    {spec : OptionSpec} (h : read nested v = .ok spec) {keys : Schema}
    (hkeys : spec.keys? = some keys) :
    ∃ w, v.get? (.atom "keys") = some w ∧ nested w = .ok keys := by
  obtain ⟨-, hread, -⟩ := Grammar.of_read h
  rw [hkeys] at hread
  cases hw : v.get? (.atom "keys") with
  | none =>
    rw [hw] at hread
    cases hread
  | some w =>
    rw [hw] at hread
    obtain ⟨t, ht, hsome⟩ := except_map_eq_ok.1 hread
    cases hsome
    exact ⟨w, rfl, ht⟩

theorem Schema.untyped_of_readWithin {n : Nat} {v : Value} (hv : v.Canonical) {s : Schema}
    (h : readWithin n v = .ok s) : s.Untyped := by
  induction n generalizing v s with
  | zero => cases h
  | succ n ih =>
    obtain ⟨o, es, ho, hes, rfl⟩ := Grammar.readWithin_eq_ok.1 h
    refine .entries (fun e he => ?_) fun e he keys hkeys => ?_
    · obtain ⟨p, hread, hp⟩ := (Grammar.exists_readAs hes).2 e he
      exact OptionSpec.untyped_of_read (hv.pairs ho p hp) hread.spec
    · obtain ⟨p, hread, hp⟩ := (Grammar.exists_readAs hes).2 e he
      obtain ⟨w, hw, hreadKeys⟩ := OptionSpec.exists_keys_of_read hread.spec hkeys
      exact ih ((hv.pairs ho p hp).get? hw) hreadKeys

/-- Whatever a document says, a schema that is read from it has no types and no renamed options. -/
theorem Schema.untyped_of_ofValue {host : Host} {fuel : Nat} {v : Value} (hv : v.Canonical)
    {s : Schema} (h : (ofValue host fuel v).result = .ok s) : s.Untyped :=
  untyped_of_readWithin hv (ofValue_eq_ok.1 h).2.1

theorem SchemaKey.fieldName_toValue (k : SchemaKey) : k.toValue.fieldName = k.name := by
  cases k <;> rfl

theorem OptionSpec.canon_toValue (spec : OptionSpec) :
    spec.toValue.canon = .keyword (spec.fields.map fun f => (f.1, f.2.canon)) := by
  rw [toValue_eq, Value.canon, Value.canonFields_eq_map]

/-- In a document the keys of a schema are names, whatever kind of key they are of. -/
theorem Schema.canon_toValue (es : List Entry) : (entries es).toValue.canon =
    .keyword (es.map fun e => (e.key.name, e.spec.toValue.canon)) := by
  have hpairs : Value.canonPairs (Entry.dataPairs es) =
      es.map fun e => (e.key.name, e.spec.toValue.canon) := by
    rw [Value.canonPairs_eq_map, Entry.dataPairs, List.map_map]
    exact List.map_congr_left fun e _ => by simp [SchemaKey.fieldName_toValue]
  rcases toValue_entries es with h | ⟨pairs, h, hnames⟩
  · rw [h, Value.canon, hpairs]
  · rw [h, Value.canon, Value.canonFields_eq_map, ← hpairs, ← hnames, Value.canonPairs_eq_map,
      List.map_map]
    rfl

theorem OptionSpec.exists_field {es : List Entry} (hes : Schema.specFields = .entries es)
    {spec : OptionSpec} {f : String × Value} (hf : f ∈ spec.fields) :
    ∃ e ∈ es, e.key = .atom f.1 := by
  cases hes
  simp only [OptionSpec.fields, List.mem_cons, List.mem_append, Value.mem_flag, Value.mem_field?,
    or_assoc] at hf
  rcases hf with rfl | ⟨-, rfl⟩ | ⟨_, -, rfl⟩ | ⟨_, -, rfl⟩ | ⟨_, -, rfl⟩ | ⟨_, -, rfl⟩ |
    ⟨_, -, rfl⟩ | ⟨_, -, rfl⟩ | ⟨_, -, rfl⟩ | ⟨-, rfl⟩ <;> simp

theorem Options.accept_of_first {acceptance : Acceptance} {redact : Bool} {es : List Entry}
    (hes : Entry.Regular es) {o : Options} (hknown : unknown es o = []) {d : Value × OptionSpec}
    {v : Value} {f : Failure} (hfirst : (Entry.expand es (Pairs.keys o.pairs)).head? = some d)
    (hv : Pairs.find? o.pairs d.1 = some v)
    (hfails : (acceptance d.2.effectiveType (.option d.1) v ⟨d.1, redact || d.2.redact⟩).result =
      .error f) : (o.accept acceptance redact es).result = .error f := by
  obtain ⟨after, hfirst⟩ := List.head?_eq_some_iff.1 hfirst
  rw [accept_of_known hes hknown, hfirst, map_eq_error, ← List.nil_append (d :: after)]
  refine settleAll_eq_error (by simp) ?_
  rw [OptionSpec.settle_eq_error, hv]
  exact .inr ⟨by simp, v, rfl, by rwa [OptionSpec.result_acceptValue]⟩

def ValidationError.unknownType (path : List Value) (v : Value) : ValidationError where
  key := .single (.atom "type")
  keysPath := path
  reason := .stated (ReadError.unknownType v).message
  value? := some v

section

variable {host : Host} {fuel : Nat}

theorem OptionType.accept_typeCheck {v : Value} (hv : v.Canonical) (label : Label) :
    ((custom typeCheck []).accept host (fuel + 2) label v ⟨.atom "type", false⟩).result =
      .error (.invalid (.unknownType [] v)) := by
  rw [accept_custom, Function.call_succ]
  simp only [typeCheck, read_of_canonical _ hv]
  rfl

theorem Schema.accept_specFields {fields : List (String × Value)} {v : Value}
    (hnames : ∀ es, specFields = .entries es → ∀ f ∈ fields, ∃ e ∈ es, e.key = .atom f.1)
    (htype : fields.lookup "type" = some v) (hv : v.Canonical) :
    (specFields.accept host (fuel + 3) (.keyword fields) false).result =
      .error (.invalid (.unknownType [] v)) := by
  have heverywhere : specFields.Everywhere host Entry.Regular OptionType.ChecksTypes :=
    IsMeta.fields.everywhere
  -- The type is the first field to be declared, so it decides, whatever else the rules say.
  rw [accept_succ, specFields, resolve?_entries]
  refine Options.accept_of_first (heverywhere.entries (.entries _)) ?_ rfl ?_
    (OptionType.accept_typeCheck hv (.option (.atom "type")))
  · refine Options.unknown_eq_nil_iff.2 fun p hp => ?_
    obtain ⟨f, hf, rfl⟩ := List.mem_map.1 hp
    obtain ⟨e, he, hkey⟩ := hnames _ rfl f hf
    exact ⟨rfl, e, he, .inl (by rw [hkey]; rfl)⟩
  · rw [← htype, ← Pairs.find?_map_atom]

theorem Schema.ofValue_of_type {name : String} {fields rest : List (String × Value)} {v : Value}
    (hnames : ∀ es, specFields = .entries es → ∀ f ∈ fields, ∃ e ∈ es, e.key = .atom f.1)
    (htype : fields.lookup "type" = some v) (hv : v.Canonical) :
    (ofValue host (fuel + 5) (.keyword ((name, .keyword fields) :: rest))).result =
      .error (.fault (.invalidSchema (.unknownType [.atom name] v))) := by
  have heverywhere : metaSchema.Everywhere host Entry.Regular OptionType.ChecksTypes :=
    IsMeta.root.everywhere
  have hrejected : (metaSchema.accept host (fuel + 5) (.keyword ((name, .keyword fields) :: rest))
      false).result = .error (.invalid (.unknownType [.atom name] v)) := by
    -- The wildcard covers the keys in the order in which they are given.
    rw [accept_succ, metaSchema, resolve?_entries]
    refine Options.accept_of_first (d := (.atom name, .ofType (.keywordListOf specFields)))
      (v := .keyword fields) (heverywhere.entries (.entries _)) ?_ ?_ ?_ ?_
    · refine Options.unknown_eq_nil_iff.2 fun p hp => ?_
      obtain ⟨f, -, rfl⟩ := List.mem_map.1 hp
      exact ⟨rfl, _, List.mem_singleton_self _, .inr rfl⟩
    · rw [Entry.expand_eq (Pairs.pairwise_keys _), List.map_cons, Pairs.keys_cons]
      rfl
    · rw [List.map_cons, Pairs.find?_cons, if_pos (Value.beq_self_iff.2 rfl)]
    · rw [OptionType.accept_container host (fuel + 3) _ _ _ rfl]
      exact mapRejection_eq_invalid.2 ⟨_, accept_specFields hnames htype hv, rfl⟩
  exact bind_eq_error.2 (.inl (bind_eq_error.2 (.inr ⟨_, judged_of_invalid hrejected, rfl⟩)))

end

/-- A schema that is written to a document and read from there again is refused, whatever it is,
unless it has no entries. The error is about the type of its first entry, which is none any more. -/
theorem Schema.ofValue_written (host : Host) (fuel : Nat) (es : List Entry) :
    ∃ data, Value.decode (Data.ofJson (entries es).toValue.toJson.writable) = .ok data ∧
      (ofValue host (fuel + 5) data).result =
        match es with
        | [] => .ok (.entries [])
        | e :: _ => .error (.fault (.invalidSchema
            (.unknownType [.atom e.key.name] e.spec.type.toValue.canon))) := by
  refine ⟨(entries es).toValue.canon, by rw [Value.decode_ofJson, Value.ofJson_writable], ?_⟩
  cases es with
  | nil => rfl
  | cons e es =>
    rw [canon_toValue, List.map_cons, OptionSpec.canon_toValue]
    refine ofValue_of_type (fun ds hds f hf => ?_) rfl (Value.canonical_canon _)
    obtain ⟨g, hg, rfl⟩ := List.mem_map.1 hf
    exact OptionSpec.exists_field (f := g) hds hg

def portSchema : Schema := .entries [⟨.atom "port", .ofType (.basic .integer)⟩]

def portHost : Host where
  call _ _ := .nil
  produce _ := .empty

/-- The schema compiles. In a document its type is the string `integer`, which is no type. -/
theorem portSchema_lost :
    (portSchema.compile portHost 12).result = .ok ⟨portSchema⟩ ∧
    ∃ data, Value.decode (Data.ofJson portSchema.toValue.toJson.writable) = .ok data ∧
      data = .keyword [("port", .keyword [("type", .string "integer")])] ∧
      ∀ s, (Schema.ofValue portHost 12 data).result ≠ .ok s := by
  refine ⟨by with_unfolding_all rfl, .keyword [("port", .keyword [("type", .string "integer")])],
    by with_unfolding_all rfl, rfl, ?_⟩
  obtain ⟨e, hrefused⟩ : ∃ e, (Schema.ofValue portHost 12
      (.keyword [("port", .keyword [("type", .string "integer")])])).result = .error e := by
    refine ⟨_, Schema.ofValue_of_type (fun es hes => ?_) rfl (.string "integer")⟩
    cases hes
    simp
  intro s hs
  cases hrefused.symm.trans hs

end Conform
