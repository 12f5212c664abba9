import Conform.Proofs.Compiled.DataForm
import Conform.Proofs.Compiled.Recognition
import Conform.Proofs.Schema.Renewal

namespace Conform

theorem OptionType.Readable.takesArguments {t : OptionType} (h : t.Readable) :
    t.TakesArguments := by
  rintro f args rfl
  exact h

theorem OptionType.Readable.unspent {t : OptionType} (h : t.Readable) : t.Unspent := by
  cases t with
  | oneOf choices =>
    cases choices with
    | values vs => exact trivial
    | range low high spent => exact (Choices.range.inj h).2.2.symm
  | _ => exact trivial

theorem OptionType.read_toValue_of_readable {nested : Value → Except ReadError Schema}
    {t : OptionType} (hparts : ∀ u, Part u t → u.Readable)
    (hnested : ∀ s ∈ t.schemas, nested s.toValue = .ok s.renewed) :
    read nested t.toValue = .ok t.renewed := by
  -- The check that passes every schema succeeds on a readable type.
  let check : Value → ExceptT ReadError Run Schema := fun _ => pure .empty
  have hcheck : Run.Reads (read check t.toValue) := by
    refine Grammar.reads_iff.2 (Grammar.isType_toValue t |>.2 ⟨fun u hu => ?_, fun s _ => ?_⟩)
    · exact (hparts u (part_of_mem_parts t hu)).takesArguments
    · exact ⟨.empty, rfl⟩
  exact read_toValue t (fun n hn => hparts _ hn)
    (fun u b s hu hs _ => hnested s (mem_schemas.2 ⟨u, b, hu, hs⟩)) hcheck

namespace Schema

open Grammar

namespace Readable

variable {host : Host} {n fuel : Nat} {s : Schema}

theorem read (h : s.Readable) (hn : s.toValue.depth ≤ n) :
    readWithin n s.toValue = .ok s.renewed := by
  induction h generalizing n with
  | @entries es hkeys hparts _ ih =>
    cases n with
    | zero =>
      have := (Schema.entries es).toValue.depth_pos
      omega
    | succ n =>
      refine readWithin_toValue hkeys fun e he => ?_
      have hlt := depth_lt_toValue he
      apply OptionSpec.read_renewed
      · refine OptionType.read_toValue_of_readable (hparts e he) fun t ht => ?_
        obtain ⟨u, b, hu, hs⟩ := OptionType.mem_schemas.1 ht
        have htype := OptionSpec.depth_lt_toValue e.spec.lookup_type
        have hpart := OptionType.depth_lt_of_part hu hs
        exact ih e he t (OptionSpec.mem_schemas.2 (.inr ht)) (by omega)
      · intro t ht
        have hlookup : e.spec.fields.lookup "keys" = some t.toValue := by
          rw [OptionSpec.lookup_keys, ht]
          rfl
        have hfield := OptionSpec.depth_lt_toValue hlookup
        exact ih e he t (OptionSpec.mem_schemas.2 (.inl ht)) (by omega)

theorem unspent (h : s.Readable) : s.Unspent := by
  induction h with
  | entries _ hparts _ ih => exact .entries (fun e he u hu => (hparts e he u hu).unspent) ih

theorem conforms (h : s.Readable) : metaSchema.Conforms host s.toValue := by
  induction h with
  | entries _ hparts _ ih =>
    refine conforms_of_entries (fun e he u hu => ?_) fun e he t ht _ => ih e he t ht
    exact (hparts e he u hu).takesArguments

theorem ofValue (h : s.Readable) (hs : s.Orderly) (hfuel : 5 * s.toValue.depth + 2 ≤ fuel) :
    (Schema.ofValue host fuel s.toValue).result = .ok s := by
  have hdata : (checkData host fuel [] s.toValue).result = .ok () :=
    (checkData_eq_ok hfuel).2 (accepts_metaSchema.2 h.conforms)
  have hread : Schema.read s.toValue = .ok s :=
    (h.read (Nat.le_refl _)).trans (congrArg _ h.unspent.renewed_eq)
  obtain ⟨_, hplaced⟩ := (failsOnly_checkPlacement h.written).exists_ok (not_not.2 hs)
  exact ofValue_eq_ok.2 ⟨hdata, hread, hplaced⟩

end Readable

/-- A schema that is read from data, however it is spelled there, is read from its own data form
again, and is equal to itself if no value in it is different from itself. Five steps for each level
of the data form, and two more, are depth enough. -/
theorem ofValue_again {host : Host} {fuel fuel' : Nat} {v : Value} {s : Schema}
    (h : (ofValue host fuel v).result = .ok s) (hfuel : 5 * s.toValue.depth + 2 ≤ fuel') :
    (ofValue host fuel' s.toValue).result = .ok s ∧ (s.Comparable → (s == s) = true) := by
  obtain ⟨-, hread, horderly⟩ := conforms_of_ofValue h
  have hreadable : s.Readable := readable_of_read hread
  refine ⟨hreadable.ofValue horderly hfuel, fun hs => ?_⟩
  have hself := hs.beq_renewed.2 hreadable.unspent
  rwa [hreadable.unspent.renewed_eq] at hself

end Schema

/-- The hosts are declared twice, and so is any other key. A field that is repeated does not
count. -/
def registryData : Value :=
  .map [
    (.string "hosts", .keyword [
      ("required", .bool false),
      ("type", TypeTag.list.data [TypeTag.keywordList.data [.list []]]),
      ("required", .bool true)]),
    (.atom "*", .keyword []),
    (.string "hosts", .keyword [("default", .float (.zero true)), ("type", .atom "float")]),
    (.atom "*", .keyword [("doc", .bool false)])]

def registrySchema : Schema := .entries [
  ⟨.string "hosts", { type := .listOf (.keywordListOf .empty) }⟩,
  ⟨.wildcard, { type := .basic .any }⟩,
  ⟨.string "hosts", { type := .basic .float, default? := some (.float (.zero true)) }⟩,
  ⟨.wildcard, { type := .basic .any, doc? := some .hidden }⟩]

theorem comparable_registrySchema : registrySchema.Comparable := by
  have hempty : Schema.empty.Comparable := .entries (by simp) (by simp) (by simp)
  refine .entries ?_ ?_ ?_
  · simp [Number.Binary64.zero, Value.hasNaN]
  · simp [← OptionType.mem_parts_iff, OptionType.parts, OptionType.Comparable]
  · simp [OptionSpec.schemas, hempty]

/-- The repeated rules are kept, in a keyword list each, and are read once more. -/
theorem registryData_again :
    (Schema.ofValue .bare 40 registryData).result = .ok registrySchema ∧
    (Schema.ofValue .bare 40 registrySchema.toValue).result = .ok registrySchema ∧
    (registrySchema == registrySchema) = true := by
  have hread : (Schema.ofValue .bare 40 registryData).result = .ok registrySchema := by
    with_unfolding_all rfl
  have hdepth : registrySchema.toValue.depth = 5 := by with_unfolding_all rfl
  have hfuel : 5 * registrySchema.toValue.depth + 2 ≤ 40 := by omega
  obtain ⟨hagain, hself⟩ := Schema.ofValue_again hread hfuel
  exact ⟨hread, hagain, hself comparable_registrySchema⟩

end Conform
