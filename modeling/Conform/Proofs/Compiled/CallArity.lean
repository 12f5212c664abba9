import Conform.Proofs.Acceptance.Accountability
import Conform.Proofs.Compiled.DataForm
import Conform.Proofs.Compiled.Lawfulness

namespace Conform

namespace Schema

variable {host : Host} {s t : Schema}

/-- In a lawful schema without hidden entries the data forms of all levels conform: where a level is
produced this was checked, and elsewhere it follows from the level above. -/
theorem Lawful.conforms (h : s.Lawful host)
    (hexposed : s.Everywhere host Entry.Exposed fun _ => True) (ht : s.Within host t)
    {es : List Entry} (hes : t.Resolves host es) :
    metaSchema.Conforms host (entries es).toValue := by
  induction ht generalizing es with
  | refl => exact accepts_metaSchema.1 (h.data s es .refl (.inl rfl) hes)
  | @tail t u ht hu ih =>
    cases u with
    | deferred d => exact accepts_metaSchema.1 (h.data _ es (ht.tail hu) (.inr rfl) hes)
    | entries ds =>
      cases hes
      obtain ⟨es, hes, e, he, hmem⟩ := contains_iff.1 hu
      exact (entries_of_conforms (ih hes) (hexposed t es ht hes).1 he).2 _ hmem rfl

theorem Lawful.takesArguments (h : s.Lawful host)
    (hexposed : s.Everywhere host Entry.Exposed fun _ => True) :
    s.Everywhere host (fun _ => True) OptionType.TakesArguments := by
  intro t es ht hes
  refine ⟨trivial, fun e he => ?_⟩
  exact (entries_of_conforms (h.conforms hexposed ht hes) (hexposed t es ht hes).1 he).1

theorem takesArguments_metaSchema :
    metaSchema.Everywhere host (fun _ => True) OptionType.TakesArguments := by
  refine IsMeta.root.everywhere.mono (fun _ _ => trivial) fun t ht f args h => ?_
  obtain ⟨rfl, rfl⟩ := ht f args h
  rfl

theorem Everywhere.callsOnly (h : s.Everywhere host (fun _ => True) OptionType.TakesArguments) :
    s.CallsOnly host fun f args _ => args.length = f.arity :=
  h.mono (fun _ _ => trivial) fun _ ht f args _ _ hf _ => (ht f args hf).symm

/-- Let a schema compile whose producers have no state. If at no level entries are hidden by others
under the same key, validation calls each validator with as many arguments as it takes. -/
theorem length_of_called (hstateless : ∀ d, s.LeadsTo host d → d.producer.code.isStateless = true)
    (hexposed : s.Everywhere host Entry.Exposed fun _ => True) {limit : Nat} {c : Compiled}
    (hcompile : (s.compile host limit).result = .ok c) (fuel : Nat) (v : Value) {f : Function}
    {args : List Value} {returned : Value}
    (hcalled : .called f args returned ∈ (c.validate host fuel v).events) :
    args.length = f.arity := by
  obtain ⟨rfl, -, -⟩ := compile_eq_ok.1 hcompile
  have hlawful : s.Lawful host := lawful_of_compile hstateless hcompile
  have haccept : (s.accept host fuel v false).Accountable fun f args _ => args.length = f.arity :=
    ((Acceptance.invariant_accountable takesArguments_metaSchema.callsOnly).accept fuel).2.1 s
      (hlawful.takesArguments hexposed).callsOnly v false
  exact haccept.calls f args returned hcalled

end Schema

/-- A pool has a size, which the calling program compares with the largest one, and under any other
key a list of names, which it looks up. -/
def poolEntries : List Entry := [
  ⟨.atom "size", { type := .custom ⟨"atMost", 2, .host "atMost"⟩ [.integer 10] }⟩,
  ⟨.wildcard, .ofType (.listOf (.custom ⟨"known", 1, .host "known"⟩ []))⟩]

def poolsSchema : Schema :=
  .entries [⟨.string "pool",
    { type := .basic .map, keys? := some (.deferred ⟨.function "pool", 0⟩) }⟩]

/-- A calling program whose functions return what they are called with, as a value that is
accepted. -/
def poolHost : Host where
  call _ args := .ok (.list args)
  produce _ := .entries poolEntries

theorem poolsSchema_within {t : Schema} (h : poolsSchema.Within poolHost t) :
    t = poolsSchema ∨ t = .deferred ⟨.function "pool", 0⟩ := by
  let listed : List (Schema × List Entry) := [
    (poolsSchema, [⟨.string "pool",
      { type := .basic .map, keys? := some (.deferred ⟨.function "pool", 0⟩) }⟩]),
    (.deferred ⟨.function "pool", 0⟩, poolEntries)]
  have hlisted : ∀ x ∈ listed, x.1.Resolves poolHost x.2 ∧
      ∀ u ∈ x.2.flatMap fun e => e.spec.schemas, ∃ y ∈ listed, y.1 = u := by
    intro x hx
    simp only [listed, List.mem_cons, List.not_mem_nil, or_false] at hx
    rcases hx with rfl | rfl
    · exact ⟨.entries _, by simp [listed, OptionSpec.schemas]⟩
    · exact ⟨.deferred (.entries _), by simp [poolEntries, OptionSpec.schemas, OptionSpec.ofType]⟩
  obtain ⟨x, hx, rfl⟩ := Schema.within_listed hlisted ⟨_, .head _, rfl⟩ h
  simp only [listed, List.mem_cons, List.not_mem_nil, or_false] at hx
  rcases hx with rfl | rfl
  · exact .inl rfl
  · exact .inr rfl

/-- The size comes with the largest one, and a name comes alone. -/
theorem poolsSchema_called :
    let r := Compiled.validate poolHost 20 ⟨poolsSchema⟩ (.map [(.string "pool", .map [
      (.atom "size", .integer 3), (.string "blue", .list [.string "a", .string "b"])])])
    (∀ f args returned, .called f args returned ∈ r.events → args.length = f.arity) ∧
      ∃ f args returned, .called f args returned ∈ r.events ∧ f.arity = 2 := by
  intro r
  have hcompile : (poolsSchema.compile poolHost 60).result = .ok ⟨poolsSchema⟩ := by
    with_unfolding_all rfl
  have hstateless : ∀ d, poolsSchema.LeadsTo poolHost d → d.producer.code.isStateless = true := by
    intro d hd
    rcases poolsSchema_within hd with h | h
    · cases h
    · cases h
      rfl
  have hexposed : poolsSchema.Everywhere poolHost Entry.Exposed fun _ => True := by
    intro t es ht hes
    refine ⟨?_, fun _ _ _ _ => trivial⟩
    rcases poolsSchema_within ht with rfl | rfl
    · cases hes
      exact Entry.exposed_of_distinct (by simp [Entry.DistinctKeys]) (by simp)
    · cases Schema.Resolves.unique hes (.deferred (.entries poolEntries))
      refine Entry.exposed_of_distinct ?_ (by simp [poolEntries, SchemaKey.wildcardName])
      simp [Entry.DistinctKeys, poolEntries]
  have hevents : r.events = [
      .called ⟨"atMost", 2, .host "atMost"⟩ [.integer 3, .integer 10]
        (.ok (.list [.integer 3, .integer 10])),
      .called ⟨"known", 1, .host "known"⟩ [.string "a"] (.ok (.list [.string "a"])),
      .called ⟨"known", 1, .host "known"⟩ [.string "b"] (.ok (.list [.string "b"]))] := by
    with_unfolding_all rfl
  constructor
  · exact fun f args returned h => Schema.length_of_called hstateless hexposed hcompile 20 _ h
  · rw [hevents]
    exact ⟨_, _, _, .head _, rfl⟩

/-- A port that is declared twice, the second time with a validator that needs an argument more. -/
def portEntries : List Entry := [
  ⟨.atom "port", .ofType (.basic .any)⟩,
  ⟨.atom "port", .ofType (.custom ⟨"check", 2, .host "check"⟩ [])⟩]

/-- The second declaration of the port is hidden from the check, and its validator is called without
its argument. -/
theorem portEntries_called :
    ((Schema.entries portEntries).compile poolHost 60).result = .ok ⟨.entries portEntries⟩ ∧
    (∀ d, ¬(Schema.entries portEntries).LeadsTo poolHost d) ∧
    ∃ f args returned, args.length ≠ f.arity ∧
      .called f args returned ∈ (Compiled.validate poolHost 20 ⟨.entries portEntries⟩
        (.keyword [("port", .integer 80)])).events := by
  have hwithin : ∀ d, ¬(Schema.entries portEntries).LeadsTo poolHost d := by
    intro d hd
    rcases hd.cases_head with hd | ⟨t, ht, -⟩
    · cases hd
    · obtain ⟨es, hes, e, he, hmem⟩ := Schema.contains_iff.1 ht
      cases hes
      simp only [portEntries, List.mem_cons, List.not_mem_nil, or_false] at he
      rcases he with rfl | rfl <;> simp [OptionSpec.schemas, OptionSpec.ofType] at hmem
  have hevents : (Compiled.validate poolHost 20 ⟨.entries portEntries⟩
      (.keyword [("port", .integer 80)])).events =
        [.called ⟨"check", 2, .host "check"⟩ [.integer 80] (.ok (.list [.integer 80]))] := by
    with_unfolding_all rfl
  refine ⟨by with_unfolding_all rfl, hwithin, ?_⟩
  rw [hevents]
  exact ⟨_, _, _, by simp, .head _⟩

end Conform
