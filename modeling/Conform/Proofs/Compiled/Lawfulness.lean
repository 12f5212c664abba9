import Conform.Proofs.Compiled.Search

namespace Conform

namespace Schema

variable {host : Host} {s t : Schema}

/-- The data forms of the schema and of every deferred schema to which it leads are accepted, and
the entries of every level are well placed. -/
structure Lawful (host : Host) (s : Schema) : Prop where
  data : ∀ t es, s.Within host t → t = s ∨ t.isDeferred = true → t.Resolves host es →
    metaSchema.Accepts host (entries es).toValue
  placed : ∀ t es, s.Within host t → t.Resolves host es → Entry.Placed es

variable {bad : Prop} {active done : List Code} {es : List Entry}

theorem explored_of_done (hdone : ∀ d, s.LeadsTo host d → d.producer.code ∈ done)
    (hplaced : ∀ t es, s.Within host t → t.Resolves host es → ¬Entry.Placed es → bad) :
    Explored host bad done active s := by
  induction s using inside_induction with
  | deferred d => exact .done (hdone d .refl)
  | entries es ih =>
    refine .entries (hplaced _ es .refl (.entries es)) fun e he t ht => ?_
    have hcontains : (entries es).Contains host t := contains_iff.2 ⟨es, .entries es, e, he, ht⟩
    refine ih e he t ht (fun d hd => hdone d (.head hcontains hd)) fun u us hu => ?_
    exact hplaced u us (.head hcontains hu)

theorem Explored.resolved (h : Explored host bad done [] s) (hclosed : Closed host bad [] done)
    (hstateless : ∀ d, s.LeadsTo host d → d.producer.code.isStateless = true)
    (hes : s.Resolves host es) : Explored host bad done [] (.entries es) := by
  cases h with
  | entries hplaced hinner =>
    cases hes
    exact .entries hplaced hinner
  | active hd => simp at hd
  | done hd =>
    obtain ⟨es', hes', -, hexplored⟩ := hclosed.explored _ hd
    cases hes.unique hes'
    exact hexplored
  | @produced _ d _ hd =>
    rw [hstateless d .refl] at hd
    cases hd

theorem Explored.within (h : Explored host bad done [] s) (hclosed : Closed host bad [] done)
    (hstateless : ∀ d, s.LeadsTo host d → d.producer.code.isStateless = true)
    (ht : s.Within host t) : Explored host bad done [] t := by
  induction ht with
  | refl => exact h
  | @tail t u hst htu ih =>
    obtain ⟨es, hes, e, he, hu⟩ := contains_iff.1 htu
    have hexplored := ih.resolved hclosed (fun d hd => hstateless d (hst.trans hd)) hes
    cases hexplored with
    | entries _ hinner => exact hinner e he u hu

theorem Explored.mem_done (h : Explored host bad done [] s) (hclosed : Closed host bad [] done)
    (hstateless : ∀ d, s.LeadsTo host d → d.producer.code.isStateless = true) {d : Deferred}
    (hd : s.LeadsTo host d) : d.producer.code ∈ done := by
  cases h.within hclosed hstateless hd with
  | active hmem => simp at hmem
  | done hmem => exact hmem
  | produced hstate =>
    rw [hstateless d hd] at hstate
    cases hstate

theorem unentangled_of_stateless
    (hstateless : ∀ d, s.LeadsTo host d → d.producer.code.isStateless = true) :
    s.Unentangled host := by
  intro d f d' hd _ _ _ hcode
  exact Producer.eq_of_code hcode (by rw [hcode]; exact hstateless d hd)

theorem lawful_of_compile (hstateless : ∀ d, s.LeadsTo host d → d.producer.code.isStateless = true)
    {fuel : Nat} {c : Compiled} (h : (s.compile host fuel).result = .ok c) : s.Lawful host := by
  obtain ⟨hdata, done, hclosed, hexplored⟩ :=
    explored_of_compile (unentangled_of_stateless hstateless) h
  constructor
  · intro t es ht hroot hes
    cases t with
    | entries es =>
      cases hes
      rcases hroot with rfl | hd
      · exact hdata rfl
      · cases hd
    | deferred d =>
      obtain ⟨es', hes', hdata, -⟩ :=
        hclosed.explored d (hexplored.mem_done hclosed hstateless ht)
      cases hes.unique hes'
      exact not_not.1 hdata
  · intro t es ht hes
    have hlevel := (hexplored.within hclosed hstateless ht).resolved hclosed
      (fun d hd => hstateless d (ht.trans hd)) hes
    cases hlevel with
    | entries hplaced _ => exact not_not.1 hplaced

/-- The codes to which a schema leads may all be taken as done. What is wrong on any of their levels
is wrong with the schema. -/
theorem closed_of_leadsTo (hstateless : ∀ d, s.LeadsTo host d → d.producer.code.isStateless = true)
    (hresolves : ∀ d, s.LeadsTo host d → ∃ es, (deferred d).Resolves host es)
    (hdone : ∀ x, x ∈ done ↔ ∃ d, s.LeadsTo host d ∧ d.producer.code = x) :
    Closed host (¬s.Lawful host) [] done where
  stateless x hx := by
    obtain ⟨d, hd, rfl⟩ := (hdone x).1 hx
    exact hstateless d hd
  explored d hd := by
    obtain ⟨f, hf, hcode⟩ := (hdone _).1 hd
    have hp : d.producer = f.producer :=
      Producer.eq_of_code hcode.symm (by rw [← hcode]; exact hstateless f hf)
    obtain ⟨fs, hfs⟩ := hresolves f hf
    refine ⟨fs, hfs.of_producer hp, fun hnot hlawful => ?_, ?_⟩
    · exact hnot (hlawful.data _ fs hf (.inr rfl) hfs)
    · apply explored_of_done
      · exact fun d' hd' => (hdone _).2 ⟨d', hf.trans (.of_entries hfs hd'), rfl⟩
      · intro t ts ht hts hnot hlawful
        rcases within_of_resolves hfs ht with rfl | ht
        · cases hts
          exact hnot (hlawful.placed _ fs hf hfs)
        · exact hnot (hlawful.placed t ts (Relation.ReflTransGen.trans hf ht) hts)

theorem exists_codes {family : List Producer}
    (hfamily : ∀ d, s.LeadsTo host d → d.producer ∈ family) :
    ∃ done : List Code, ∀ x, x ∈ done ↔ ∃ d, s.LeadsTo host d ∧ d.producer.code = x := by
  classical
  refine ⟨(family.map Producer.code).filter
    fun x => ∃ d, s.LeadsTo host d ∧ d.producer.code = x, fun x => ?_⟩
  rw [List.mem_filter, decide_eq_true_eq, and_iff_right_of_imp]
  rintro ⟨d, hd, rfl⟩
  exact List.mem_map_of_mem (hfamily d hd)

/-- Let a schema lead to deferred schemas from a finite family of producers without state only, all
of which stand for entries. With enough depth it compiles if and only if it is lawful, and otherwise
the check finds fault with it. -/
theorem compile_iff_lawful (family : List Producer)
    (hstateless : ∀ p ∈ family, p.code.isStateless = true)
    (hfamily : ∀ d, s.LeadsTo host d → d.producer ∈ family)
    (hresolves : ∀ d, s.LeadsTo host d → ∃ es, (deferred d).Resolves host es) :
    ∃ bound, ∀ fuel, bound ≤ fuel →
      ((∃ c, (s.compile host fuel).result = .ok c) ↔ s.Lawful host) ∧
      (¬s.Lawful host → ∃ f, (s.compile host fuel).result = .error (.fault f)) := by
  have hleads : ∀ d, s.LeadsTo host d → d.producer.code.isStateless = true :=
    fun d hd => hstateless _ (hfamily d hd)
  obtain ⟨es, hes⟩ : ∃ es, s.Resolves host es := by
    cases s with
    | entries es => exact ⟨es, .entries es⟩
    | deferred d => exact hresolves d .refl
  obtain ⟨done, hdone⟩ := exists_codes hfamily
  have hexplored : Explored host (¬s.Lawful host) done [] s :=
    explored_of_done (fun d hd => (hdone _).2 ⟨d, hd, rfl⟩)
      fun t es ht hes hnot hlawful => hnot (hlawful.placed t es ht hes)
  have hdata : s.isDeferred = false → ¬metaSchema.Accepts host s.toValue → ¬s.Lawful host := by
    intro hd hnot hlawful
    cases s with
    | entries es => exact hnot (hlawful.data _ es .refl (.inl rfl) (.entries es))
    | deferred d => cases hd
  obtain ⟨bound, hbound⟩ :=
    failsOnly_compile hes (closed_of_leadsTo hleads hresolves hdone) hexplored hdata
  refine ⟨bound, fun fuel hfuel => ?_⟩
  exact (hbound fuel hfuel).decides fun _ hc => lawful_of_compile hleads hc

end Schema

/-- A relay is passed on to its partner, which is a relay as well. -/
def relayEntries (partner : String) : List Entry := [
  ⟨.atom "next", { type := .listOf (.keywordListOf (.deferred ⟨.function partner, 0⟩)) }⟩,
  ⟨.atom "port", { type := .basic .integer }⟩]

/-- A calling program with two relays that refer to each other. -/
def relayHost : Host where
  call _ _ := .nil
  produce
    | .function "odd" => .entries (relayEntries "even")
    | _ => .entries (relayEntries "odd")

def relaySchema (t : BasicType) : Schema := .entries [
  ⟨.string "first", { type := .basic t, keys? := some (.deferred ⟨.function "even", 0⟩) }⟩]

def relays : List Producer := [.function "even", .function "odd"]

theorem relaySchema_leadsTo {t : BasicType} {d : Deferred}
    (h : (relaySchema t).LeadsTo relayHost d) : d.producer ∈ relays := by
  let listed : List (Schema × List Entry) := [
    (relaySchema t, [⟨.string "first",
      { type := .basic t, keys? := some (.deferred ⟨.function "even", 0⟩) }⟩]),
    (.deferred ⟨.function "even", 0⟩, relayEntries "odd"),
    (.deferred ⟨.function "odd", 0⟩, relayEntries "even")]
  have hlisted : ∀ x ∈ listed, x.1.Resolves relayHost x.2 ∧
      ∀ u ∈ x.2.flatMap fun e => e.spec.schemas, ∃ y ∈ listed, y.1 = u := by
    intro x hx
    simp only [listed, List.mem_cons, List.not_mem_nil, or_false] at hx
    rcases hx with rfl | rfl | rfl
    · exact ⟨.entries _, by simp [listed, OptionSpec.schemas]⟩
    · exact ⟨.deferred (.entries _), by simp [listed, relayEntries, OptionSpec.schemas]⟩
    · exact ⟨.deferred (.entries _), by simp [listed, relayEntries, OptionSpec.schemas]⟩
  obtain ⟨x, hx, hd⟩ := Schema.within_listed hlisted ⟨_, .head _, rfl⟩ h
  simp only [listed, List.mem_cons, List.not_mem_nil, or_false] at hx
  rcases hx with rfl | rfl | rfl
  · cases hd
  all_goals
    cases hd
    simp [relays]

theorem relaySchema_resolves {d : Deferred} (h : d.producer ∈ relays) :
    ∃ es, (Schema.deferred d).Resolves relayHost es := by
  obtain ⟨producer, handle⟩ := d
  simp only [relays, List.mem_cons, List.not_mem_nil, or_false] at h
  rcases h with rfl | rfl
  · exact ⟨_, .deferred (.entries _)⟩
  · exact ⟨_, .deferred (.entries _)⟩

theorem relaySchema_compiles : (relaySchema .map).Lawful relayHost ∧
    ¬(relaySchema .integer).Lawful relayHost ∧
    ∃ bound, ∀ fuel, bound ≤ fuel →
      (∃ c, ((relaySchema .map).compile relayHost fuel).result = .ok c) ∧
      ∃ f, ((relaySchema .integer).compile relayHost fuel).result = .error (.fault f) := by
  have hstateless : ∀ p ∈ relays, p.code.isStateless = true := by decide
  have hlawful : (relaySchema .map).Lawful relayHost := by
    obtain ⟨c, hc⟩ : ∃ c, ((relaySchema .map).compile relayHost 60).result = .ok c :=
      ⟨_, by with_unfolding_all rfl⟩
    exact Schema.lawful_of_compile (fun d hd => hstateless _ (relaySchema_leadsTo hd)) hc
  have hunlawful : ¬(relaySchema .integer).Lawful relayHost := by
    intro h
    have hplaced := h.placed _ _ .refl (.entries _)
    have := hplaced.keys _ (List.mem_singleton_self _) rfl
    cases this
  obtain ⟨m, hm⟩ := Schema.compile_iff_lawful relays hstateless
    (fun d hd => relaySchema_leadsTo (t := .map) hd)
    fun d hd => relaySchema_resolves (relaySchema_leadsTo hd)
  obtain ⟨n, hn⟩ := Schema.compile_iff_lawful relays hstateless
    (fun d hd => relaySchema_leadsTo (t := .integer) hd)
    fun d hd => relaySchema_resolves (relaySchema_leadsTo hd)
  refine ⟨hlawful, hunlawful, m + n, fun fuel hfuel => ⟨?_, ?_⟩⟩
  · exact (hm fuel (by omega)).1.2 hlawful
  · exact (hn fuel (by omega)).2 hunlawful

end Conform
