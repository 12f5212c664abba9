import Conform.Proofs.Compiled.Search

namespace Conform

variable {host : Host} {es es' : List Entry}

theorem Entry.Placed.perm (h : Entry.Placed es) (hp : es.Perm es')
    (hname : ∀ e ∈ es, e.spec.renameTo? = none) : Entry.Placed es' where
  keys e he := h.keys e (hp.mem_iff.2 he)
  targets := by
    rintro before e later target rfl htarget
    rw [hname e (hp.mem_iff.2 (by simp))] at htarget
    cases htarget

namespace Schema

theorem accepts_toValue (hd : Entry.DistinctKeys es)
    (hreserved : ∀ e ∈ es, e.key ≠ .atom SchemaKey.wildcardName) :
    metaSchema.Accepts host (entries es).toValue ↔
      ∀ e ∈ es, (OptionType.keywordListOf specFields).Member host e.spec.toValue := by
  obtain ⟨o, ho, hpairs⟩ := ofValue?_toValue es
  have hdistinct := Entry.distinct_dataPairs hd hreserved
  rw [accepts_metaSchema, conforms_metaSchema_of_distinct ho (by rwa [hpairs]), hpairs]
  constructor
  · intro h e he
    exact (h _ (List.mem_map_of_mem he)).2
  · intro h p hp
    obtain ⟨e, he, rfl⟩ := List.mem_map.1 hp
    exact ⟨e.key.hasNaN_toValue, h e he⟩

theorem accepts_perm (hp : es.Perm es') (hd : Entry.DistinctKeys es)
    (hreserved : ∀ e ∈ es, e.key ≠ .atom SchemaKey.wildcardName) :
    metaSchema.Accepts host (entries es).toValue ↔
      metaSchema.Accepts host (entries es').toValue := by
  have hreserved' : ∀ e ∈ es', e.key ≠ .atom SchemaKey.wildcardName :=
    fun e he => hreserved e (hp.mem_iff.2 he)
  rw [accepts_toValue hd hreserved, accepts_toValue (hd.perm hp) hreserved']
  exact forall_congr' fun e => imp_congr hp.mem_iff Iff.rfl

theorem LeadsTo.perm (hp : es.Perm es') {d : Deferred} (h : (entries es').LeadsTo host d) :
    (entries es).LeadsTo host d := by
  rcases h.cases_head with h | ⟨t, ht, htd⟩
  · cases h
  · obtain ⟨ds, hds, e, he, hmem⟩ := contains_iff.1 ht
    cases hds
    exact .head (contains_iff.2 ⟨es, .entries es, e, hp.mem_iff.2 he, hmem⟩) htd

theorem Explored.perm {bad : Prop} {active done : List Code}
    (h : Explored host bad done active (.entries es)) (hp : es.Perm es')
    (hname : ∀ e ∈ es, e.spec.renameTo? = none) : Explored host bad done active (.entries es') := by
  cases h with
  | entries hplaced hinner =>
    have hname' : ∀ e ∈ es', e.spec.renameTo? = none := fun e he => hname e (hp.mem_iff.2 he)
    refine .entries (fun hnot => hplaced fun h => hnot (h.perm hp hname)) fun e he t ht => ?_
    exact hinner e (hp.mem_iff.2 he) t ht

/-- What compiles at some depth compiles at every greater one, beyond some bound, and in every
order. -/
theorem compile_of_perm (hp : es.Perm es') (hd : Entry.DistinctKeys es)
    (hreserved : ∀ e ∈ es, e.key ≠ .atom SchemaKey.wildcardName)
    (hname : ∀ e ∈ es, e.spec.renameTo? = none) (hs : (entries es).Unentangled host) {fuel : Nat}
    {c : Compiled} (h : ((entries es).compile host fuel).result = .ok c) :
    ∃ bound, ∀ fuel, bound ≤ fuel → ∃ c, ((entries es').compile host fuel).result = .ok c := by
  obtain ⟨hdata, done, hclosed, hexplored⟩ := explored_of_compile hs h
  have hdata' := (accepts_perm hp hd hreserved).1 (hdata rfl)
  obtain ⟨bound, hbound⟩ := failsOnly_compile (.entries es') hclosed (hexplored.perm hp hname)
    fun _ hnot => hnot hdata'
  exact ⟨bound, fun fuel hfuel => (hbound fuel hfuel).exists_ok not_false⟩

/-- Let a schema have pairwise different keys and no renamed options, and let no producer without
state stand between producers of one code with different states. With enough depth, it compiles if
and only if it compiles with its entries in another order. -/
theorem compile_perm (hp : es.Perm es') (hd : Entry.DistinctKeys es)
    (hreserved : ∀ e ∈ es, e.key ≠ .atom SchemaKey.wildcardName)
    (hname : ∀ e ∈ es, e.spec.renameTo? = none) (hs : (entries es).Unentangled host) :
    ∃ bound, ∀ fuel, bound ≤ fuel →
      ((∃ c, ((entries es).compile host fuel).result = .ok c) ↔
        ∃ c, ((entries es').compile host fuel).result = .ok c) := by
  have hd' : Entry.DistinctKeys es' := (hp.map Entry.key).nodup_iff.1 hd
  have hreserved' : ∀ e ∈ es', e.key ≠ .atom SchemaKey.wildcardName :=
    fun e he => hreserved e (hp.mem_iff.2 he)
  have hname' : ∀ e ∈ es', e.spec.renameTo? = none := fun e he => hname e (hp.mem_iff.2 he)
  have hs' : (entries es').Unentangled host := hs.of_leadsTo fun _ => LeadsTo.perm hp
  -- If one of them compiles at some depth, both compile from some depth on.
  by_cases hcompiles : ∃ fuel c, ((entries es).compile host fuel).result = .ok c
  · obtain ⟨fuel, c, hc⟩ := hcompiles
    obtain ⟨m, hm⟩ := compile_of_perm (.refl es) hd hreserved hname hs hc
    obtain ⟨n, hn⟩ := compile_of_perm hp hd hreserved hname hs hc
    exact ⟨m + n, fun fuel hfuel => iff_of_true (hm fuel (by omega)) (hn fuel (by omega))⟩
  · refine ⟨0, fun fuel _ => iff_of_false (fun ⟨c, hc⟩ => hcompiles ⟨fuel, c, hc⟩) ?_⟩
    rintro ⟨c, hc⟩
    obtain ⟨n, hn⟩ := compile_of_perm hp.symm hd' hreserved' hname' hs' hc
    obtain ⟨c, hc⟩ := hn n (Nat.le_refl n)
    exact hcompiles ⟨n, c, hc⟩

end Schema

def loopEntries : List Entry := [
  ⟨.atom "loop", .ofType (.listOf (.mapOfKeys (.deferred ⟨.function "loop", 0⟩)))⟩]

def panelEntries (side : String) : List Entry := [⟨.atom side, .ofType (.basic .integer)⟩]

/-- A calling program that makes panels with a closure, which has captured on which side they are.
-/
def panelHost : Host where
  call _ _ := .nil
  produce
    | .closure _ side => .entries (panelEntries side)
    | _ => .entries loopEntries

def windowEntries : List Entry := [
  ⟨.atom "left", .ofType (.keywordListOf (.deferred ⟨.closure "panel" "left", 0⟩))⟩,
  ⟨.atom "loop", .ofType (.keywordListOf (.deferred ⟨.function "loop", 0⟩))⟩,
  ⟨.atom "right", .ofType (.keywordListOf (.deferred ⟨.closure "panel" "right", 0⟩))⟩]

theorem loopEntries_leadsTo {d d' : Deferred} (hd : d.producer = .function "loop")
    (h : (Schema.deferred d).LeadsTo panelHost d') : d'.producer = .function "loop" := by
  obtain ⟨producer, handle⟩ := d
  subst hd
  let listed : List (Schema × List Entry) := [
    (.deferred ⟨.function "loop", handle⟩, loopEntries),
    (.deferred ⟨.function "loop", 0⟩, loopEntries)]
  have hlisted : ∀ x ∈ listed, x.1.Resolves panelHost x.2 ∧
      ∀ u ∈ x.2.flatMap fun e => e.spec.schemas, ∃ y ∈ listed, y.1 = u := by
    intro x hx
    simp only [listed, List.mem_cons, List.not_mem_nil, or_false] at hx
    rcases hx with rfl | rfl
    all_goals
      refine ⟨.deferred (.entries _), ?_⟩
      simp [listed, loopEntries, OptionSpec.ofType, OptionSpec.schemas]
  obtain ⟨x, hx, hd⟩ := Schema.within_listed hlisted ⟨_, .head _, rfl⟩ h
  simp only [listed, List.mem_cons, List.not_mem_nil, or_false] at hx
  rcases hx with rfl | rfl
  all_goals
    cases hd
    rfl

theorem windowEntries_leadsTo {d : Deferred}
    (h : (Schema.entries windowEntries).LeadsTo panelHost d) :
    d.producer = .function "loop" ∨ ∃ side, d.producer = .closure "panel" side := by
  let listed : List (Schema × List Entry) := [
    (.entries windowEntries, windowEntries),
    (.deferred ⟨.function "loop", 0⟩, loopEntries),
    (.deferred ⟨.closure "panel" "left", 0⟩, panelEntries "left"),
    (.deferred ⟨.closure "panel" "right", 0⟩, panelEntries "right")]
  have hlisted : ∀ x ∈ listed, x.1.Resolves panelHost x.2 ∧
      ∀ u ∈ x.2.flatMap fun e => e.spec.schemas, ∃ y ∈ listed, y.1 = u := by
    intro x hx
    simp only [listed, List.mem_cons, List.not_mem_nil, or_false] at hx
    rcases hx with rfl | rfl | rfl | rfl
    · exact ⟨.entries _, by simp [listed, windowEntries, OptionSpec.ofType, OptionSpec.schemas]⟩
    all_goals
      refine ⟨.deferred (.entries _), ?_⟩
      simp [listed, loopEntries, panelEntries, OptionSpec.ofType, OptionSpec.schemas]
  obtain ⟨x, hx, hd⟩ := Schema.within_listed hlisted ⟨_, .head _, rfl⟩ h
  simp only [listed, List.mem_cons, List.not_mem_nil, or_false] at hx
  rcases hx with rfl | rfl | rfl | rfl
  · cases hd
  all_goals
    cases hd
    simp

theorem unentangled_windowEntries : (Schema.entries windowEntries).Unentangled panelHost := by
  intro d f d' hd hf hstateless hd' hcode
  have hloop : f.producer = .function "loop" := by
    rcases windowEntries_leadsTo (hd.trans hf) with h | ⟨side, h⟩
    · exact h
    · rw [h] at hstateless
      cases hstateless
  have hloop' := loopEntries_leadsTo hloop hd'
  exact Producer.eq_of_code hcode (by rw [hloop']; rfl)

theorem windowEntries_reverse : (Schema.entries windowEntries).Unentangled panelHost ∧
    (∃ c, (Schema.compile panelHost 60 (.entries windowEntries)).result = .ok c) ∧
    ∃ bound, ∀ fuel, bound ≤ fuel →
      ((∃ c, (Schema.compile panelHost fuel (.entries windowEntries)).result = .ok c) ↔
        ∃ c, (Schema.compile panelHost fuel (.entries windowEntries.reverse)).result = .ok c) := by
  have hdistinct : Entry.DistinctKeys windowEntries := by
    unfold Entry.DistinctKeys
    decide
  exact ⟨unentangled_windowEntries, ⟨_, by with_unfolding_all rfl⟩, Schema.compile_perm
    windowEntries.reverse_perm.symm hdistinct (by decide) (by decide) unentangled_windowEntries⟩

def outerEntries : List Entry := [
  ⟨.atom "link", .ofType (.keywordListOf (.deferred ⟨.function "link", 0⟩))⟩]

def linkEntries : List Entry := [
  ⟨.atom "node", .ofType (.keywordListOf (.deferred ⟨.closure "node" "inner", 0⟩))⟩]

/-- A node that has keys where no keys may be. -/
def innerEntries : List Entry := [
  ⟨.atom "port", { type := .basic .integer, keys? := some .empty }⟩]

/-- A calling program that makes nodes with a closure, which has captured which one to make. -/
def nodeHost : Host where
  call _ _ := .nil
  produce
    | .function _ => .entries linkEntries
    | .closure _ "outer" => .entries outerEntries
    | .closure _ _ => .entries innerEntries
    | .metaSchema => .empty

def nodeEntries : List Entry := [
  ⟨.atom "node", .ofType (.keywordListOf (.deferred ⟨.closure "node" "outer", 0⟩))⟩,
  ⟨.atom "link", .ofType (.keywordListOf (.deferred ⟨.function "link", 0⟩))⟩]

theorem nodeEntries_regular :
    (Schema.entries nodeEntries).Everywhere nodeHost Entry.Regular (fun _ => True) := by
  let listed : List (Schema × List Entry) := [
    (.entries nodeEntries, nodeEntries),
    (.deferred ⟨.closure "node" "outer", 0⟩, outerEntries),
    (.deferred ⟨.function "link", 0⟩, linkEntries),
    (.deferred ⟨.closure "node" "inner", 0⟩, innerEntries),
    (.empty, [])]
  have hlisted : ∀ x ∈ listed, x.1.Resolves nodeHost x.2 ∧
      ∀ u ∈ x.2.flatMap fun e => e.spec.schemas, ∃ y ∈ listed, y.1 = u := by
    intro x hx
    simp only [listed, List.mem_cons, List.not_mem_nil, or_false] at hx
    rcases hx with rfl | rfl | rfl | rfl | rfl
    · exact ⟨.entries _, by simp [listed, nodeEntries, OptionSpec.ofType, OptionSpec.schemas]⟩
    · exact ⟨.deferred (.entries _),
        by simp [listed, outerEntries, OptionSpec.ofType, OptionSpec.schemas]⟩
    · exact ⟨.deferred (.entries _),
        by simp [listed, linkEntries, OptionSpec.ofType, OptionSpec.schemas]⟩
    · exact ⟨.deferred (.entries _), by simp [listed, innerEntries, OptionSpec.schemas]⟩
    · exact ⟨.entries _, by simp⟩
  intro t es ht hes
  obtain ⟨x, hx, rfl⟩ := Schema.within_listed hlisted ⟨_, .head _, rfl⟩ ht
  cases hes.unique (hlisted x hx).1
  simp only [listed, List.mem_cons, List.not_mem_nil, or_false] at hx
  refine ⟨?_, fun _ _ _ _ => trivial⟩
  rcases hx with rfl | rfl | rfl | rfl | rfl
  all_goals exact ⟨by unfold Entry.DistinctKeys; decide, by decide⟩

/-- Under the outer node the link is done without a look at the inner node. -/
theorem nodeEntries_order :
    (Schema.entries nodeEntries).Everywhere nodeHost Entry.Regular (fun _ => True) ∧
    nodeEntries.Perm nodeEntries.reverse ∧
    (∃ c, (Schema.compile nodeHost 60 (.entries nodeEntries)).result = .ok c) ∧
    ∀ fuel c, (Schema.compile nodeHost fuel (.entries nodeEntries.reverse)).result ≠ .ok c := by
  refine ⟨nodeEntries_regular, nodeEntries.reverse_perm.symm, ⟨_, by with_unfolding_all rfl⟩,
    fun fuel c h => ?_⟩
  obtain ⟨-, hcheck, -⟩ := Schema.compile_eq_ok.1 h
  obtain ⟨-, done, hwalk⟩ := Schema.check_eq_ok.1 hcheck
  obtain ⟨-, hwalk⟩ := Entry.walkAll_eq_ok.1 hwalk
  obtain ⟨done, hlink, -⟩ := Run.bind_eq_ok.1 hwalk
  -- The link comes first and is checked while no node is.
  rcases Deferred.check_eq_ok hlink with ⟨hmem, -⟩ | ⟨fuel, es, done, -, hes, -, hwalk, -⟩
  · simp at hmem
  · cases hes.unique (.deferred (.entries linkEntries))
    obtain ⟨-, hwalk⟩ := Entry.walkAll_eq_ok.1 hwalk
    obtain ⟨done, hnode, -⟩ := Run.bind_eq_ok.1 hwalk
    rcases Deferred.check_eq_ok hnode with ⟨hmem, -⟩ | ⟨fuel, es, done, -, hes, -, hwalk, -⟩
    · simp [Producer.code] at hmem
    · cases hes.unique (.deferred (.entries innerEntries))
      have hkeys := (Entry.walkAll_eq_ok.1 hwalk).1.keys _ (List.mem_singleton_self _) rfl
      cases hkeys

end Conform
