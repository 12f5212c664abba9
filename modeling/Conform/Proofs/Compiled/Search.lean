import Mathlib.Data.Finset.Card
import Conform.Proofs.Compiled.DataCheck
import Conform.Proofs.Compiled.Placement

namespace Conform

open Run

namespace Schema

variable (host : Host)

/-- The deferred schema is a level of the schema. -/
def LeadsTo (s : Schema) (d : Deferred) : Prop := s.Within host (.deferred d)

/-- A schema is explored up to the deferred schemas of active codes and of codes that are done.
Where something is wrong on the way, `bad` is the case. -/
inductive Explored (bad : Prop) (done : List Code) : List Code → Schema → Prop where
  | entries {active es} : (¬Entry.Placed es → bad) →
      (∀ e ∈ es, ∀ t ∈ e.spec.schemas, Explored bad done active t) →
      Explored bad done active (.entries es)
  | active {active d} : d.producer.code ∈ active → Explored bad done active (.deferred d)
  | done {active d} : d.producer.code ∈ done → Explored bad done active (.deferred d)
  | produced {active d es} : d.producer.code.isStateless = false → (deferred d).Resolves host es →
      (¬metaSchema.Accepts host (entries es).toValue → bad) →
      Explored bad done (d.producer.code :: active) (.entries es) →
      Explored bad done active (.deferred d)

/-- Everything of the codes that are done is explored, up to active codes. -/
structure Closed (bad : Prop) (active done : List Code) : Prop where
  stateless : ∀ x ∈ done, x.isStateless = true
  explored : ∀ d, d.producer.code ∈ done → ∃ es, (deferred d).Resolves host es ∧
    (¬metaSchema.Accepts host (entries es).toValue → bad) ∧
    Explored host bad done active (.entries es)

/-- Where a producer without state stands between two producers of one code, they are the same:
they have not captured different states. -/
def Unentangled (s : Schema) : Prop :=
  ∀ d f d', s.LeadsTo host d → (deferred d).LeadsTo host f → f.producer.code.isStateless = true →
    (deferred f).LeadsTo host d' → d'.producer.code = d.producer.code → d'.producer = d.producer

end Schema

theorem Producer.eq_of_code {p q : Producer} (h : p.code = q.code)
    (hp : p.code.isStateless = true) : p = q := by
  cases p <;> cases q <;> simp_all [code, Code.isStateless]

namespace Schema

variable {host : Host} {bad : Prop} {active active' done done' : List Code} {s t : Schema}

theorem Resolves.of_producer {d d' : Deferred} {es : List Entry}
    (h : (Schema.deferred d).Resolves host es) (hp : d'.producer = d.producer) :
    (Schema.deferred d').Resolves host es := by
  cases h with
  | deferred h =>
    apply Resolves.deferred
    rw [Host.schemaOf, hp]
    exact h

theorem resolves_schemaOf {d : Deferred} {es : List Entry} (h : (deferred d).Resolves host es) :
    (host.schemaOf d).Resolves host es := by
  cases h with
  | deferred h => exact h

theorem LeadsTo.inner {es : List Entry} {e : Entry} (he : e ∈ es) (ht : t ∈ e.spec.schemas)
    {d : Deferred} (h : t.LeadsTo host d) : (entries es).LeadsTo host d :=
  .head (contains_iff.2 ⟨es, .entries es, e, he, ht⟩) h

theorem LeadsTo.of_entries {es : List Entry} (hes : s.Resolves host es) {d : Deferred}
    (h : (entries es).LeadsTo host d) : s.LeadsTo host d := by
  rcases within_of_resolves hes h with h | h
  · cases h
  · exact h

theorem LeadsTo.trans {d d' : Deferred} (h : s.LeadsTo host d)
    (h' : (deferred d).LeadsTo host d') : s.LeadsTo host d' :=
  Relation.ReflTransGen.trans h h'

theorem Unentangled.of_leadsTo (h : s.Unentangled host)
    (ht : ∀ d, t.LeadsTo host d → s.LeadsTo host d) : t.Unentangled host :=
  fun d f d' hd => h d f d' (ht d hd)

namespace Explored

theorem weaken (h : Explored host bad done active s) (hactive : active ⊆ active')
    (hdone : done ⊆ done') : Explored host bad done' active' s := by
  induction h generalizing active' with
  | entries hplaced _ ih => exact .entries hplaced fun e he t ht => ih e he t ht hactive
  | active hd => exact .active (hactive hd)
  | done hd => exact .done (hdone hd)
  | produced hd hes hdata _ ih =>
    exact .produced hd hes hdata (ih (List.cons_subset_cons _ hactive))

/-- An active code need no longer be so if what has it is explored otherwise. -/
theorem replace (h : Explored host bad done active s) (hdone : done ⊆ done')
    (hactive : ∀ d, s.LeadsTo host d → d.producer.code ∈ active →
      d.producer.code ∈ active' ∨ Explored host bad done' active' (.deferred d)) :
    Explored host bad done' active' s := by
  induction h generalizing active' with
  | entries hplaced _ ih =>
    refine .entries hplaced fun e he t ht => ih e he t ht fun d hd => ?_
    exact hactive d (hd.inner he ht)
  | @active _ d hd =>
    rcases hactive d .refl hd with hd | hd
    · exact .active hd
    · exact hd
  | done hd => exact .done (hdone hd)
  | @produced _ d es hd hes hdata _ ih =>
    refine .produced hd hes hdata (ih fun d' hd' hcode => ?_)
    rcases List.mem_cons.1 hcode with hcode | hcode
    · exact .inl (by simp [hcode])
    · rcases hactive d' (.of_entries hes hd') hcode with hcode | h
      · exact .inl (List.mem_cons_of_mem _ hcode)
      · exact .inr (h.weaken (List.subset_cons_self _ _) (List.Subset.refl _))

theorem of_producer {d d' : Deferred} (h : Explored host bad done active (.deferred d))
    (hp : d'.producer = d.producer) : Explored host bad done active (.deferred d') := by
  cases h with
  | active hd => exact .active (by rwa [hp])
  | done hd => exact .done (by rwa [hp])
  | produced hd hes hdata h =>
    exact .produced (by rwa [hp]) (hes.of_producer hp) hdata (by rwa [hp])

end Explored

namespace Closed

theorem weaken (h : Closed host bad active done) (hactive : active ⊆ active') :
    Closed host bad active' done where
  stateless := h.stateless
  explored d hd := by
    obtain ⟨es, hes, hdata, hexplored⟩ := h.explored d hd
    exact ⟨es, hes, hdata, hexplored.weaken hactive (List.Subset.refl _)⟩

/-- A code without state is no longer active but done. -/
theorem finish {d : Deferred} {es : List Entry}
    (h : Closed host bad (d.producer.code :: active) done)
    (hd : d.producer.code.isStateless = true) (hes : (deferred d).Resolves host es)
    (hdata : ¬metaSchema.Accepts host (entries es).toValue → bad)
    (hexplored : Explored host bad done (d.producer.code :: active) (.entries es)) :
    Closed host bad active (d.producer.code :: done) where
  stateless := by
    intro x hx
    rcases List.mem_cons.1 hx with rfl | hx
    · exact hd
    · exact h.stateless x hx
  explored := by
    have hreplace : ∀ s, Explored host bad done (d.producer.code :: active) s →
        Explored host bad (d.producer.code :: done) active s := by
      intro s hs
      refine hs.replace (List.subset_cons_self _ _) fun d' _ hcode => ?_
      rcases List.mem_cons.1 hcode with hcode | hcode
      · exact .inr (.done (by simp [hcode]))
      · exact .inl hcode
    intro f hf
    rcases List.mem_cons.1 hf with hf | hf
    · have hp : f.producer = d.producer := Producer.eq_of_code hf (by rw [hf, hd])
      exact ⟨es, hes.of_producer hp, hdata, hreplace _ hexplored⟩
    · obtain ⟨fs, hfs, hfdata, hfs'⟩ := h.explored f hf
      exact ⟨fs, hfs, hfdata, hreplace _ hfs'⟩

/-- A code with state is no longer active. Whatever was done in the meantime has it for the same
producer only, and that one is explored by now. -/
theorem leave {d : Deferred} (h : Closed host bad (d.producer.code :: active) done')
    (hbefore : Closed host bad active done) (hdone : done ⊆ done')
    (hexplored : Explored host bad done' active (.deferred d))
    (hsame : ∀ f fs, f.producer.code ∈ done' → f.producer.code ∉ done →
      (deferred f).Resolves host fs → ∀ d', (entries fs).LeadsTo host d' →
      d'.producer.code = d.producer.code → d'.producer = d.producer) :
    Closed host bad active done' where
  stateless := h.stateless
  explored := by
    intro f hf
    by_cases hold : f.producer.code ∈ done
    · obtain ⟨fs, hfs, hdata, hfexplored⟩ := hbefore.explored f hold
      exact ⟨fs, hfs, hdata, hfexplored.weaken (List.Subset.refl _) hdone⟩
    · obtain ⟨fs, hfs, hdata, hfexplored⟩ := h.explored f hf
      refine ⟨fs, hfs, hdata, hfexplored.replace (List.Subset.refl _) fun d' hd' hcode => ?_⟩
      rcases List.mem_cons.1 hcode with hcode | hcode
      · exact .inr (hexplored.of_producer (hsame f fs hf hold hfs d' hd' hcode))
      · exact .inl hcode

end Closed

/-- What a walk through a schema does to the codes that are done. -/
structure Walked (host : Host) (active : List Code) (s : Schema) (done done' : List Code) :
    Prop where
  kept : done ⊆ done'
  found : ∀ x ∈ done', x ∉ done → ∃ f, f.producer.code = x ∧ s.LeadsTo host f
  closed : Closed host False active done'
  explored : Explored host False done' active s

theorem walked_foldlM {force : Force} {ts : List (List Value × Schema)}
    (h : ∀ x ∈ ts, ∀ done done', Closed host False active done →
      (x.2.walk force x.1 done).result = .ok done' → Walked host active x.2 done done')
    (hclosed : Closed host False active done)
    (hrun : (ts.foldlM (fun done (x : List Value × Schema) => x.2.walk force x.1 done) done).result
      = .ok done') :
    done ⊆ done' ∧
      (∀ y ∈ done', y ∉ done → ∃ x ∈ ts, ∃ f, f.producer.code = y ∧ x.2.LeadsTo host f) ∧
      Closed host False active done' ∧ ∀ x ∈ ts, Explored host False done' active x.2 := by
  induction ts generalizing done with
  | nil =>
    cases hrun
    exact ⟨List.Subset.refl _, by simp_all, hclosed, by simp⟩
  | cons x ts ih =>
    rw [List.foldlM_cons] at hrun
    obtain ⟨done₁, hx, hrun⟩ := bind_eq_ok.1 hrun
    have hwalked := h x (by simp) done done₁ hclosed hx
    obtain ⟨hkept, hfound, hclosed', hexplored⟩ :=
      ih (fun y hy => h y (List.mem_cons_of_mem _ hy)) hwalked.closed hrun
    refine ⟨List.Subset.trans hwalked.kept hkept, fun y hy hold => ?_, hclosed', ?_⟩
    · by_cases hmid : y ∈ done₁
      · exact ⟨x, by simp, hwalked.found y hmid hold⟩
      · obtain ⟨x', hx', hf⟩ := hfound y hy hmid
        exact ⟨x', List.mem_cons_of_mem _ hx', hf⟩
    · exact List.forall_mem_cons.2
        ⟨hwalked.explored.weaken (List.Subset.refl _) hkept, hexplored⟩

variable {limit : Nat} {path : List Value}

theorem walked_entries {force : Force} {es : List Entry}
    (h : ∀ e ∈ es, ∀ t ∈ e.spec.schemas, ∀ path done done', Closed host False active done →
      (t.walk force path done).result = .ok done' → Walked host active t done done')
    (hclosed : Closed host False active done)
    (hrun : (Entry.walkAll force path es done).result = .ok done') :
    Walked host active (.entries es) done done' := by
  obtain ⟨hplaced, hrun⟩ := Entry.walkAll_eq_ok.1 hrun
  obtain ⟨hkept, hfound, hclosed', hexplored⟩ := walked_foldlM (fun x hx => by
    obtain ⟨e, he, hx⟩ := Entry.mem_inner hx
    exact h e he x.2 hx x.1) hclosed hrun
  refine ⟨hkept, fun y hy hold => ?_, hclosed', .entries (fun h => h hplaced) fun e he t ht => ?_⟩
  · obtain ⟨x, hx, f, hf, hleads⟩ := hfound y hy hold
    obtain ⟨e, he, hx⟩ := Entry.mem_inner hx
    exact ⟨f, hf, hleads.inner he hx⟩
  · exact hexplored (path ++ [e.key.toValue], t) (Entry.mem_inner_of_mem he ht)

theorem walked_produced {d : Deferred} {es : List Entry} (hd : (deferred d).Unentangled host)
    (hclosed : Closed host False active done) (hes : (deferred d).Resolves host es)
    (hdata : metaSchema.Accepts host (entries es).toValue)
    (h : Walked host (d.producer.code :: active) (.entries es) done done') :
    Walked host active (.deferred d) done
      (if d.producer.code.isStateless then d.producer.code :: done' else done') := by
  have hfound : ∀ x ∈ done', x ∉ done → ∃ f, f.producer.code = x ∧ (deferred d).LeadsTo host f := by
    intro x hx hold
    obtain ⟨f, hf, hleads⟩ := h.found x hx hold
    exact ⟨f, hf, .of_entries hes hleads⟩
  split
  next hstateless =>
    refine ⟨List.subset_cons_of_subset _ h.kept, fun x hx hold => ?_, ?_, .done (by simp)⟩
    · rcases List.mem_cons.1 hx with rfl | hx
      · exact ⟨d, rfl, .refl⟩
      · exact hfound x hx hold
    · exact h.closed.finish hstateless hes (fun hnot => hnot hdata) h.explored
  next hstate =>
    have hexplored : Explored host False done' active (.deferred d) :=
      .produced (by simpa using hstate) hes (fun hnot => hnot hdata) h.explored
    refine ⟨h.kept, hfound, h.closed.leave hclosed h.kept hexplored ?_, hexplored⟩
    intro f fs hf hold hfs d' hd' hcode
    -- The code was done while this schema was walked, by a producer to which it leads.
    obtain ⟨f', hf', hleads⟩ := hfound _ hf hold
    have hstateless : f'.producer.code.isStateless = true := by
      rw [hf']
      exact h.closed.stateless _ hf
    have hp : f'.producer = f.producer := Producer.eq_of_code hf' hstateless
    exact hd d f' d' .refl hleads hstateless (.of_entries (hfs.of_producer hp) hd') hcode

/-- A walk that succeeds has explored the schema, up to what is active. -/
theorem walked (fuel : Nat) (hs : s.Unentangled host) (hclosed : Closed host False active done)
    (h : (s.walk (Deferred.check host limit fuel active) path done).result = .ok done') :
    Walked host active s done done' := by
  -- What is produced is walked with less fuel; at each level the schemas are written inside.
  induction fuel using Nat.strongRecOn generalizing s active done done' path with
  | _ fuel ih =>
    induction s using inside_induction generalizing done done' path with
    | deferred d =>
      rcases Deferred.check_eq_ok h with
        ⟨hmem, rfl⟩ | ⟨fuel, es, done₁, rfl, hes, hdata, hwalk, rfl⟩
      · refine ⟨List.Subset.refl _, fun x hx hold => absurd hx hold, hclosed, ?_⟩
        exact hmem.elim .active .done
      · have hes' : (entries es).Unentangled host := hs.of_leadsTo fun _ hd => .of_entries hes hd
        exact walked_produced hs hclosed hes (accepts_of_checkData hdata) <|
          ih fuel (Nat.lt_succ_self _) hes' (hclosed.weaken (List.subset_cons_self _ _)) hwalk
    | entries es ihs =>
      refine walked_entries (fun e he t ht path done done' hclosed hrun => ?_) hclosed h
      exact ihs e he t ht (hs.of_leadsTo fun _ hd => hd.inner he ht) hclosed hrun

/-- With enough depth a walk fails by a fault only, and if something is bad. -/
def Settles (host : Host) (bad : Prop) (active : List Code) (s : Schema) : Prop :=
  ∃ bound, ∀ limit fuel, bound ≤ limit → bound ≤ fuel → ∀ path done,
    (s.walk (Deferred.check host limit fuel active) path done).FailsOnly bad

theorem settles_entries {es : List Entry} (hplaced : ¬Entry.Placed es → bad)
    (h : ∀ e ∈ es, ∀ t ∈ e.spec.schemas, Settles host bad active t) :
    Settles host bad active (.entries es) := by
  obtain ⟨bound, hbound⟩ : ∃ bound, ∀ t ∈ es.flatMap fun e => e.spec.schemas,
      ∀ limit fuel, bound ≤ limit → bound ≤ fuel → ∀ path done,
        (t.walk (Deferred.check host limit fuel active) path done).FailsOnly bad := by
    apply exists_common_bound
    · intro t m n hmn ht limit fuel hlimit hfuel
      exact ht limit fuel (hmn.trans hlimit) (hmn.trans hfuel)
    · intro t ht
      obtain ⟨e, he, ht⟩ := List.mem_flatMap.1 ht
      exact h e he t ht
  refine ⟨bound, fun limit fuel hlimit hfuel path done => ?_⟩
  refine Entry.failsOnly_walkAll hplaced (fun e he t ht => ?_) done
  exact hbound t (List.mem_flatMap.2 ⟨e, he, ht⟩) limit fuel hlimit hfuel

theorem settles_active {d : Deferred} (h : d.producer.code ∈ active) :
    Settles host bad active (.deferred d) := by
  refine ⟨0, fun limit fuel _ _ path done => ?_⟩
  rw [walk, Deferred.check_of_mem (.inl h)]
  exact failsOnly_pure _

theorem settles_deferred {d : Deferred} {es : List Entry} (hes : (deferred d).Resolves host es)
    (hdata : ¬metaSchema.Accepts host (entries es).toValue → bad)
    (h : d.producer.code ∉ active → Settles host bad (d.producer.code :: active) (.entries es)) :
    Settles host bad active (.deferred d) := by
  by_cases hactive : d.producer.code ∈ active
  · exact settles_active hactive
  · obtain ⟨bound, hbound⟩ := h hactive
    obtain ⟨depth, hdepth⟩ := exists_resolve? (resolves_schemaOf hes)
    refine ⟨bound + depth + (5 * (entries es).toValue.depth + 2) + 1,
      fun limit fuel hlimit hfuel path done => ?_⟩
    rw [walk]
    by_cases hdone : d.producer.code ∈ done
    · rw [Deferred.check_of_mem (.inr hdone)]
      exact failsOnly_pure _
    · obtain ⟨fuel, rfl⟩ : ∃ n, fuel = n + 1 := ⟨fuel - 1, by omega⟩
      rw [Deferred.check_succ (not_or.2 ⟨hactive, hdone⟩), hdepth limit (by omega)]
      change FailsOnly bad (pure es >>= _)
      rw [pure_bind]
      refine failsOnly_bind ((failsOnly_checkData (by omega)).mono hdata) fun _ => ?_
      refine failsOnly_bind ?_ fun _ => failsOnly_pure _
      exact hbound limit fuel (by omega) (by omega) path done

theorem card_sdiff_cons_lt {codes : List Code} {x : Code} (hx : x ∈ codes) (hactive : x ∉ active) :
    (codes.toFinset \ (x :: active).toFinset).card < (codes.toFinset \ active.toFinset).card := by
  rw [List.toFinset_cons, Finset.sdiff_insert]
  exact Finset.card_erase_lt_of_mem (by simp [hx, hactive])

/-- What is explored is walked with enough depth, and no fault is found with it unless something
is bad. The codes that are done but not active yet become fewer whenever one of them is walked. -/
theorem Explored.settles (hclosed : Closed host bad [] done) {visited : List Code} {n : Nat}
    (hcard : (done.toFinset \ active.toFinset).card ≤ n)
    (h : Explored host bad done visited s) (hvisited : visited ⊆ active) :
    Settles host bad active s := by
  induction n using Nat.strongRecOn generalizing s active visited with
  | _ n ih =>
    induction h generalizing active with
    | entries hplaced _ ihs =>
      exact settles_entries hplaced fun e he t ht => ihs e he t ht hcard hvisited
    | active hd => exact settles_active (hvisited hd)
    | @done _ d hd =>
      obtain ⟨es, hes, hdata, hexplored⟩ := hclosed.explored d hd
      refine settles_deferred hes hdata fun hactive => ?_
      have := card_sdiff_cons_lt hd hactive
      exact ih _ (by omega) (Nat.le_refl _) hexplored (by simp)
    | @produced _ d es _ hes hdata _ ihp =>
      refine settles_deferred hes hdata fun _ => ihp ?_ (List.cons_subset_cons _ hvisited)
      refine (Finset.card_le_card ?_).trans hcard
      exact Finset.sdiff_subset_sdiff (Finset.Subset.refl _) (by simp)

theorem explored_of_compile {fuel : Nat} {c : Compiled} (hs : s.Unentangled host)
    (h : (s.compile host fuel).result = .ok c) :
    (s.isDeferred = false → metaSchema.Accepts host s.toValue) ∧
      ∃ done, Closed host False [] done ∧ Explored host False done [] s := by
  obtain ⟨-, hcheck, -⟩ := compile_eq_ok.1 h
  obtain ⟨hdata, done, hwalk⟩ := check_eq_ok.1 hcheck
  have hclosed : Closed host False [] [] := ⟨by simp, by simp⟩
  have hwalked := walked fuel hs hclosed hwalk
  exact ⟨fun hd => accepts_of_checkData (hdata hd), done, hwalked.closed, hwalked.explored⟩

theorem Settles.failsOnly_compile {es : List Entry} (h : Settles host bad [] s)
    (hes : s.Resolves host es)
    (hdata : s.isDeferred = false → ¬metaSchema.Accepts host s.toValue → bad) :
    ∃ bound, ∀ fuel, bound ≤ fuel → (s.compile host fuel).FailsOnly bad := by
  obtain ⟨bound, hbound⟩ := h
  obtain ⟨depth, hdepth⟩ := exists_resolve? hes
  refine ⟨bound + depth + (5 * s.toValue.depth + 2), fun fuel hfuel => ?_⟩
  have hplacement : (s.checkPlacement host fuel).FailsOnly bad :=
    failsOnly_bind (hbound fuel fuel (by omega) (by omega) [] []) fun _ => failsOnly_pure _
  have hcheck : (s.check host fuel).FailsOnly bad := by
    unfold check
    split
    next hd =>
      refine failsOnly_bind ((failsOnly_checkData (by omega)).mono ?_) fun _ => hplacement
      exact hdata (by simpa using hd)
    next => exact hplacement
  rw [compile, hdepth fuel (by omega)]
  refine failsOnly_bind hcheck fun _ => failsOnly_bind (failsOnly_pure es) fun _ => ?_
  exact failsOnly_bind (failsOnly_of_ok rfl) fun _ => failsOnly_pure _

theorem failsOnly_compile {es : List Entry} (hes : s.Resolves host es)
    (hclosed : Closed host bad [] done) (h : Explored host bad done [] s)
    (hdata : s.isDeferred = false → ¬metaSchema.Accepts host s.toValue → bad) :
    ∃ bound, ∀ fuel, bound ≤ fuel → (s.compile host fuel).FailsOnly bad :=
  (h.settles hclosed (Nat.le_refl _) (List.Subset.refl [])).failsOnly_compile hes hdata

end Schema

end Conform
