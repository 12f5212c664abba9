import Conform.Proofs.Acceptance.Termination
import Conform.Proofs.Compiled.Search

namespace Conform

open Run

theorem Entry.walkAll_approximates {force force' : Force} {path : List Value} {es : List Entry}
    (h : ∀ e ∈ es, ∀ s ∈ e.spec.schemas, ∀ path done,
      Approximates (s.walk force path done) (s.walk force' path done)) (done : List Code) :
    Approximates (Entry.walkAll force path es done) (Entry.walkAll force' path es done) := by
  induction es generalizing done with
  | nil =>
    rw [walkAll, walkAll]
    exact .refl _
  | cons e es ih =>
    rw [walkAll_cons, walkAll_cons]
    refine .bind (.refl _) fun _ => .bind (.refl _) fun _ => .bind ?_ fun done => ?_
    · exact .foldlM done fun s hs done => h e (by simp) s hs _ done
    · exact ih (fun d hd => h d (List.mem_cons_of_mem _ hd)) done

theorem Schema.walk_approximates {force force' : Force}
    (h : ∀ d path done, Approximates (force d path done) (force' d path done)) (s : Schema)
    (path : List Value) (done : List Code) :
    Approximates (s.walk force path done) (s.walk force' path done) := by
  induction s using inside_induction generalizing path done with
  | deferred d =>
    rw [walk, walk]
    exact h d path done
  | entries es ih =>
    rw [walk, walk]
    exact Entry.walkAll_approximates ih done

variable {host : Host}

theorem Schema.checkData_mono {fuel fuel' : Nat} (h : fuel ≤ fuel') (path : List Value)
    (data : Value) :
    Approximates (checkData host fuel path data) (checkData host fuel' path data) :=
  .bind (.bind (.attempt (accept_mono h _ _ _)) fun _ => .refl _) fun _ => .refl _

theorem Deferred.check_mono {limit limit' fuel fuel' : Nat} (hlimit : limit ≤ limit')
    (hfuel : fuel ≤ fuel') (active : List Code) (d : Deferred) (path : List Value)
    (done : List Code) :
    Approximates (check host limit fuel active d path done)
      (check host limit' fuel' active d path done) := by
  induction fuel generalizing fuel' active d path done with
  | zero =>
    by_cases hmem : d.producer.code ∈ active ∨ d.producer.code ∈ done
    · rw [check_of_mem hmem, check_of_mem hmem]
      exact .refl _
    · rw [check_zero hmem]
      exact .exhausted _
  | succ fuel ih =>
    by_cases hmem : d.producer.code ∈ active ∨ d.producer.code ∈ done
    · rw [check_of_mem hmem, check_of_mem hmem]
      exact .refl _
    · obtain ⟨fuel', rfl⟩ : ∃ n, fuel' = n + 1 := ⟨fuel' - 1, by omega⟩
      rw [check_succ hmem, check_succ hmem]
      refine .bind (Schema.resolve?_mono host hlimit _) fun es => ?_
      refine .bind (Schema.checkData_mono hlimit path _) fun _ => ?_
      refine .bind (Entry.walkAll_approximates (fun e _ s _ => ?_) done) fun _ => .refl _
      exact Schema.walk_approximates (ih (by omega) _) s

namespace Schema

theorem persists_compile (host : Host) (s : Schema) : Persists fun fuel => s.compile host fuel := by
  intro fuel fuel' h
  have hplacement : Approximates (s.checkPlacement host fuel) (s.checkPlacement host fuel') :=
    .bind (walk_approximates (Deferred.check_mono h h []) s [] []) fun _ => .refl _
  have hcheck : Approximates (s.check host fuel) (s.check host fuel') := by
    unfold check
    split
    · exact .bind (checkData_mono h _ _) fun _ => hplacement
    · exact hplacement
  exact .bind hcheck fun _ => .bind (resolve?_mono host h s) fun _ => .refl _

/-- The walk settles whatever is produced, if its codes are among finitely many. Whenever a schema
is produced its code becomes active, so the codes that are not active yet become fewer; in between
the schemas become smaller. -/
theorem settles_of_codes {s : Schema} {codes active : List Code}
    (hcodes : ∀ d, s.LeadsTo host d → d.producer.code ∈ codes)
    (hresolves : ∀ d, s.LeadsTo host d → ∃ es, (deferred d).Resolves host es) :
    Settles host True active s := by
  induction hn : (codes.toFinset \ active.toFinset).card using Nat.strongRecOn
    generalizing s active with
  | _ n ih =>
    induction s using inside_induction with
    | deferred d =>
      obtain ⟨es, hes⟩ := hresolves d .refl
      refine settles_deferred hes (fun _ => trivial) fun hactive => ?_
      have hlt := card_sdiff_cons_lt (hcodes d .refl) hactive
      exact ih _ (hn ▸ hlt) (fun d' hd' => hcodes d' (.of_entries hes hd'))
        (fun d' hd' => hresolves d' (.of_entries hes hd')) rfl
    | entries es ihs =>
      refine settles_entries (fun _ => trivial) fun e he t ht => ?_
      exact ihs e he t ht (fun d hd => hcodes d (hd.inner he ht))
        fun d hd => hresolves d (hd.inner he ht)

/-- The check of a schema ends if all its levels stand for entries and its deferred schemas have
finitely many codes between them. There may be infinitely many levels, as closures of one code may
produce schemas that are all different. -/
theorem compile_converges {s : Schema} (codes : List Code)
    (hcodes : ∀ d, s.LeadsTo host d → d.producer.code ∈ codes)
    (hresolves : ∀ t, s.Within host t → ∃ es, t.Resolves host es) :
    Converges fun fuel => s.compile host fuel := by
  obtain ⟨es, hes⟩ := hresolves s .refl
  have hsettles : Settles host True [] s :=
    settles_of_codes hcodes fun d hd => hresolves _ hd
  obtain ⟨bound, hbound⟩ := hsettles.failsOnly_compile hes fun _ _ => trivial
  refine (persists_compile host s).converges ⟨bound, fun hexhausted => ?_⟩
  obtain ⟨⟨f, hf⟩, -⟩ := hbound bound (Nat.le_refl _) _ hexhausted
  cases hf

end Schema

/-- One closure after the other is produced, and each has captured one character more. -/
theorem levelEntries_leadsTo (n : Nat) : ∃ state, state.length = n ∧
    (Schema.entries (levelEntries "")).LeadsTo levelHost ⟨.closure "level" state, 0⟩ := by
  induction n with
  | zero => exact ⟨"", rfl, .head ((levelEntries_contains (.entries _)).2 rfl) .refl⟩
  | succ n ih =>
    obtain ⟨state, rfl, hleads⟩ := ih
    refine ⟨state.push 'i', by simp, .tail hleads ?_⟩
    exact (levelEntries_contains (.deferred (.entries _))).2 rfl

theorem levelEntries_check_converges :
    (∀ d, (Schema.entries (levelEntries "")).LeadsTo levelHost d →
      d.producer.code ∈ [Code.closure "level"]) ∧
    (∀ t, (Schema.entries (levelEntries "")).Within levelHost t → ∃ es, t.Resolves levelHost es) ∧
    (∀ n, ∃ state, state.length = n ∧
      (Schema.entries (levelEntries "")).LeadsTo levelHost ⟨.closure "level" state, 0⟩) ∧
    Converges fun fuel => (Schema.entries (levelEntries "")).compile levelHost fuel := by
  have hcodes : ∀ d, (Schema.entries (levelEntries "")).LeadsTo levelHost d →
      d.producer.code ∈ [Code.closure "level"] := by
    intro d hd
    rcases levelEntries_within hd with h | ⟨state, h⟩
    · cases h
    · cases h
      exact List.mem_singleton_self _
  have hresolves : ∀ t, (Schema.entries (levelEntries "")).Within levelHost t →
      ∃ es, t.Resolves levelHost es := by
    intro t ht
    obtain ⟨state, hstate⟩ := levelEntries_resolves ht
    exact ⟨_, hstate⟩
  exact ⟨hcodes, hresolves, levelEntries_leadsTo, Schema.compile_converges _ hcodes hresolves⟩

end Conform
