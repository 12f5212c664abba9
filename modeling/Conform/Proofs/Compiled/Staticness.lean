import Conform.Proofs.Acceptance.MetaStaticness
import Conform.Proofs.Compiled.DataCheck
import Conform.Proofs.Compiled.Termination

namespace Conform

open Run

/-- Two failures are faults that say the same about a schema, or both runs needed more depth. -/
inductive Failure.SameFault : Failure → Failure → Prop where
  | invalidSchema {e e'} : e.SameReport e' →
      SameFault (.fault (.invalidSchema e)) (.fault (.invalidSchema e'))
  | exhausted : SameFault .exhausted .exhausted

namespace Run

variable {α β : Type} {r r' : Run α}

theorem agree_sameFault {α' : Type} {values : α → α' → Prop} {outcome : Except Failure α}
    {outcome' : Except Failure α'} (h : Agree Failure.SameFault values outcome outcome') :
    (∃ a a', outcome = .ok a ∧ outcome' = .ok a' ∧ values a a') ∨
    (∃ e e', outcome = .error (.fault (.invalidSchema e)) ∧
      outcome' = .error (.fault (.invalidSchema e')) ∧ e.SameReport e') ∨
    (outcome = .error .exhausted ∧ outcome' = .error .exhausted) := by
  cases h with
  | ok ha => exact .inl ⟨_, _, rfl, rfl, ha⟩
  | error h =>
    cases h with
    | invalidSchema he => exact .inr (.inl ⟨_, _, rfl, rfl, he⟩)
    | exhausted => exact .inr (.inr ⟨rfl, rfl⟩)

def SameVerdict (r r' : Run α) : Prop := Agree Failure.SameFault Eq r.result r'.result

theorem sameVerdict_pure (a : α) : SameVerdict (pure a) (pure a) := .ok rfl

theorem sameVerdict_exhausted : SameVerdict (fail .exhausted : Run α) (fail .exhausted) :=
  .error .exhausted

theorem sameVerdict_invalidSchema (e : ValidationError) :
    SameVerdict (fail (.fault (.invalidSchema e)) : Run α) (fail (.fault (.invalidSchema e))) :=
  .error (.invalidSchema (.refl e))

theorem SameVerdict.bind {f f' : α → Run β} (h : SameVerdict r r')
    (hf : ∀ a, SameVerdict (f a) (f' a)) : SameVerdict (r >>= f) (r' >>= f') := by
  refine agree_bind h ?_
  rintro a _ rfl
  exact hf a

theorem sameVerdict_foldlM {f f' : β → α → Run β} {as : List α}
    (h : ∀ a ∈ as, ∀ b, SameVerdict (f b a) (f' b a)) (b : β) :
    SameVerdict (as.foldlM f b) (as.foldlM f' b) := by
  induction as generalizing b with
  | nil => exact sameVerdict_pure b
  | cons a as ih =>
    rw [List.foldlM_cons, List.foldlM_cons]
    exact (h a (by simp) b).bind fun b' => ih (fun c hc => h c (List.mem_cons_of_mem _ hc)) b'

theorem SameVerdict.of_common {r'' : Run α} (h : SameVerdict r r'') (h' : SameVerdict r' r'') :
    SameVerdict r r' := by
  unfold SameVerdict at h h' ⊢
  generalize r.result = outcome at h
  generalize r'.result = outcome' at h'
  generalize r''.result = common at h h'
  cases h with
  | ok h =>
    cases h' with
    | ok h' => exact .ok (h.trans h'.symm)
  | error h =>
    cases h' with
    | error h' =>
      cases h with
      | invalidSchema he =>
        cases h' with
        | invalidSchema he' => exact .error (.invalidSchema (he.of_common he'))
      | exhausted =>
        cases h'
        exact .error .exhausted

end Run

variable {host host' : Host} {fuel : Nat}

namespace Schema

theorem result_checkData (host : Host) (fuel : Nat) (path : List Value) (data : Value) :
    (checkData host fuel path data).result =
      match (metaSchema.accept host fuel data false).result with
      | .ok _ => .ok ()
      | .error (.invalid e) => .error (.fault (.invalidSchema (e.under path)))
      | .error f => .error f := by
  cases h : (metaSchema.accept host fuel data false).result with
  | ok n => exact bind_eq_ok.2 ⟨none, judged_of_ok h, rfl⟩
  | error f =>
    cases f with
    | invalid e => exact bind_eq_error.2 (.inr ⟨some e, judged_of_invalid h, rfl⟩)
    | fault | exhausted =>
      refine bind_eq_error.2 (.inl (bind_eq_error.2 (.inl ?_)))
      exact attempt_eq_error.2 ⟨h, by simp⟩

theorem sameVerdict_checkData (s : Schema) (path : List Value) :
    SameVerdict (checkData host fuel path s.toValue)
      (checkData host' fuel path s.bodiless.toValue) := by
  have halike := alike host host' fuel metaSchema .metaSchema s false
  unfold SameVerdict
  rw [result_checkData, result_checkData]
  rcases Parallel.outcomes halike with ⟨n, n', hn, hn', -⟩ | ⟨e, e', he, he', hsame⟩ |
    ⟨f, hf, hf', rfl⟩
  · rw [hn, hn']
    exact .ok rfl
  · rw [he, he']
    exact .error (.invalidSchema (hsame.under path))
  · rw [hf, hf']
    exact .error .exhausted

theorem sameVerdict_checkData_of_eq {s s' : Schema} (hs : s.bodiless = s'.bodiless)
    (path : List Value) :
    SameVerdict (checkData host fuel path s.toValue) (checkData host' fuel path s'.toValue) := by
  have hdata : SameVerdict (checkData host fuel path s.toValue)
      (checkData host' fuel path s.bodiless.toValue) := sameVerdict_checkData s path
  rw [hs] at hdata
  exact hdata.of_common (sameVerdict_checkData s' path)

end Schema

namespace Entry

variable {path : List Value} {key : SchemaKey}

theorem sameVerdict_checkRename (renameTo? : Option String) (later : List Entry) :
    SameVerdict (checkRename path key renameTo? later) (checkRename path key renameTo? later) := by
  unfold checkRename
  split
  · exact sameVerdict_pure ()
  · split
    · exact sameVerdict_pure ()
    · exact sameVerdict_invalidSchema _

theorem sameVerdict_checkKeys (t : OptionType) (keys? : Option Schema) :
    SameVerdict (checkKeys path key t keys?) (checkKeys path key t keys?) := by
  unfold checkKeys
  split
  · exact sameVerdict_pure ()
  · exact sameVerdict_invalidSchema _

theorem sameVerdict_walkAll {force force' : Force} {es : List Entry}
    (h : ∀ e ∈ es, ∀ s ∈ e.spec.schemas, ∀ path done,
      SameVerdict (s.walk force path done) (s.walk force' path done)) (done : List Code) :
    SameVerdict (walkAll force path es done) (walkAll force' path es done) := by
  induction es generalizing done with
  | nil =>
    rw [walkAll, walkAll]
    exact sameVerdict_pure done
  | cons e es ih =>
    rw [walkAll_cons, walkAll_cons]
    refine (sameVerdict_checkRename _ es).bind fun _ => ?_
    refine (sameVerdict_checkKeys _ _).bind fun _ => ?_
    refine .bind (sameVerdict_foldlM (fun s hs done => h e (by simp) s hs _ done) done) fun _ => ?_
    exact ih (fun d hd => h d (List.mem_cons_of_mem _ hd)) _

end Entry

theorem Schema.sameVerdict_walk {force force' : Force}
    (h : ∀ d path done, SameVerdict (force d path done) (force' d path done)) (s : Schema)
    (path : List Value) (done : List Code) :
    SameVerdict (s.walk force path done) (s.walk force' path done) := by
  induction s using inside_induction generalizing path done with
  | deferred d =>
    rw [walk, walk]
    exact h d path done
  | entries es ih =>
    rw [walk, walk]
    exact Entry.sameVerdict_walkAll ih done

/-- The walk sees no bodies, so only what is done at deferred schemas can make a difference. -/
theorem Schema.sameVerdict_walk_of_eq {force force' : Force} {s s' : Schema}
    (hs : s.bodiless = s'.bodiless)
    (h : ∀ d path done, SameVerdict (force d path done) (force' d path done)) (path : List Value)
    (done : List Code) : SameVerdict (s.walk force path done) (s'.walk force' path done) := by
  have hwalk : s.walk force path done = s'.walk force path done := calc
    s.walk force path done = s.bodiless.walk force path done :=
      (walk_revise Revision.keepsText_bodiless s path done).symm
    _ = s'.bodiless.walk force path done := by rw [hs]
    _ = s'.walk force path done := walk_revise Revision.keepsText_bodiless s' path done
  rw [hwalk]
  exact sameVerdict_walk h s' path done

/-- Two calling programs produce the same schemas, except for the bodies of functions. What their
functions compute is not compared. -/
def Host.SameButBodies (host host' : Host) : Prop :=
  ∀ p, (host.produce p).bodiless = (host'.produce p).bodiless

theorem Host.SameButBodies.schemaOf (h : host.SameButBodies host') (d : Deferred) :
    (host.schemaOf d).bodiless = (host'.schemaOf d).bodiless := by
  unfold Host.schemaOf
  split
  · rfl
  · exact h _

theorem Schema.rel_resolve? (h : host.SameButBodies host') {s s' : Schema}
    (hs : s.bodiless = s'.bodiless) (fuel : Nat) :
    Option.Rel (fun es es' => (entries es).bodiless = (entries es').bodiless)
      (s.resolve? host fuel) (s'.resolve? host' fuel) := by
  induction fuel generalizing s s' with
  | zero =>
    cases s <;> cases s' <;> simp only [bodiless, revise, reduceCtorEq] at hs
    · exact .some (by simpa only [bodiless, revise] using hs)
    · exact .none
  | succ fuel ih =>
    cases s <;> cases s' <;> simp only [bodiless, revise, reduceCtorEq] at hs
    · exact .some (by simpa only [bodiless, revise] using hs)
    · cases hs
      exact ih (h.schemaOf _)

namespace Deferred

theorem sameVerdict_check (h : host.SameButBodies host') (limit fuel : Nat) (active : List Code)
    (d : Deferred) (path : List Value) (done : List Code) :
    SameVerdict (check host limit fuel active d path done)
      (check host' limit fuel active d path done) := by
  induction fuel generalizing active d path done with
  | zero =>
    by_cases hmem : d.producer.code ∈ active ∨ d.producer.code ∈ done
    · rw [check_of_mem hmem, check_of_mem hmem]
      exact sameVerdict_pure done
    · rw [check_zero hmem, check_zero hmem]
      exact sameVerdict_exhausted
  | succ fuel ih =>
    by_cases hmem : d.producer.code ∈ active ∨ d.producer.code ∈ done
    · rw [check_of_mem hmem, check_of_mem hmem]
      exact sameVerdict_pure done
    · rw [check_succ hmem, check_succ hmem]
      have hresolve := Schema.rel_resolve? h (h.schemaOf d) limit
      generalize (host.schemaOf d).resolve? host limit = es? at hresolve
      generalize (host'.schemaOf d).resolve? host' limit = es'? at hresolve
      cases hresolve with
      | none => exact sameVerdict_exhausted
      | @some es es' hes =>
        have hwalk := Schema.sameVerdict_walk_of_eq hes (ih (d.producer.code :: active)) path done
        rw [Schema.walk, Schema.walk] at hwalk
        dsimp only [Run.ofOption]
        rw [pure_bind, pure_bind]
        exact (Schema.sameVerdict_checkData_of_eq hes path).bind fun _ =>
          hwalk.bind fun done => sameVerdict_pure _

end Deferred

namespace Schema

variable {s s' : Schema}

theorem sameVerdict_checkPlacement (h : host.SameButBodies host') (hs : s.bodiless = s'.bodiless)
    (fuel : Nat) : SameVerdict (s.checkPlacement host fuel) (s'.checkPlacement host' fuel) := by
  have hforce := Deferred.sameVerdict_check h fuel fuel []
  exact (sameVerdict_walk_of_eq hs hforce [] []).bind fun _ => sameVerdict_pure ()

theorem isDeferred_eq_of_bodiless (hs : s.bodiless = s'.bodiless) :
    s.isDeferred = s'.isDeferred := by
  cases s <;> cases s' <;> simp only [bodiless, revise, reduceCtorEq] at hs <;> rfl

theorem sameVerdict_check (h : host.SameButBodies host') (hs : s.bodiless = s'.bodiless)
    (fuel : Nat) : SameVerdict (s.check host fuel) (s'.check host' fuel) := by
  have hplacement := sameVerdict_checkPlacement h hs fuel
  unfold check
  rw [isDeferred_eq_of_bodiless hs]
  cases s'.isDeferred with
  | true => exact (sameVerdict_pure ()).bind fun _ => hplacement
  | false => exact (sameVerdict_checkData_of_eq hs []).bind fun _ => hplacement

theorem agree_compile (h : host.SameButBodies host') (hs : s.bodiless = s'.bodiless) (fuel : Nat) :
    Agree Failure.SameFault (fun c c' => c = ⟨s⟩ ∧ c' = ⟨s'⟩) (s.compile host fuel).result
      (s'.compile host' fuel).result := by
  refine agree_bind (sameVerdict_check h hs fuel) fun _ _ _ => ?_
  have hresolve := rel_resolve? h hs fuel
  generalize s.resolve? host fuel = es? at hresolve
  generalize s'.resolve? host' fuel = es'? at hresolve
  cases hresolve with
  | none => exact .error .exhausted
  | some _ => exact .ok ⟨rfl, rfl⟩

/-- Schemas that differ in the bodies of functions compile alike, whatever these functions compute:
with any depth both compile, or both are faulty for the same reason, or both need more depth. If all
levels stand for entries and have finitely many codes between them, some depth is enough, so both
compile or both are invalid schemas. -/
theorem compile_static (hs : s.bodiless = s'.bodiless) (h : host.SameButBodies host') :
    (∀ fuel,
      ((s.compile host fuel).result = .ok ⟨s⟩ ∧ (s'.compile host' fuel).result = .ok ⟨s'⟩) ∨
      (∃ e e', (s.compile host fuel).result = .error (.fault (.invalidSchema e)) ∧
        (s'.compile host' fuel).result = .error (.fault (.invalidSchema e')) ∧ e.SameReport e') ∨
      ((s.compile host fuel).result = .error .exhausted ∧
        (s'.compile host' fuel).result = .error .exhausted)) ∧
    ((∃ codes : List Code, ∀ d, s.LeadsTo host d → d.producer.code ∈ codes) →
      (∀ t, s.Within host t → ∃ es, t.Resolves host es) →
      ∃ bound, ∀ fuel, bound ≤ fuel →
        (s.compile host fuel).Ends ∧ (s'.compile host' fuel).Ends) := by
  refine ⟨fun fuel => ?_, fun ⟨codes, hcodes⟩ hresolves => ?_⟩
  · rcases agree_sameFault (agree_compile h hs fuel) with ⟨_, _, hok, hok', rfl, rfl⟩ | hfaulty
    · exact .inl ⟨hok, hok'⟩
    · exact .inr hfaulty
  · obtain ⟨es, hes⟩ := hresolves s .refl
    have hsettles : Settles host True [] s := settles_of_codes hcodes fun d hd => hresolves _ hd
    obtain ⟨bound, hbound⟩ := hsettles.failsOnly_compile hes fun _ _ => trivial
    refine ⟨bound, fun fuel hfuel => ?_⟩
    have hends : (s.compile host fuel).Ends := by
      intro hexhausted
      obtain ⟨⟨f, hf⟩, -⟩ := hbound fuel hfuel _ hexhausted
      cases hf
    refine ⟨hends, ?_⟩
    rcases agree_sameFault (agree_compile h hs fuel) with ⟨_, _, -, hok', -⟩ |
      ⟨_, _, -, hfault', -⟩ | ⟨hexhausted, -⟩
    · exact ends_of_ok hok'
    · simp [Ends, hfault']
    · exact absurd hexhausted hends

end Schema

/-- A lock, whose guard is to be renamed to an option that is not declared. -/
def lockEntries (body : String) : List Entry := [
  ⟨.atom "guard", { OptionSpec.ofType (.custom ⟨"guard", 1, .host body⟩ []) with
    renameTo? := some "keeper" }⟩]

/-- A door with locks. Unless it says how it opens, it is pushed. -/
def doorEntries (body : String) : List Entry := [
  ⟨.atom "opens", { OptionSpec.ofType (.oneOf (.values [.function ⟨"push", 0, .host body⟩])) with
    default? := some (.function ⟨"push", 0, .host body⟩) }⟩,
  ⟨.atom "locks", .ofType (.listOf (.keywordListOf (.deferred ⟨.function "lock", 0⟩)))⟩]

/-- A calling program whose functions all return a text, which is no answer of a validator. -/
def doorHost (body : String) : Host where
  call _ _ := .string body
  produce _ := .entries (lockEntries body)

theorem doorEntries_within {body : String} {t : Schema}
    (h : (Schema.entries (doorEntries body)).Within (doorHost body) t) :
    t = .entries (doorEntries body) ∨ t = .deferred ⟨.function "lock", 0⟩ := by
  let listed : List (Schema × List Entry) := [
    (.entries (doorEntries body), doorEntries body),
    (.deferred ⟨.function "lock", 0⟩, lockEntries body)]
  have hlisted : ∀ x ∈ listed, x.1.Resolves (doorHost body) x.2 ∧
      ∀ u ∈ x.2.flatMap fun e => e.spec.schemas, ∃ y ∈ listed, y.1 = u := by
    intro x hx
    simp only [listed, List.mem_cons, List.not_mem_nil, or_false] at hx
    rcases hx with rfl | rfl
    · exact ⟨.entries _, by simp [listed, doorEntries, OptionSpec.schemas, OptionSpec.ofType]⟩
    · exact ⟨.deferred (.entries _), by simp [lockEntries, OptionSpec.schemas, OptionSpec.ofType]⟩
  obtain ⟨x, hx, rfl⟩ := Schema.within_listed hlisted ⟨_, .head _, rfl⟩ h
  simp only [listed, List.mem_cons, List.not_mem_nil, or_false] at hx
  rcases hx with rfl | rfl
  · exact .inl rfl
  · exact .inr rfl

/-- The schema of the locks is faulty for the same reason whatever body the guard has. -/
theorem doorEntries_static :
    (Schema.entries (doorEntries "old")).bodiless = (Schema.entries (doorEntries "new")).bodiless ∧
    (doorHost "old").SameButBodies (doorHost "new") ∧
    (∃ e, ((Schema.entries (doorEntries "new")).compile (doorHost "new") 60).result =
        .error (.fault (.invalidSchema e)) ∧
      e.keysPath = [.atom "locks"] ∧
      e.message = (Reason.renameTarget (.atom "guard") "keeper").message) ∧
    ∃ bound, ∀ fuel, bound ≤ fuel →
      ((Schema.entries (doorEntries "old")).compile (doorHost "old") fuel).Ends ∧
        ((Schema.entries (doorEntries "new")).compile (doorHost "new") fuel).Ends := by
  have hs : (Schema.entries (doorEntries "old")).bodiless =
      (Schema.entries (doorEntries "new")).bodiless := rfl
  have hhost : (doorHost "old").SameButBodies (doorHost "new") := fun _ => rfl
  obtain ⟨halike, hends⟩ := Schema.compile_static hs hhost
  refine ⟨hs, hhost, ?_, hends ⟨[.function "lock"], fun d hd => ?_⟩ fun t ht => ?_⟩
  · have he : ((Schema.entries (doorEntries "old")).compile (doorHost "old") 60).result =
        .error (.fault (.invalidSchema
          { key := .single (.atom "guard"), keysPath := [.atom "locks"],
            reason := .renameTarget (.atom "guard") "keeper" })) := by
      with_unfolding_all rfl
    rcases halike 60 with ⟨hok, -⟩ | ⟨_, e', hfault, hfault', hsame⟩ | ⟨hexhausted, -⟩
    · simp [he] at hok
    · cases he.symm.trans hfault
      exact ⟨e', hfault', hsame.keysPath.symm, hsame.message.symm⟩
    · simp [he] at hexhausted
  · rcases doorEntries_within hd with h | h
    · cases h
    · cases h
      exact List.mem_singleton_self _
  · rcases doorEntries_within ht with rfl | rfl
    · exact ⟨_, .entries _⟩
    · exact ⟨_, .deferred (.entries _)⟩

end Conform
