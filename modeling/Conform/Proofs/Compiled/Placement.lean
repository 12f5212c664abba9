import Conform.Compiled
import Conform.Proofs.Run.Faults
import Conform.Proofs.Schema.Revision

namespace Conform

open Run

/-- A calling program that has no functions and produces no schemas of its own. -/
def Host.bare : Host where
  call _ _ := .nil
  produce _ := .empty

/-- Keys stand on types that accept them, and renamed options have their new key declared later. -/
structure Entry.Placed (es : List Entry) : Prop where
  keys : ∀ e ∈ es, e.spec.keys?.isSome = true → e.spec.type.acceptsKeys = true
  targets : ∀ before e later target, es = before ++ e :: later →
    e.spec.renameTo? = some target → ∃ d ∈ later, d.key = .atom target

namespace Entry

variable {e : Entry} {es : List Entry}

theorem placed_nil : Placed [] where
  keys := by simp
  targets := by simp

theorem placed_cons : Placed (e :: es) ↔
    ((e.spec.keys?.isSome = true → e.spec.type.acceptsKeys = true) ∧
      ∀ target, e.spec.renameTo? = some target → ∃ d ∈ es, d.key = .atom target) ∧
    Placed es := by
  constructor
  · intro h
    refine ⟨⟨h.keys e (by simp), fun target => h.targets [] e es target rfl⟩, ?_, ?_⟩
    · exact fun d hd => h.keys d (List.mem_cons_of_mem _ hd)
    · rintro before d later target rfl
      exact h.targets (e :: before) d later target rfl
  · rintro ⟨⟨hkeys, htargets⟩, hes⟩
    refine ⟨List.forall_mem_cons.2 ⟨hkeys, hes.keys⟩, fun before d later target h => ?_⟩
    rcases List.cons_eq_append_iff.1 h with ⟨rfl, h⟩ | ⟨before, rfl, rfl⟩
    · cases h
      exact htargets target
    · exact hes.targets before d later target rfl

variable {path : List Value}

theorem checkRename_eq_ok {later : List Entry} :
    (checkRename path e.key e.spec.renameTo? later).result = .ok () ↔
      ∀ target, e.spec.renameTo? = some target → ∃ d ∈ later, d.key = .atom target := by
  unfold checkRename
  split
  next h => simp [h]
  next target h =>
    rw [h]
    split
    next hany => simpa using hany
    next hany => simpa using hany

theorem checkKeys_eq_ok :
    (checkKeys path e.key e.spec.type e.spec.keys?).result = .ok () ↔
      (e.spec.keys?.isSome = true → e.spec.type.acceptsKeys = true) := by
  unfold checkKeys
  cases e.spec.keys? <;> cases e.spec.type.acceptsKeys <;> simp

variable {bad : Prop}

theorem failsOnly_checkRename {later : List Entry}
    (h : ¬(∀ target, e.spec.renameTo? = some target → ∃ d ∈ later, d.key = .atom target) → bad) :
    (checkRename path e.key e.spec.renameTo? later).FailsOnly bad := by
  by_cases htarget : ∀ target, e.spec.renameTo? = some target → ∃ d ∈ later, d.key = .atom target
  · exact failsOnly_of_ok (checkRename_eq_ok.2 htarget)
  · unfold checkRename
    split
    · exact failsOnly_pure _
    · split
      · exact failsOnly_pure _
      · exact failsOnly_fault (h htarget)

theorem failsOnly_checkKeys
    (h : ¬(e.spec.keys?.isSome = true → e.spec.type.acceptsKeys = true) → bad) :
    (checkKeys path e.key e.spec.type e.spec.keys?).FailsOnly bad := by
  by_cases hkeys : e.spec.keys?.isSome = true → e.spec.type.acceptsKeys = true
  · exact failsOnly_of_ok (checkKeys_eq_ok.2 hkeys)
  · unfold checkKeys
    split
    · exact failsOnly_pure _
    · exact failsOnly_fault (h hkeys)

end Entry

section

variable (force : Force)

mutual

theorem OptionType.walk_eq_foldlM (path : List Value) : (t : OptionType) → (done : List Code) →
    t.walk force path done = t.schemas.foldlM (fun done s => s.walk force path done) done
  | .mapOf key value, done => by
    rw [OptionType.walk, OptionType.walk_eq_foldlM path key]
    simp only [OptionType.schemas, OptionType.parts, List.filterMap_cons, OptionType.container?,
      Option.map_none, List.filterMap_append, List.foldlM_append]
    refine congrArg _ (funext fun done' => ?_)
    exact OptionType.walk_eq_foldlM path value done'
  | .listOf t, done => by
    rw [OptionType.walk, OptionType.walk_eq_foldlM path t]
    rfl
  | .union ts, done => by
    rw [OptionType.walk, OptionType.walkAll_eq_foldlM path ts]
    rfl
  | .tupleOf ts, done => by
    rw [OptionType.walk, OptionType.walkAll_eq_foldlM path ts]
    rfl
  | .keywordListOf s, done | .nonEmptyKeywordListOf s, done | .mapOfKeys s, done => by
    rw [OptionType.walk]
    exact (bind_pure _).symm
  | .basic _, _ | .function _, _ | .oneOf _, _ | .custom _ _, _ | .struct _, _ => by
    simp [OptionType.walk, OptionType.schemas, OptionType.parts, OptionType.container?]

theorem OptionType.walkAll_eq_foldlM (path : List Value) : (ts : List OptionType) →
    (done : List Code) → OptionType.walkAll force path ts done =
      ((OptionType.partsAll ts).filterMap fun u => u.container?.map Prod.snd).foldlM
        (fun done s => s.walk force path done) done
  | [], done => by simp [OptionType.walkAll, OptionType.partsAll]
  | t :: ts, done => by
    rw [OptionType.walkAll, OptionType.walk_eq_foldlM path t, OptionType.partsAll,
      List.filterMap_append, List.foldlM_append]
    refine congrArg _ (funext fun done' => ?_)
    exact OptionType.walkAll_eq_foldlM path ts done'

end

theorem OptionSpec.walk_eq (path : List Value) (key : SchemaKey) (later : List Entry)
    (spec : OptionSpec) (done : List Code) :
    spec.walk force path key later done = (do
      Entry.checkRename path key spec.renameTo? later
      Entry.checkKeys path key spec.type spec.keys?
      spec.schemas.foldlM (fun done s => s.walk force (path ++ [key.toValue]) done) done) := by
  obtain ⟨t, required, default?, keys?, deprecation?, renameTo?, doc?, subsection?, typeDoc?,
    redact⟩ := spec
  rw [OptionSpec.walk]
  dsimp only [OptionSpec.schemas]
  simp only [List.foldlM_append, ← OptionType.walk_eq_foldlM]
  cases keys? with
  | none => simp [Schema.walk?]
  | some s => simp [Schema.walk?]

theorem Entry.walkAll_cons (path : List Value) (e : Entry) (later : List Entry)
    (done : List Code) :
    Entry.walkAll force path (e :: later) done = (do
      Entry.checkRename path e.key e.spec.renameTo? later
      Entry.checkKeys path e.key e.spec.type e.spec.keys?
      let done ← e.spec.schemas.foldlM
        (fun done s => s.walk force (path ++ [e.key.toValue]) done) done
      Entry.walkAll force path later done) := by
  obtain ⟨key, spec⟩ := e
  rw [Entry.walkAll, OptionSpec.walk_eq]
  simp only [bind_assoc]

end

section

variable {force : Force} {r : Revision} (hr : r.KeepsText)

include hr

theorem Entry.walkAll_revise {es : List Entry}
    (h : ∀ e ∈ es, ∀ s ∈ e.spec.schemas, ∀ path done,
      (s.revise r).walk force path done = s.walk force path done)
    (path : List Value) (done : List Code) :
    walkAll force path (es.map (revise r)) done = walkAll force path es done := by
  induction es generalizing done with
  | nil => rw [List.map_nil]
  | cons e es ih =>
    have hrename : ∀ renameTo?, checkRename path e.key renameTo? (es.map (revise r)) =
        checkRename path e.key renameTo? es := by
      intro renameTo?
      simp only [checkRename, List.any_map, Function.comp_def, key_revise]
    have hkeys : checkKeys path e.key (e.spec.type.revise r)
        (e.spec.keys?.map (Schema.revise r)) = checkKeys path e.key e.spec.type e.spec.keys? := by
      simp only [checkKeys, OptionType.acceptsKeys_revise, OptionType.name_revise hr,
        Option.isNone_map]
    have hinner : ∀ {done}, e.spec.schemas.foldlM
          (fun done s => (s.revise r).walk force (path ++ [e.key.toValue]) done) done =
        e.spec.schemas.foldlM (fun done s => s.walk force (path ++ [e.key.toValue]) done) done :=
      foldlM_congr (fun s hs done => h e (by simp) s hs _ done) _
    have hrest : ∀ done, walkAll force path (es.map (revise r)) done = walkAll force path es done :=
      ih fun d hd => h d (List.mem_cons_of_mem _ hd)
    simp only [List.map_cons, walkAll_cons, key_revise, spec_revise, OptionSpec.renameTo_revise,
      OptionSpec.type_revise, OptionSpec.keys_revise, OptionSpec.schemas_revise, List.foldlM_map,
      hrename, hkeys, hinner, hrest]

theorem Schema.walk_revise (s : Schema) (path : List Value) (done : List Code) :
    (s.revise r).walk force path done = s.walk force path done := by
  induction s using inside_induction generalizing path done with
  | deferred d => rw [revise]
  | entries es ih =>
    rw [revise_entries, walk, walk]
    exact Entry.walkAll_revise hr ih path done

end

/-- The schemas that stand in the rules of entries, with their paths, in order. -/
def Entry.inner (path : List Value) (es : List Entry) : List (List Value × Schema) :=
  es.flatMap fun e => e.spec.schemas.map (path ++ [e.key.toValue], ·)

theorem Entry.mem_inner {path : List Value} {es : List Entry} {x : List Value × Schema}
    (h : x ∈ Entry.inner path es) : ∃ e ∈ es, x.2 ∈ e.spec.schemas := by
  obtain ⟨e, he, h⟩ := List.mem_flatMap.1 h
  obtain ⟨s, hs, rfl⟩ := List.mem_map.1 h
  exact ⟨e, he, hs⟩

theorem Entry.mem_inner_of_mem {path : List Value} {es : List Entry} {e : Entry} (he : e ∈ es)
    {s : Schema} (hs : s ∈ e.spec.schemas) : (path ++ [e.key.toValue], s) ∈ Entry.inner path es :=
  List.mem_flatMap.2 ⟨e, he, List.mem_map.2 ⟨s, hs, rfl⟩⟩

theorem Entry.walkAll_eq_ok {force : Force} {path : List Value} {es : List Entry}
    {done done' : List Code} :
    (Entry.walkAll force path es done).result = .ok done' ↔ Entry.Placed es ∧
      ((Entry.inner path es).foldlM
        (fun done (x : List Value × Schema) => x.2.walk force x.1 done) done).result =
        .ok done' := by
  induction es generalizing done with
  | nil => simp [Entry.walkAll, Entry.inner, Entry.placed_nil]
  | cons e es ih =>
    have hinner : Entry.inner path (e :: es) =
        e.spec.schemas.map (path ++ [e.key.toValue], ·) ++ Entry.inner path es := rfl
    rw [Entry.walkAll_cons, hinner, List.foldlM_append, List.foldlM_map, Entry.placed_cons]
    rw [bind_unit_eq_ok, bind_unit_eq_ok, checkRename_eq_ok, checkKeys_eq_ok]
    simp only [bind_eq_ok, ih]
    constructor
    · rintro ⟨hrename, hkeys, done₁, hfold, hplaced, hrest⟩
      exact ⟨⟨⟨hkeys, hrename⟩, hplaced⟩, done₁, hfold, hrest⟩
    · rintro ⟨⟨⟨hkeys, hrename⟩, hplaced⟩, done₁, hfold, hrest⟩
      exact ⟨hrename, hkeys, done₁, hfold, hplaced, hrest⟩

theorem Entry.failsOnly_walkAll {force : Force} {bad : Prop} {path : List Value} {es : List Entry}
    (hplaced : ¬Entry.Placed es → bad)
    (hinner : ∀ e ∈ es, ∀ s ∈ e.spec.schemas, ∀ path done, (s.walk force path done).FailsOnly bad)
    (done : List Code) : (Entry.walkAll force path es done).FailsOnly bad := by
  induction es generalizing done with
  | nil =>
    rw [Entry.walkAll]
    exact failsOnly_pure _
  | cons e es ih =>
    rw [placed_cons] at hplaced
    rw [Entry.walkAll_cons]
    refine failsOnly_bind (failsOnly_checkRename fun h => hplaced fun hp => h hp.1.2) fun _ => ?_
    refine failsOnly_bind (failsOnly_checkKeys fun h => hplaced fun hp => h hp.1.1) fun _ => ?_
    refine failsOnly_bind ?_ fun done' => ?_
    · exact failsOnly_foldlM (fun s hs done => hinner e (by simp) s hs _ done) done
    · exact ih (fun h => hplaced fun hp => h hp.2)
        (fun d hd => hinner d (List.mem_cons_of_mem _ hd)) done'

namespace Schema

variable {s : Schema}

def Written (s : Schema) : Prop := ∀ d, ¬Inside (.deferred d) s

/-- The entries of every level are well placed, as far as the schema is written out. -/
def Orderly (s : Schema) : Prop := ∀ es, Inside (.entries es) s → Entry.Placed es

theorem orderly_entries {es : List Entry} : Orderly (.entries es) ↔
    Entry.Placed es ∧ ∀ e ∈ es, ∀ t ∈ e.spec.schemas, Orderly t := by
  constructor
  · exact fun h => ⟨h es .self, fun e he t ht ds hds => h ds (.inner he ht hds)⟩
  · rintro ⟨hplaced, h⟩ ds hds
    cases hds with
    | self => exact hplaced
    | inner he ht hds => exact h _ he _ ht ds hds

theorem written_entries {es : List Entry} : Written (.entries es) ↔
    ∀ e ∈ es, ∀ t ∈ e.spec.schemas, Written t := by
  constructor
  · exact fun h e he t ht d hd => h d (.inner he ht hd)
  · intro h d hd
    cases hd with
    | inner he ht hd => exact h _ he _ ht d hd

variable {force : Force} {path : List Value} {done done' : List Code}

theorem orderly_of_walk (hs : s.Written) (h : (s.walk force path done).result = .ok done') :
    s.Orderly := by
  induction s using inside_induction generalizing path done done' with
  | deferred d => exact absurd .self (hs d)
  | entries es ih =>
    obtain ⟨hplaced, hwalk⟩ := Entry.walkAll_eq_ok.1 h
    refine orderly_entries.2 ⟨hplaced, fun e he t ht => ?_⟩
    obtain ⟨c, c', hc⟩ := exists_ok_of_foldlM (Entry.mem_inner_of_mem he ht) hwalk
    exact ih e he t ht (written_entries.1 hs e he t ht) hc

theorem failsOnly_walk (hs : s.Written) : (s.walk force path done).FailsOnly (¬s.Orderly) := by
  induction s using inside_induction generalizing path done with
  | deferred d => exact absurd .self (hs d)
  | entries es ih =>
    refine Entry.failsOnly_walkAll ?_ (fun e he t ht path done => ?_) done
    · exact fun hplaced horderly => hplaced (orderly_entries.1 horderly).1
    · refine (ih e he t ht (written_entries.1 hs e he t ht)).mono fun hnot horderly => ?_
      exact hnot ((orderly_entries.1 horderly).2 e he t ht)

variable {host : Host} {fuel : Nat}

theorem orderly_of_checkPlacement (hs : s.Written)
    (h : (s.checkPlacement host fuel).result = .ok ()) : s.Orderly := by
  obtain ⟨done, hwalk, -⟩ := Run.bind_eq_ok.1 h
  exact orderly_of_walk hs hwalk

theorem failsOnly_checkPlacement (hs : s.Written) :
    (s.checkPlacement host fuel).FailsOnly (¬s.Orderly) :=
  Run.failsOnly_bind (failsOnly_walk hs) fun _ => Run.failsOnly_pure _

end Schema

namespace Deferred

variable {host : Host} {limit fuel : Nat} {active done : List Code} {d : Deferred}
variable {path : List Value}

theorem check_of_mem (h : d.producer.code ∈ active ∨ d.producer.code ∈ done) :
    check host limit fuel active d path done = pure done := by
  rw [check.eq_def]
  exact if_pos (by simpa using h)

theorem check_zero (h : ¬(d.producer.code ∈ active ∨ d.producer.code ∈ done)) :
    check host limit 0 active d path done = .fail .exhausted := by
  rw [check.eq_def]
  exact if_neg (by simpa using h)

theorem check_succ (h : ¬(d.producer.code ∈ active ∨ d.producer.code ∈ done)) :
    check host limit (fuel + 1) active d path done = (do
      let es ← Run.ofOption ((host.schemaOf d).resolve? host limit)
      Schema.checkData host limit path (Schema.entries es).toValue
      let done ← Entry.walkAll (check host limit fuel (d.producer.code :: active)) path es done
      return if d.producer.code.isStateless then d.producer.code :: done else done) := by
  rw [check.eq_def]
  exact if_neg (by simpa using h)

/-- A deferred schema that is not passed is produced. Its data form and its entries are checked, and
its code is done if it has no state. -/
theorem check_eq_ok {done' : List Code}
    (h : (check host limit fuel active d path done).result = .ok done') :
    (d.producer.code ∈ active ∨ d.producer.code ∈ done) ∧ done' = done ∨
      ∃ fuel' es done₁, fuel = fuel' + 1 ∧ (Schema.deferred d).Resolves host es ∧
        (Schema.checkData host limit path (Schema.entries es).toValue).result = .ok () ∧
        (Entry.walkAll (check host limit fuel' (d.producer.code :: active)) path es done).result =
          .ok done₁ ∧
        done' = if d.producer.code.isStateless then d.producer.code :: done₁ else done₁ := by
  by_cases hmem : d.producer.code ∈ active ∨ d.producer.code ∈ done
  · rw [check_of_mem hmem] at h
    cases h
    exact .inl ⟨hmem, rfl⟩
  · right
    cases fuel with
    | zero =>
      rw [check_zero hmem] at h
      cases h
    | succ fuel =>
      rw [check_succ hmem] at h
      obtain ⟨es, hes, h⟩ := bind_eq_ok.1 h
      obtain ⟨hdata, h⟩ := bind_unit_eq_ok.1 h
      obtain ⟨done₁, hwalk, h⟩ := bind_eq_ok.1 h
      cases h
      have hresolves := Schema.resolves_of_resolve? (ofOption_eq_ok.1 hes)
      exact ⟨fuel, es, done₁, rfl, .deferred hresolves, hdata, hwalk, rfl⟩

end Deferred

namespace Schema

variable {host : Host} {fuel : Nat} {s : Schema} {es : List Entry}

theorem check_eq_ok : (s.check host fuel).result = .ok () ↔
    (s.isDeferred = false → (checkData host fuel [] s.toValue).result = .ok ()) ∧
      ∃ done, (s.walk (Deferred.check host fuel fuel []) [] []).result = .ok done := by
  have hplacement : (s.checkPlacement host fuel).result = .ok () ↔
      ∃ done, (s.walk (Deferred.check host fuel fuel []) [] []).result = .ok done := by
    simp [checkPlacement, map_eq_ok]
  unfold check
  cases s.isDeferred with
  | true => simp [hplacement]
  | false => simp [hplacement, bind_unit_eq_ok]

theorem compile_eq_ok {c : Compiled} : (s.compile host fuel).result = .ok c ↔
    c = ⟨s⟩ ∧ (s.check host fuel).result = .ok () ∧ ∃ es, s.resolve? host fuel = some es := by
  unfold compile
  rw [bind_unit_eq_ok, bind_eq_ok]
  simp only [ofOption_eq_ok]
  constructor
  · rintro ⟨hcheck, es, hes, h⟩
    cases (bind_unit_eq_ok.1 h).2
    exact ⟨rfl, hcheck, es, hes⟩
  · rintro ⟨rfl, hcheck, es, hes⟩
    exact ⟨hcheck, es, hes, rfl⟩

theorem placed_of_compile {c : Compiled} (h : (s.compile host fuel).result = .ok c)
    (hes : s.Resolves host es) : Entry.Placed es := by
  obtain ⟨-, hcheck, -⟩ := compile_eq_ok.1 h
  obtain ⟨-, done, hwalk⟩ := check_eq_ok.1 hcheck
  cases s with
  | entries ds =>
    cases hes
    exact (Entry.walkAll_eq_ok.1 hwalk).1
  | deferred d =>
    rcases Deferred.check_eq_ok hwalk with ⟨hmem, -⟩ | ⟨_, ds, _, -, hds, -, hwalk, -⟩
    · simp at hmem
    · cases hds.unique hes
      exact (Entry.walkAll_eq_ok.1 hwalk).1

end Schema

end Conform
