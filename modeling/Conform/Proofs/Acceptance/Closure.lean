import Conform.Proofs.Acceptance.Location
import Conform.Proofs.Acceptance.Order
import Conform.Proofs.Acceptance.Uniqueness

namespace Conform

open Run

variable {acceptance : Acceptance} {redact : Bool}

/-- Where nothing can be moved, the treatment of an option leaves all other keys as they are. -/
theorem OptionSpec.find?_accept_of_unmoved {spec : OptionSpec} {key k : Value}
    {pairs pairs' : List (Value × Value)}
    (h : (spec.accept acceptance redact key pairs).result = .ok pairs') (hk : (key == k) = false)
    (hmoved : spec.renameTo?.isSome → Pairs.find? pairs key = none ∧ spec.default? = none) :
    Pairs.find? pairs' k = Pairs.find? pairs k := by
  cases hname : spec.renameTo? with
  | none => exact find?_accept h hk (by simp [hname])
  | some target =>
    obtain ⟨habsent, hdefault⟩ := hmoved (by rw [hname]; rfl)
    rcases accept_eq_ok.1 h with ⟨-, rfl⟩ | ⟨given, supplied, accepted, hsupply, -, -⟩
    · rfl
    · rcases supply_eq_some hsupply with ⟨hfind, -⟩ | ⟨-, hfilled, -⟩
      · rw [habsent] at hfind
        cases hfind
      · rw [hdefault] at hfilled
        cases hfilled

namespace Options

variable {es : List Entry} {o m : Options}

theorem Accounted.count_le_one (h : m.Accounted es o) (ho : o.WellShaped)
    (hshape : m.shape = .keyword) {name : String} (hname : ¬Entry.FillsIn es name) :
    ((named m.pairs).map Prod.fst).count name ≤ 1 := by
  have hatom : ∀ p ∈ m.pairs, p.1.fieldName = name → p.1 = .atom name := by
    intro p hp hp'
    obtain ⟨name', hkey | ⟨hkey, hfilled⟩⟩ := h.atom_or_filledIn ho hshape p hp
    · rw [hkey] at hp' ⊢
      exact congrArg Value.atom hp'
    · rw [hkey] at hp'
      obtain rfl : name' = name := hp'
      exact absurd hfilled hname
  calc ((named m.pairs).map Prod.fst).count name
      = m.pairs.countP fun p => p.1.fieldName == name := by
        rw [named, List.map_map, List.count, List.countP_map]
        rfl
    _ ≤ Pairs.occurrences (.atom name) m.pairs := by
        apply List.countP_mono_left
        intro p hp hp'
        rw [hatom p hp (by simpa using hp')]
        exact Value.beq_self_iff.2 rfl
    _ ≤ 1 := Pairs.distinct_iff_occurrences.1 h.distinct _

/-- Of the names of normal options only those filled in for strings are unknown to the schema. -/
theorem Accounted.filledIn_of_unknown (h : m.Accounted es o) (ho : o.WellShaped)
    (hshape : m.shape = .keyword) (hplaced : Entry.Placed es) (hknown : unknown es o = [])
    {n : Options} (hn : ofValue? (.keyword (named m.pairs)) = some n) {key : Value}
    (hkey : key ∈ unknown es n) : ∃ name, key = .atom name ∧ Entry.FillsIn es name := by
  cases hn
  rw [unknown_eq_filter, List.mem_filter] at hkey
  obtain ⟨hmem, hunknown⟩ := hkey
  obtain ⟨q, hq, rfl⟩ := Pairs.mem_of_mem_keys hmem
  obtain ⟨r, hr, rfl⟩ := List.mem_map.1 hq
  obtain ⟨p, hp, rfl⟩ := List.mem_map.1 hr
  obtain ⟨name, hp' | ⟨hp', hfilled⟩⟩ := h.atom_or_filledIn ho hshape p hp
  · have hknows := (h.accounts p hp).knows hplaced (unknown_eq_nil_iff.1 hknown)
    rw [hp'] at hknows
    simp [hp', Value.fieldName, hknows] at hunknown
  · exact ⟨name, by rw [hp']; rfl, hfilled⟩

theorem rejected_of_acceptAll {declared : List (Value × OptionSpec)} {ps : List (Value × Value)}
    (hdistinct : Pairs.Distinct declared)
    (hmoved : ∀ d ∈ declared, d.2.renameTo?.isSome →
      Pairs.find? ps d.1 = none ∧ d.2.default? = none) {e : ValidationError}
    (h : (acceptAll acceptance redact declared ps).result = .error (.invalid e)) :
    ∃ d ∈ declared, (∃ reason, e = { key := .single d.1, reason }) ∨
      ∃ v, (Pairs.find? ps d.1).or d.2.default? = some v ∧
        (acceptance d.2.effectiveType (.option d.1) v ⟨d.1, redact || d.2.redact⟩).result =
          .error (.invalid e) := by
  induction declared generalizing ps with
  | nil => cases h
  | cons d declared ih =>
    unfold acceptAll at h
    rw [List.foldlM_cons] at h
    rcases bind_eq_error.1 h with h | ⟨held, hstep, h⟩
    · refine ⟨d, by simp, ?_⟩
      rcases OptionSpec.rejected_of_accept h with
        ⟨-, -, rfl⟩ | ⟨given, supplied, hsupply, hrejected⟩
      · exact .inl ⟨_, rfl⟩
      · refine .inr ⟨given, ?_, hrejected⟩
        rcases OptionSpec.supply_eq_some hsupply with ⟨hfind, -⟩ | ⟨hnone, hdefault, -⟩
        · rw [hfind]
          rfl
        · rw [hnone, hdefault]
          rfl
    · -- The invariant of the induction: the options to come have what they had.
      have hfind : ∀ d' ∈ declared, Pairs.find? held d'.1 = Pairs.find? ps d'.1 := by
        intro d' hd'
        have hne : (d.1 == d'.1) = false := List.rel_of_pairwise_cons hdistinct hd'
        exact OptionSpec.find?_accept_of_unmoved hstep hne (hmoved d (by simp))
      obtain ⟨d', hd', hrejected⟩ := ih hdistinct.of_cons (fun d' hd' hname => by
        rw [hfind d' hd']
        exact hmoved d' (List.mem_cons_of_mem _ hd') hname) h
      rw [hfind d' hd'] at hrejected
      exact ⟨d', List.mem_cons_of_mem _ hd', hrejected⟩

end Options

/-- Entries whose normal options hold under each key what the type of the option made of some
value, and which find all these keys again: no key is declared twice, renamed options have no
default and their new key is declared later, what the wildcard covers keeps its key, and no string
has a default. -/
structure Entry.Stable (es : List Entry) : Prop where
  distinct : DistinctKeys es
  placed : Placed es
  wildcard : ∀ e ∈ es, e.key = .wildcard → e.spec.renameTo? = none
  renamed : ∀ e ∈ es, e.spec.renameTo?.isSome → e.spec.default? = none
  strings : ∀ e ∈ es, ∀ name, e.key = .string name → e.spec.default? = none

namespace Options

variable {es : List Entry} {o : Options} {final : List (Value × Value)}

theorem exists_declared_before (hes : Entry.Stable es) (hknown : unknown es o = [])
    (h : Accounted es { o with pairs := final } o) {d : Value × OptionSpec}
    (hd : d ∈ Entry.expand es (Pairs.keys final)) :
    ∃ d' ∈ Entry.expand es (Pairs.keys o.pairs), (d'.1 == d.1) = true ∧ d'.2 = d.2 := by
  obtain ⟨key, spec⟩ := d
  cases Entry.declares_of_mem_expand hd with
  | explicit he hkey =>
    exact ⟨_, Entry.mem_expand_of_explicit _ he hkey (Pairs.pairwise_keys _),
      SchemaKey.beq_self_of_option? hkey, rfl⟩
  | @wildcard e p he hwildcard hp hother =>
    have haccounts := h.accounts p hp
    have hself : (p.1 == p.1) = true :=
      Value.beq_self_iff.2 (haccounts.knows hes.placed (unknown_eq_nil_iff.1 hknown)).1
    generalize p.1 = key at haccounts hself hother
    cases haccounts with
    | given hq =>
      exact Entry.exists_of_declares hes.distinct (.wildcard he hwildcard hq hother) hself
    | filledIn he' hkey => exact absurd hkey (hother _ he')
    | @target e' name he' htarget =>
      obtain ⟨before, later, rfl⟩ := List.append_of_mem he'
      obtain ⟨d, hd, hkey⟩ := hes.placed.targets before e' later name rfl htarget
      exact absurd (by rw [hkey]; rfl) (hother d (by simp [hd]))

theorem isSome_find?_final {declared : List (Value × OptionSpec)} {ps : List (Value × Value)}
    {d : Value × OptionSpec} (hdistinct : Pairs.Distinct declared) (hforward : Forward declared)
    (h : (acceptAll acceptance redact declared ps).result = .ok final) (hd : d ∈ declared)
    (hkey : (d.1 == d.1) = true) (hname : d.2.renameTo? = none)
    (hdefault : d.2.default? ≠ none) : (Pairs.find? final d.1).isSome := by
  obtain ⟨before, after, hdeclared⟩ := List.append_of_mem hd
  rw [hdeclared, acceptAll_append_eq_ok] at h
  obtain ⟨held, -, h⟩ := h
  obtain ⟨held', hstep, hafter⟩ := acceptAll_cons_eq_ok.1 h
  rw [find?_final hdistinct hforward hdeclared hafter]
  rcases OptionSpec.accept_eq_ok.1 hstep with ⟨hnone, -⟩ | ⟨given, supplied, w, -, -, rfl⟩
  · exact absurd (OptionSpec.default?_of_supply_eq_none hnone) hdefault
  · rw [OptionSpec.find?_place_self hname hkey]
    rfl

/-- What normal options hold under the key of an option is what its type made of some value. A
renamed option has no value there, and one with a default has. -/
theorem held_of_acceptAll (hes : Entry.Stable es) (hknown : unknown es o = [])
    (hfinal : (acceptAll acceptance redact (Entry.expand es (Pairs.keys o.pairs)) o.pairs).result =
      .ok final) {d : Value × OptionSpec} (hd : d ∈ Entry.expand es (Pairs.keys final)) :
    (∀ v, Pairs.find? final d.1 = some v → ∃ label given cx,
      (acceptance d.2.effectiveType label given cx).result = .ok v) ∧
    (d.2.renameTo?.isSome → Pairs.find? final d.1 = none) ∧
    (d.2.default? ≠ none → (Pairs.find? final d.1).isSome) := by
  have hkeys := Pairs.pairwise_keys o.pairs
  have hdistinct := Entry.distinct_expand hes.distinct hkeys
  have hforward := hes.placed.forward hes.wildcard hkeys
  obtain ⟨d', hd', hkey, hspec⟩ :=
    exists_declared_before hes hknown (accounted_of_acceptAll hknown hfinal) hd
  have hself : (d'.1 == d'.1) = true := BEq.trans hkey (BEq.symm hkey)
  rw [← Pairs.find?_congr _ hkey, ← hspec]
  refine ⟨fun v hv => ?_, fun hname => ?_, fun hdefault => ?_⟩
  · obtain ⟨given, stored, hturn⟩ := turn_of_find? hdistinct hforward hfinal hd' hself hv
    obtain ⟨_, _, _, _, -, -, -, haccepted⟩ := hturn
    exact ⟨_, given, _, haccepted⟩
  · obtain ⟨target, htarget⟩ := Option.isSome_iff_exists.1 hname
    exact find?_final_of_renamed hdistinct hforward hfinal hd' htarget
  · obtain ⟨e, he, hspec'⟩ := Entry.spec_of_mem_expand hkeys hd'
    refine isSome_find?_final hdistinct hforward hfinal hd' hself ?_ hdefault
    by_contra hname
    rw [← hspec'] at hname hdefault
    exact hdefault (hes.renamed e he (Option.isSome_iff_ne_none.2 hname))

/-- Normal options are options, all of them known. They are rejected only if one is missing, or if a
type rejects what it made itself. -/
theorem rejected_again (hes : Entry.Stable es) (ho : o.WellShaped) {n : Value}
    (h : (o.accept acceptance redact es).result = .ok n) :
    ∃ m, ofValue? n = some m ∧ ∀ acceptance' redact' e,
      (m.accept acceptance' redact' es).result = .error (.invalid e) →
        ∃ entry ∈ es, ∃ key, (∃ reason, e = { key := .single key, reason }) ∨
          ∃ label given cx label' cx' w,
            (acceptance entry.spec.effectiveType label given cx).result = .ok w ∧
            (acceptance' entry.spec.effectiveType label' w cx').result = .error (.invalid e) := by
  obtain ⟨hknown, final, hfinal, rfl⟩ := acceptAll_of_accept h
  have haccounted := accounted_of_acceptAll hknown hfinal
  have hshaped : WellShaped { o with pairs := final } := by
    refine haccounted.wellShaped ho fun _ name hfilled => ?_
    obtain ⟨e, he, hkey, hdefault, -⟩ := hfilled
    rw [hes.strings e he name hkey] at hdefault
    cases hdefault
  refine ⟨_, ofValue?_toValue hshaped, fun acceptance' redact' e he => ?_⟩
  have hknown' : unknown es { o with pairs := final } = [] := unknown_eq_nil_iff.2 fun p hp =>
    (haccounted.accounts p hp).knows hes.placed (unknown_eq_nil_iff.1 hknown)
  rw [accept_eq_acceptAll hknown', map_eq_error] at he
  have hkeys := Pairs.pairwise_keys final
  have hheld := fun d hd => held_of_acceptAll hes hknown hfinal (d := d) hd
  have hmoved : ∀ d ∈ Entry.expand es (Pairs.keys final), d.2.renameTo?.isSome →
      Pairs.find? final d.1 = none ∧ d.2.default? = none := by
    intro d hd hname
    obtain ⟨entry, hentry, hspec⟩ := Entry.spec_of_mem_expand hkeys hd
    exact ⟨(hheld d hd).2.1 hname, hspec ▸ hes.renamed entry hentry (hspec ▸ hname)⟩
  obtain ⟨d, hd, hrejected⟩ :=
    rejected_of_acceptAll (Entry.distinct_expand hes.distinct hkeys) hmoved he
  obtain ⟨entry, hentry, hspec⟩ := Entry.spec_of_mem_expand hkeys hd
  refine ⟨entry, hentry, d.1, hrejected.imp id ?_⟩
  rintro ⟨w, hw, hrejected⟩
  obtain ⟨hmade, -, hfilled⟩ := hheld d hd
  rw [hspec]
  cases hfind : Pairs.find? final d.1 with
  | some v =>
    rw [hfind] at hw
    cases hw
    obtain ⟨label, given, cx, hmade⟩ := hmade _ hfind
    exact ⟨label, given, cx, _, _, _, hmade, hrejected⟩
  | none =>
    -- A default was filled in before, so it is not looked at.
    rw [hfind] at hw
    have hsome := hfilled (by rw [show d.2.default? = some w from hw]; simp)
    rw [hfind] at hsome
    cases hsome

end Options

namespace OptionType

variable {host : Host} {fuel : Nat} {t u : OptionType} {label : Label} {v w n : Value}
  {cx : Context}

theorem exists_accept_of_mem_map {keyType valueType : OptionType} {pairs : List (Value × Value)}
    (h : ((mapOf keyType valueType).accept host fuel label v cx).result = .ok (.map pairs))
    {p : Value × Value} (hp : p ∈ pairs) :
    ∃ q fuel label v, (keyType.accept host fuel .mapKey q cx).result = .ok p.1 ∧
      (valueType.accept host fuel label v cx).result = .ok p.2 := by
  cases fuel with
  | zero => simp [accept_zero] at h
  | succ fuel =>
    rw [accept_mapOf] at h
    split at h
    next given =>
      obtain ⟨accepted, haccepted, hn⟩ := bind_eq_ok.1 h
      cases hn
      obtain ⟨q, -, hq⟩ := exists_of_mem_mapM haccepted hp
      obtain ⟨key, hkey, hq⟩ := bind_eq_ok.1 hq
      obtain ⟨item, hitem, hq⟩ := bind_eq_ok.1 hq
      cases hq
      exact ⟨q.1, fuel, _, q.2, mapRejection_eq_ok.1 hkey, mapRejection_eq_ok.1 hitem⟩
    next => cases h

/-- What an accepted value holds on the way down is what the types on the way made of some value. -/
theorem exists_accept_of_reaches (hreaches : Reaches False t n u w)
    (h : (t.accept host fuel label v cx).result = .ok n) :
    ∃ fuel label v cx, (u.accept host fuel label v cx).result = .ok w := by
  -- The induction is on the way down. It leads through no union, so the type of a part made
  -- the part.
  induction hreaches generalizing fuel label v cx with
  | here => exact ⟨fuel, label, v, cx, h⟩
  | alternative hunions => exact hunions.elim
  | mapKey hp _ ih =>
    obtain ⟨pair, fuel, label, v, hkey, -⟩ := exists_accept_of_mem_map h hp
    exact ih hkey
  | mapValue hp _ ih =>
    obtain ⟨pair, fuel, label, v, -, hitem⟩ := exists_accept_of_mem_map h hp
    exact ih hitem
  | listElement hitems hitem _ ih =>
    cases fuel with
    | zero => simp [accept_zero] at h
    | succ fuel =>
      rw [accept_listOf] at h
      split at h
      next items =>
        obtain ⟨accepted, haccepted, hn⟩ := bind_eq_ok.1 h
        cases hn
        cases hitems
        obtain ⟨item, -, hok⟩ := exists_of_mem_mapM haccepted hitem
        exact ih (mapRejection_eq_ok.1 hok)
      next => cases h
  | tupleElement hp _ ih =>
    cases fuel with
    | zero => simp [accept_zero] at h
    | succ fuel =>
      rw [accept_tupleOf] at h
      split at h
      next items =>
        split at h
        next =>
          obtain ⟨accepted, haccepted, hn⟩ := bind_eq_ok.1 h
          cases hn
          obtain ⟨item, -, j, hok⟩ := exists_of_mem_zip_mapM haccepted hp
          exact ih (mapRejection_eq_ok.1 hok)
        next => cases h
      next => cases h

/-- The options that an accepted value holds are what their schema made of some options. -/
theorem exists_accept_of_holds {s : Schema} {item : Value} (hholds : t.Holds False n s item)
    (h : (t.accept host fuel label v cx).result = .ok n) :
    ∃ fuel v redact, (s.accept host fuel v redact).result = .ok item := by
  obtain ⟨u, b, hreaches, hcontainer, -⟩ := hholds
  obtain ⟨fuel, label, v, cx, hu⟩ := exists_accept_of_reaches hreaches h
  cases fuel with
  | zero => simp [accept_zero] at hu
  | succ fuel =>
    rw [accept_container _ _ _ _ _ hcontainer] at hu
    split at hu
    next w _ => exact ⟨fuel, w, cx.redact, mapRejection_eq_ok.1 hu⟩
    next => cases hu

end OptionType

namespace Schema

variable {host : Host} {s : Schema}

/-- Where the entries of every level are stable, no schema of any level finds unknown options in
what the schemas accepted. -/
theorem ne_unknown_again (hs : s.Everywhere host Entry.Stable fun _ => True) {fuel fuel' : Nat}
    {v n : Value} {redact redact' : Bool} {e : ValidationError}
    (h : (s.accept host fuel v redact).result = .ok n)
    (he : (s.accept host fuel' n redact').result = .error (.invalid e)) (keys : List Value) :
    e.key ≠ .unknown keys := by
  -- The path gets shorter with each level, and what a level holds was accepted at this level.
  induction hlength : e.keysPath.length using Nat.strongRecOn
    generalizing s fuel fuel' v n redact redact' e with
  | _ length ih =>
    cases ho : Options.ofValue? v with
    | none =>
      cases fuel with
      | zero => simp [accept_zero] at h
      | succ fuel => simp [accept_succ, ho] at h
    | some o =>
      obtain ⟨fuel, es, hes, h⟩ := exists_accept_options ho h (by simp)
      obtain ⟨m, hm, hagain⟩ :=
        Options.rejected_again (hs.entries hes) (Options.wellShaped_of_ofValue? ho) h
      obtain ⟨fuel', es', hes', he⟩ := exists_accept_options hm he (by simp)
      cases hes'.unique hes
      obtain ⟨entry, hentry, key, ⟨reason, rfl⟩ | ⟨label, given, cx, label', cx', w, hmade, he⟩⟩ :=
        hagain _ _ _ he
      · simp
      · rcases OptionType.locates_of_accept he with ⟨reason, rfl, -⟩ | hbelow
        · simp [Context.error_eq]
        · cases hbelow with
          | @intro t item fuel₂ inner hholds hinner =>
            obtain ⟨fuel₁, v₁, redact₁, hitem⟩ := OptionType.exists_accept_of_holds hholds hmade
            have hshorter : inner.keysPath.length < length := by
              rw [← hlength]
              simp [ValidationError.under]
            change inner.key ≠ .unknown keys
            exact ih _ hshorter (hs.contained (.of_holds hes hentry hholds)) hitem hinner rfl

/-- An error without a path that is about unknown options is about the unknown keys of these
options. -/
theorem unknown_of_accept {es : List Entry} {o : Options} {fuel : Nat} {e : ValidationError}
    (he : (o.accept (OptionType.accept host fuel) redact es).result = .error (.invalid e))
    (hpath : e.keysPath = []) {keys : List Value} (hkeys : e.key = .unknown keys) :
    keys = Options.unknown es o := by
  by_cases hknown : Options.unknown es o = []
  · rw [Options.accept_eq_acceptAll hknown, map_eq_error] at he
    obtain ⟨d, -, pairs, he⟩ := exists_error_of_foldlM he
    rcases OptionSpec.rejected_of_accept he with ⟨-, -, rfl⟩ | ⟨given, supplied, -, he⟩
    · cases hkeys
    · rcases OptionType.locates_of_accept he with ⟨reason, rfl, -⟩ | hbelow
      · simp [Context.error_eq] at hkeys
      · exact absurd hpath hbelow.inside.keysPath_ne_nil
  · rw [Options.accept_of_unknown hknown] at he
    cases he
    cases hkeys
    rfl

/-- Let a schema compile and accept a keyword list. The normal options are a keyword list whose
names are pairwise different, and when they are validated again, no name is unknown, except for the
names of strings whose default was filled in. Where the entries of every level are stable, the
options further down in normal options are known, too. -/
theorem normal_within {es : List Entry} {limit fuel : Nat} {c : Compiled}
    (hcompile : (s.compile host limit).result = .ok c) (hes : s.Resolves host es)
    {v n : Value} {o : Options} (ho : Options.ofValue? v = some o) (hshape : o.shape = .keyword)
    (h : (c.validate host fuel v).result = .ok n) :
    ∃ names, n = .keyword names ∧
      (∀ name, ¬Entry.FillsIn es name → (names.map Prod.fst).count name ≤ 1) ∧
      ∀ fuel' e keys, (c.validate host fuel' n).result = .error (.invalid e) →
        e.key = .unknown keys →
          (e.keysPath = [] → ∀ key ∈ keys, ∃ name, key = .atom name ∧ Entry.FillsIn es name) ∧
          ¬s.Everywhere host Entry.Stable fun _ => True := by
  obtain ⟨rfl, -, -⟩ := compile_eq_ok.1 hcompile
  have hplaced := placed_of_compile hcompile hes
  change (s.accept host fuel v false).result = .ok n at h
  obtain ⟨fuel₁, es₁, hes₁, haccept⟩ := exists_accept_options ho h (by simp)
  cases hes₁.unique hes
  obtain ⟨hknown, final, hfinal, rfl⟩ := Options.acceptAll_of_accept haccept
  have haccounted := Options.accounted_of_acceptAll hknown hfinal
  have hshaped := Options.wellShaped_of_ofValue? ho
  -- In a keyword list keys are given by their names. From here on strings and atoms are the same.
  have hnames : ({ o with pairs := final } : Options).toValue =
      .keyword (Options.named final) := by
    rw [Options.toValue, hshape]
    rfl
  rw [hnames] at h ⊢
  refine ⟨Options.named final, rfl, fun name hname => ?_, fun fuel' e keys he hkeys => ⟨?_, ?_⟩⟩
  · exact haccounted.count_le_one hshaped hshape hname
  · intro hpath key hkey
    obtain ⟨fuel₂, es₂, hes₂, he⟩ := exists_accept_options (o := ⟨.keyword, _⟩) rfl he (by simp)
    cases hes₂.unique hes
    rw [unknown_of_accept he hpath hkeys] at hkey
    exact haccounted.filledIn_of_unknown hshaped hshape hplaced hknown rfl hkey
  · intro hstable
    exact ne_unknown_again hstable h he keys hkeys

end Schema

/-- A mode as an atom and as a string, a host as a string, and ports under their new name. -/
def hostEntries : List Entry := [
  ⟨.atom "mode", { type := .basic .any, default? := some (.integer 1) }⟩,
  ⟨.string "mode", { type := .basic .any, default? := some (.integer 2) }⟩,
  ⟨.string "host", { type := .basic .string, default? := some (.string "localhost") }⟩,
  ⟨.atom "port", { type := .basic .integer, renameTo? := some "listen" }⟩,
  ⟨.atom "listen", .ofType (.basic .integer)⟩]

theorem hostEntries_within :
    ∃ names, (Compiled.validate .bare 10 ⟨.entries hostEntries⟩
        (.keyword [("port", .integer 80), ("port", .integer 81)])).result = .ok (.keyword names) ∧
      names.map Prod.fst = ["mode", "mode", "host", "listen"] ∧
      (names.map Prod.fst).count "listen" ≤ 1 ∧
      ∀ fuel e keys, (Compiled.validate .bare fuel ⟨.entries hostEntries⟩
          (.keyword names)).result = .error (.invalid e) →
        e.key = .unknown keys → e.keysPath = [] →
          ∀ key ∈ keys, key = .atom "mode" ∨ key = .atom "host" := by
  have hcompile : (Schema.compile .bare 60 (.entries hostEntries)).result =
      .ok ⟨.entries hostEntries⟩ := by
    with_unfolding_all rfl
  have hvalidate : (Compiled.validate .bare 10 ⟨.entries hostEntries⟩
      (.keyword [("port", .integer 80), ("port", .integer 81)])).result =
      .ok (.keyword [("mode", .integer 1), ("mode", .integer 2), ("host", .string "localhost"),
        ("listen", .integer 80)]) := by
    with_unfolding_all rfl
  have hfilled : ∀ name, Entry.FillsIn hostEntries name → name = "mode" ∨ name = "host" := by
    rintro name ⟨e, he, hkey, -⟩
    simp only [hostEntries, List.mem_cons, List.not_mem_nil, or_false] at he
    rcases he with rfl | rfl | rfl | rfl | rfl <;> simp at hkey <;> simp [← hkey]
  obtain ⟨names, hnames, hcount, hknown⟩ :=
    Schema.normal_within hcompile (.entries hostEntries) rfl rfl hvalidate
  cases hnames
  refine ⟨_, hvalidate, rfl, hcount "listen" fun h => ?_, fun fuel e keys he hkeys hpath => ?_⟩
  · simpa using hfilled _ h
  · intro key hkey
    obtain ⟨name, rfl, hname⟩ := (hknown fuel e keys he hkeys).1 hpath key hkey
    rcases hfilled name hname with rfl | rfl <;> simp

/-- The names of strings that were filled in can be those of other options, and they are unknown. -/
theorem hostEntries_unknown :
    (Schema.compile .bare 60 (.entries hostEntries)).result = .ok ⟨.entries hostEntries⟩ ∧
    ∃ names e,
      (Compiled.validate .bare 10 ⟨.entries hostEntries⟩ (.keyword [])).result =
        .ok (.keyword names) ∧
      (names.map Prod.fst).count "mode" = 2 ∧
      (Compiled.validate .bare 10 ⟨.entries hostEntries⟩ (.keyword names)).result =
        .error (.invalid e) ∧
      e.key = .unknown [.atom "host"] :=
  ⟨by with_unfolding_all rfl,
    [("mode", .integer 1), ("mode", .integer 2), ("host", .string "localhost")], _,
    by with_unfolding_all rfl, by decide, by with_unfolding_all rfl,
    by with_unfolding_all rfl⟩

end Conform
