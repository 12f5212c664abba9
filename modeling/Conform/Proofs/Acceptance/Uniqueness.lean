import Conform.Proofs.Acceptance.Renaming

namespace Conform

namespace Pairs

variable {κ α : Type} [BEq κ] [PartialEquivBEq κ] {ps : List (κ × α)} {v : α} {k l : κ}

def occurrences (k : κ) (ps : List (κ × α)) : Nat :=
  ps.countP fun p => p.1 == k

omit [PartialEquivBEq κ] in
theorem occurrences_eq_zero : occurrences k ps = 0 ↔ find? ps k = none := by
  rw [find?_eq_none, occurrences, List.countP_eq_zero]
  simp

omit [PartialEquivBEq κ] in
theorem occurrences_cons (p : κ × α) :
    occurrences k (p :: ps) = occurrences k ps + if p.1 == k then 1 else 0 :=
  List.countP_cons

omit [PartialEquivBEq κ] in
theorem occurrences_append (qs : List (κ × α)) :
    occurrences k (ps ++ qs) = occurrences k ps + occurrences k qs :=
  List.countP_append

theorem occurrences_erase_self (h : (k == l) = true) : occurrences l (erase k ps) = 0 := by
  rw [occurrences_eq_zero, ← find?_congr _ h]
  exact find?_erase_self k ps

theorem occurrences_erase_of_ne (h : (k == l) = false) :
    occurrences l (erase k ps) = occurrences l ps := by
  induction ps with
  | nil => rfl
  | cons p ps ih =>
    rw [erase_cons, occurrences_cons]
    split
    next hpk => rw [ih, BEq.congr_left hpk, h]; rfl
    next => rw [occurrences_cons, ih]

theorem occurrences_store_self (h : (k == l) = true) : occurrences l (store k v ps) ≤ 1 := by
  induction ps with
  | nil =>
    rw [store, occurrences_cons]
    split <;> simp [occurrences]
  | cons p ps ih =>
    unfold store
    split
    next hpk =>
      rw [occurrences_cons, occurrences_erase_self h]
      split <;> simp
    next hpk =>
      have hpl : ¬(p.1 == l) = true := by rwa [← BEq.congr_right h]
      rw [occurrences_cons, if_neg hpl]
      exact ih

theorem occurrences_store_of_ne (h : (k == l) = false) :
    occurrences l (store k v ps) = occurrences l ps := by
  induction ps with
  | nil =>
    rw [store, occurrences_cons, h]
    rfl
  | cons p ps ih =>
    unfold store
    rw [occurrences_cons]
    split
    next hpk => rw [occurrences_cons, occurrences_erase_of_ne h]
    next => rw [occurrences_cons, ih]

theorem distinct_iff_occurrences : Distinct ps ↔ ∀ k, occurrences k ps ≤ 1 := by
  induction ps with
  | nil => simp [Distinct, occurrences]
  | cons p ps ih =>
    constructor
    · intro h k
      rw [occurrences_cons]
      split
      next hpk =>
        have hrest : occurrences k ps = 0 := by
          rw [occurrences_eq_zero, ← find?_congr _ hpk, find?_eq_none]
          exact fun q hq => h.ne_of_cons hq
        omega
      next => exact ih.1 h.of_cons k
    · intro h
      refine .cons (fun q hq => ?_) (ih.2 fun k => ?_)
      · rw [Bool.eq_false_iff]
        intro hpq
        -- A key that equals another one equals itself, so it would occur here twice.
        have hself : (p.1 == p.1) = true := BEq.trans hpq (BEq.symm hpq)
        have hlater : occurrences p.1 ps ≠ 0 := by
          rw [Ne, occurrences_eq_zero, find?_eq_none]
          intro hnone
          simpa [BEq.symm hpq] using hnone q hq
        have htwice := h p.1
        rw [occurrences_cons, if_pos hself] at htwice
        omega
      · have hk := h k
        rw [occurrences_cons] at hk
        omega

end Pairs

variable {acceptance : Acceptance} {redact : Bool}

namespace OptionSpec

variable {spec : OptionSpec} {key k : Value} {pairs pairs' : List (Value × Value)}

theorem occurrences_supplied {given : Value} {supplied : List (Value × Value)}
    (h : (spec.supply key pairs).result = .ok (some (given, supplied)))
    (hk : (key == k) = false) :
    Pairs.occurrences k supplied = Pairs.occurrences k pairs := by
  rcases supply_eq_some h with ⟨-, rfl⟩ | ⟨-, -, rfl⟩
  · rfl
  · rw [Pairs.occurrences_append, Pairs.occurrences_cons, hk]
    rfl

/-- After the turn of an option its key occurs at most once, and so does every key that did before.
-/
theorem occurrences_accept
    (h : (spec.accept acceptance redact key pairs).result = .ok pairs')
    (hk : (key == k) = true ∨ Pairs.occurrences k pairs ≤ 1) :
    Pairs.occurrences k pairs' ≤ 1 := by
  rcases accept_eq_ok.1 h with ⟨hnone, rfl⟩ | ⟨given, supplied, accepted, hsupply, -, rfl⟩
  · rcases hk with hkey | hk
    · have habsent := supply_eq_none hnone
      rw [Pairs.find?_congr _ hkey, ← Pairs.occurrences_eq_zero] at habsent
      omega
    · exact hk
  · have hkept : (key == k) = false → Pairs.occurrences k supplied ≤ 1 := by
      intro hne
      rw [occurrences_supplied hsupply hne]
      exact hk.resolve_left (by simp [hne])
    unfold place
    split
    next target _ =>
      -- The key may be the target, which is stored once, or the option's own, which is erased.
      by_cases htarget : (Value.atom target == k) = true
      · exact Pairs.occurrences_store_self htarget
      · rw [Pairs.occurrences_store_of_ne (by simpa using htarget)]
        by_cases hkey : (key == k) = true
        · rw [Pairs.occurrences_erase_self hkey]
          omega
        · have hne : (key == k) = false := by simpa using hkey
          rw [Pairs.occurrences_erase_of_ne hne]
          exact hkept hne
    next =>
      by_cases hkey : (key == k) = true
      · exact Pairs.occurrences_store_self hkey
      · have hne : (key == k) = false := by simpa using hkey
        rw [Pairs.occurrences_store_of_ne hne]
        exact hkept hne

theorem isSome_find?_accept_of_unrenamed
    (h : (spec.accept acceptance redact key pairs).result = .ok pairs')
    (hname : (key == k) = true → spec.renameTo? = none)
    (hsome : (Pairs.find? pairs k).isSome) : (Pairs.find? pairs' k).isSome := by
  by_cases hk : (key == k) = true
  · rcases accept_eq_ok.1 h with ⟨-, rfl⟩ | ⟨given, supplied, accepted, -, -, rfl⟩
    · exact hsome
    · have hself : (key == key) = true := BEq.trans hk (BEq.symm hk)
      rw [← Pairs.find?_congr _ hk, find?_place_self (hname hk) hself]
      rfl
  · exact isSome_find?_accept h (by simpa using hk) hsome

end OptionSpec

namespace Options

variable {declared : List (Value × OptionSpec)} {ps final : List (Value × Value)} {k : Value}

/-- In the end a key that had its turn occurs at most once, and so does every key that did at
first. -/
theorem occurrences_acceptAll (h : (acceptAll acceptance redact declared ps).result = .ok final)
    (hk : (∃ d ∈ declared, (d.1 == k) = true) ∨ Pairs.occurrences k ps ≤ 1) :
    Pairs.occurrences k final ≤ 1 := by
  induction declared generalizing ps with
  | nil =>
    cases h
    simpa using hk
  | cons d declared ih =>
    obtain ⟨held, hstep, hrest⟩ := acceptAll_cons_eq_ok.1 h
    apply ih hrest
    by_cases hlater : ∃ d' ∈ declared, (d'.1 == k) = true
    · exact .inl hlater
    · right
      apply OptionSpec.occurrences_accept hstep
      rcases hk with ⟨d', hd', hkey⟩ | hk
      · rcases List.mem_cons.1 hd' with rfl | hd'
        · exact .inl hkey
        · exact absurd ⟨d', hd', hkey⟩ hlater
      · exact .inr hk

theorem isSome_find?_acceptAll_of_unrenamed
    (h : (acceptAll acceptance redact declared ps).result = .ok final)
    (hname : ∀ d ∈ declared, (d.1 == k) = true → d.2.renameTo? = none)
    (hsome : (Pairs.find? ps k).isSome) : (Pairs.find? final k).isSome := by
  refine Run.foldlM_invariant (fun pairs => (Pairs.find? pairs k).isSome) ?_ hsome h
  intro d hd pairs pairs' hpairs hstep
  exact OptionSpec.isSome_find?_accept_of_unrenamed hstep (hname d hd) hpairs

end Options

/-- Where a key of normal options comes from: it was given, its entry has a default, or an option is
renamed to it. -/
inductive Entry.Accounts (es : List Entry) (ps : List (Value × Value)) : Value → Prop where
  | given {p : Value × Value} : p ∈ ps → Accounts es ps p.1
  | filledIn {e : Entry} {key : Value} : e ∈ es → e.key.option? = some key →
      e.spec.default?.isSome → e.spec.renameTo? = none → Accounts es ps key
  | target {e : Entry} {name : String} : e ∈ es → e.spec.renameTo? = some name →
      Accounts es ps (.atom name)

theorem Entry.accounts_of_sourced {es : List Entry} {ps : List (Value × Value)} {key : Value}
    (h : Options.Sourced (Entry.expand es (Pairs.keys ps)) ps key) : Entry.Accounts es ps key := by
  cases h with
  | given hp => exact .given hp
  | @filledIn d hd hdefault hname =>
    obtain ⟨key, spec⟩ := d
    cases declares_of_mem_expand hd with
    | explicit he hkey => exact .filledIn he hkey hdefault hname
    | wildcard _ _ hp => exact .given hp
  | target hd htarget =>
    obtain ⟨e, he, hspec⟩ := spec_of_mem_expand (Pairs.pairwise_keys ps) hd
    exact .target he (by rw [hspec, htarget])

theorem Entry.Accounts.knows {es : List Entry} {ps : List (Value × Value)} {key : Value}
    (h : Entry.Accounts es ps key) (hplaced : Entry.Placed es)
    (hknown : ∀ p ∈ ps, Entry.Knows es p.1) : Entry.Knows es key := by
  cases h with
  | given hp => exact hknown _ hp
  | @filledIn e _ he hkey =>
    exact ⟨Value.beq_self_iff.1 (SchemaKey.beq_self_of_option? hkey), e, he, .inl hkey⟩
  | @target e name he htarget =>
    obtain ⟨before, later, rfl⟩ := List.append_of_mem he
    obtain ⟨d, hd, hkey⟩ := hplaced.targets before e later name rfl htarget
    exact ⟨rfl, d, by simp [hd], .inl (by rw [hkey]; rfl)⟩

/-- What the keys of the normal form `m` have to do with the options `o` that it was made from. -/
structure Options.Accounted (es : List Entry) (m o : Options) : Prop where
  /-- The container is of the same kind. -/
  shape : m.shape = o.shape
  /-- No two keys are equal. -/
  distinct : Pairs.Distinct m.pairs
  /-- Every key comes from somewhere. -/
  accounts : ∀ p ∈ m.pairs, Entry.Accounts es o.pairs p.1
  /-- No key is lost, unless one of the options declared for it is renamed. -/
  retained : ∀ p ∈ o.pairs,
    (∀ d ∈ Entry.expand es (Pairs.keys o.pairs), (d.1 == p.1) = true → d.2.renameTo? = none) →
      (Pairs.find? m.pairs p.1).isSome

theorem Options.accounted_of_acceptAll {es : List Entry} {o : Options}
    {final : List (Value × Value)} (hknown : unknown es o = [])
    (h : (acceptAll acceptance redact (Entry.expand es (Pairs.keys o.pairs)) o.pairs).result =
      .ok final) : Accounted es { o with pairs := final } o := by
  have hself : ∀ d ∈ Entry.expand es (Pairs.keys o.pairs), (d.1 == d.1) = true := fun d hmem =>
    Entry.beq_self_of_mem_expand (Pairs.pairwise_keys _) (fun k => exists_declared hknown) hmem
  refine ⟨rfl, ?_, ?_, ?_⟩
  · refine Pairs.distinct_iff_occurrences.2 fun k => occurrences_acceptAll h ?_
    -- A key that occurs at all is declared.
    cases hfind : Pairs.find? o.pairs k with
    | none => exact .inr (by rw [Pairs.occurrences_eq_zero.2 hfind]; omega)
    | some v =>
      obtain ⟨p, hp, hpk⟩ := Pairs.isSome_find?.1 (Option.isSome_of_eq_some hfind)
      obtain ⟨d, hd, hdp⟩ := isSome_find?_expand hknown hp
      exact .inl ⟨d, hd, BEq.trans hdp hpk⟩
  · intro p hp
    exact Entry.accounts_of_sourced (sourced_of_acceptAll hself h p hp)
  · intro p hp hname
    refine isSome_find?_acceptAll_of_unrenamed h hname (Pairs.isSome_find?.2 ⟨p, hp, ?_⟩)
    obtain ⟨d, -, hdp⟩ := isSome_find?_expand hknown hp
    exact BEq.trans (BEq.symm hdp) hdp

/-- A string with this name has a default that stays under its key. -/
def Entry.FillsIn (es : List Entry) (name : String) : Prop :=
  ∃ e ∈ es, e.key = .string name ∧ e.spec.default?.isSome ∧ e.spec.renameTo? = none

theorem Options.Accounted.atom_or_filledIn {es : List Entry} {o m : Options}
    (h : m.Accounted es o) (ho : o.WellShaped) (hshape : m.shape = .keyword) :
    ∀ p ∈ m.pairs, ∃ name, p.1 = .atom name ∨ p.1 = .string name ∧ Entry.FillsIn es name := by
  intro p hp
  rw [h.shape] at hshape
  have haccounts := h.accounts p hp
  generalize p.1 = key at haccounts ⊢
  cases haccounts with
  | given hq =>
    obtain ⟨name, hname⟩ := ho hshape _ hq
    exact ⟨name, .inl hname⟩
  | @filledIn e _ he hkey hdefault hunrenamed =>
    cases hname : e.key with
    | atom name =>
      rw [hname] at hkey
      exact ⟨name, .inl (Option.some.inj hkey).symm⟩
    | string name =>
      rw [hname] at hkey
      exact ⟨name, .inr ⟨(Option.some.inj hkey).symm, e, he, hname, hdefault, hunrenamed⟩⟩
    | wildcard =>
      rw [hname] at hkey
      cases hkey
  | @target _ name => exact ⟨name, .inl rfl⟩

theorem Options.Accounted.wellShaped {es : List Entry} {o m : Options} (h : m.Accounted es o)
    (ho : o.WellShaped) (hnames : m.shape = .keyword → ∀ name, ¬Entry.FillsIn es name) :
    m.WellShaped := by
  intro hshape p hp
  obtain ⟨name, hname | ⟨-, hfilled⟩⟩ := h.atom_or_filledIn ho hshape p hp
  · exact ⟨name, hname⟩
  · exact absurd hfilled (hnames hshape name)

theorem Schema.exists_accept_options {host : Host} {fuel : Nat} {s : Schema} {v : Value}
    {o : Options} (ho : Options.ofValue? v = some o) {r : Except Failure Value}
    (h : (s.accept host fuel v redact).result = r) (hr : r ≠ .error .exhausted) :
    ∃ fuel' es, s.Resolves host es ∧
      (o.accept (OptionType.accept host fuel') redact es).result = r := by
  cases fuel with
  | zero =>
    rw [accept_zero] at h
    exact absurd h.symm hr
  | succ fuel =>
    rw [accept_succ, ho] at h
    dsimp only at h
    cases hes : s.resolve? host fuel with
    | none =>
      rw [hes] at h
      exact absurd h.symm hr
    | some es =>
      rw [hes, Run.ofOption, Run.pure_bind] at h
      exact ⟨fuel, es, resolves_of_resolve? hes, h⟩

/-- Normal options are in a container of the same kind, where no two keys are equal, every key comes
from somewhere, and no key is lost unless an option declared for it is renamed. -/
theorem Schema.accounted_of_accept {host : Host} {fuel : Nat} {s : Schema} {es : List Entry}
    (hes : s.Resolves host es) {v n : Value} {o : Options} (ho : Options.ofValue? v = some o)
    (hnames : o.shape = .keyword → ∀ e ∈ es, ∀ name, e.key ≠ .string name)
    (h : (s.accept host fuel v redact).result = .ok n) :
    ∃ m : Options, Options.ofValue? n = some m ∧ n = m.toValue ∧ m.Accounted es o := by
  obtain ⟨fuel', es', hes', h⟩ := exists_accept_options ho h (by simp)
  cases hes'.unique hes
  obtain ⟨hknown, final, hfinal, rfl⟩ := Options.acceptAll_of_accept h
  have hm := Options.accounted_of_acceptAll hknown hfinal
  refine ⟨_, Options.ofValue?_toValue (hm.wellShaped ?_ ?_), rfl, hm⟩
  · exact Options.wellShaped_of_ofValue? ho
  · rintro hshape name ⟨e, he, hkey, -⟩
    exact hnames (hm.shape ▸ hshape) e he name hkey

/-- Retries are declared twice, titles have another name, and whatever else is given is taken. -/
def stockEntries : List Entry := [
  ⟨.atom "title", { type := .basic .any, renameTo? := some "name" }⟩,
  ⟨.atom "name", .ofType (.basic .string)⟩,
  ⟨.atom "retries", { type := .basic .integer, default? := some (.integer 3) }⟩,
  ⟨.atom "retries", .ofType (.basic .any)⟩,
  ⟨.wildcard, .ofType (.basic .any)⟩]

/-- The two zeros are one key, and the title goes where there is a name already. -/
theorem stockEntries_accounted :
    ∃ o m : Options, o.pairs = [(.float (.zero false), .nil), (.atom "name", .nil),
        (.float (.zero true), .nil), (.atom "title", .string "shelf"), (.atom "name", .nil)] ∧
      (Schema.accept .bare 10 (.entries stockEntries) o.toValue false).result = .ok m.toValue ∧
      m.pairs.map Prod.fst = [.float (.zero false), .atom "name", .atom "retries"] ∧
      m.Accounted stockEntries o := by
  have h : (Schema.accept .bare 10 (.entries stockEntries)
      (.map [(.float (.zero false), .nil), (.atom "name", .nil), (.float (.zero true), .nil),
        (.atom "title", .string "shelf"), (.atom "name", .nil)]) false).result =
      .ok (.map [(.float (.zero false), .nil), (.atom "name", .string "shelf"),
        (.atom "retries", .integer 3)]) := by
    with_unfolding_all rfl
  obtain ⟨m, hm, -, haccounted⟩ :=
    Schema.accounted_of_accept (.entries stockEntries) rfl (fun hshape => by cases hshape) h
  cases hm
  exact ⟨⟨.map, _⟩, ⟨.map, _⟩, rfl, h, rfl, haccounted⟩

end Conform
