import Conform.Acceptance.Basic
import Conform.Proofs.Run.Result
import Conform.Proofs.Schema.Declared

namespace Conform

variable {acceptance : Acceptance} {redact : Bool}

namespace OptionSpec

def announce (spec : OptionSpec) (key : Value) : Run Unit :=
  match spec.deprecation? with
  | some text => .emit (.deprecated key text)
  | none => pure ()

def acceptValue (acceptance : Acceptance) (redact : Bool) (spec : OptionSpec) (key v : Value) :
    Run Value := do
  spec.announce key
  acceptance spec.effectiveType (.option key) v ⟨key, redact || spec.redact⟩

/-- What becomes of the option, given what the container holds under its key, if anything. The
keys received so far are needed for the error of a missing option only. -/
def settle (acceptance : Acceptance) (redact : Bool) (spec : OptionSpec) (key : Value)
    (received : List Value) : Option Value → Run (Option Value)
  | some v => some <$> spec.acceptValue acceptance redact key v
  | none =>
    if spec.required then
      .reject { key := .single key, reason := .missingOption key received }
    else
      match spec.default? with
      | some v => some <$> spec.acceptValue acceptance redact key v
      | none => return none

theorem accept_eq_bind (spec : OptionSpec) (key : Value) (pairs : List (Value × Value)) :
    spec.accept acceptance redact key pairs =
      spec.supply key pairs >>= fun
        | none => pure pairs
        | some (v, pairs) =>
          (spec.place key · pairs) <$> spec.acceptValue acceptance redact key v := by
  unfold accept
  congr 1
  funext supplied
  cases supplied with
  | none => rfl
  | some supplied =>
    simp only [acceptValue, announce, map_bind]
    cases spec.deprecation? <;> simp

theorem result_acceptValue (spec : OptionSpec) (key v : Value) :
    (spec.acceptValue acceptance redact key v).result =
      (acceptance spec.effectiveType (.option key) v ⟨key, redact || spec.redact⟩).result := by
  unfold acceptValue announce
  rw [Run.result_bind]
  split <;> rfl

section

variable {spec : OptionSpec} {key : Value} {received : List Value}

theorem settle_eq_ok {v? w? : Option Value} :
    (spec.settle acceptance redact key received v?).result = .ok w? ↔
      (v? = none → spec.required = false) ∧
        Option.Rel (fun v w => (spec.acceptValue acceptance redact key v).result = .ok w)
          (v?.or spec.default?) w? := by
  have hsome : ∀ v, (some <$> spec.acceptValue acceptance redact key v).result = .ok w? ↔
      Option.Rel (fun v w => (spec.acceptValue acceptance redact key v).result = .ok w)
        (some v) w? := by
    intro v
    rw [Run.map_eq_ok]
    cases w? <;> simp
  unfold settle
  cases v? with
  | some v => simpa using hsome v
  | none =>
    cases hrequired : spec.required with
    | true => simp
    | false =>
      cases hdefault : spec.default? with
      | some v => simpa using hsome v
      | none => cases w? <;> simp

theorem settle_eq_error {v? : Option Value} {f : Failure} :
    (spec.settle acceptance redact key received v?).result = .error f ↔
      (v? = none ∧ spec.required = true ∧
        f = .invalid { key := .single key, reason := .missingOption key received }) ∨
      ((v? = none → spec.required = false) ∧
        ∃ v, v?.or spec.default? = some v ∧
          (spec.acceptValue acceptance redact key v).result = .error f) := by
  unfold settle
  cases v? with
  | some v => simp [Run.map_eq_error]
  | none =>
    cases hrequired : spec.required with
    | true => simp [eq_comm]
    | false => cases hdefault : spec.default? <;> simp [Run.map_eq_error]

end

def stored (key : Value) (pairs : List (Value × Value)) : Option Value → List (Value × Value)
  | none => pairs
  | some v => Pairs.store key v pairs

theorem accept_eq_settle {spec : OptionSpec} (hspec : spec.renameTo? = none) {key : Value}
    (hkey : (key == key) = true) (pairs : List (Value × Value)) :
    spec.accept acceptance redact key pairs =
      stored key pairs <$>
        spec.settle acceptance redact key (Pairs.keys pairs) (Pairs.find? pairs key) := by
  rw [accept_eq_bind]
  unfold supply settle place
  rw [hspec]
  cases hfind : Pairs.find? pairs key with
  | some v => simp [stored]
  | none =>
    cases spec.required with
    | true => rfl
    | false =>
      cases spec.default? with
      | none => simp [stored]
      | some v =>
        -- The default is appended before it is accepted, and the accepted value takes its place.
        have hstore : ∀ w, Pairs.store key w (pairs ++ [(key, v)]) = Pairs.store key w pairs := by
          intro w
          rw [Pairs.store_append_of_absent w _ hfind, Pairs.store_of_absent w hfind,
            Pairs.store, hkey]
          rfl
        simp [stored, hstore]

end OptionSpec

namespace Options

/-- Settles options in order, each by what `ps` holds under its key. Gives the values to store. -/
def settleAll (acceptance : Acceptance) (redact : Bool) (ps : List (Value × Value)) :
    List Value → List (Value × OptionSpec) → Run (List (Value × Value))
  | _, [] => return []
  | received, (key, spec) :: rest => do
    match ← spec.settle acceptance redact key received (Pairs.find? ps key) with
    | none => settleAll acceptance redact ps received rest
    | some v =>
      let received := if (Pairs.find? ps key).isSome then received else received ++ [key]
      ((key, v) :: ·) <$> settleAll acceptance redact ps received rest

theorem foldlM_accept {declared : List (Value × OptionSpec)} (hd : Pairs.Distinct declared)
    (hrefl : ∀ d ∈ declared, (d.1 == d.1) = true) (hname : ∀ d ∈ declared, d.2.renameTo? = none)
    {ps working : List (Value × Value)}
    (hw : ∀ d ∈ declared, Pairs.find? working d.1 = Pairs.find? ps d.1) :
    declared.foldlM (fun pairs d => d.2.accept acceptance redact d.1 pairs) working =
      (fun kvs => Pairs.storeAll kvs working) <$>
        settleAll acceptance redact ps (Pairs.keys working) declared := by
  -- The invariant `hw`: under a key that is still to come nothing has changed.
  induction declared generalizing working with
  | nil => rfl
  | cons d declared ih =>
    obtain ⟨key, spec⟩ := d
    have hkey := hrefl (key, spec) (by simp)
    have hfind := hw (key, spec) (by simp)
    replace ih := @ih hd.of_cons (fun d hd => hrefl d (List.mem_cons_of_mem _ hd))
      fun d hd => hname d (List.mem_cons_of_mem _ hd)
    rw [List.foldlM_cons, settleAll, OptionSpec.accept_eq_settle (hname (key, spec) (by simp)) hkey,
      hfind, bind_map_left, map_bind]
    congr 1
    funext settled
    cases settled with
    | none => exact ih fun d hd => hw d (List.mem_cons_of_mem _ hd)
    | some v =>
      have hkeys : Pairs.keys (Pairs.store key v working) =
          if (Pairs.find? ps key).isSome then Pairs.keys working
          else Pairs.keys working ++ [key] := by
        rw [Pairs.keys_store, hfind]
      simp only [OptionSpec.stored]
      rw [ih, hkeys]
      · simp only [Functor.map_map]
        rfl
      · intro d hmem
        have hne : (key == d.1) = false := List.rel_of_pairwise_cons hd hmem
        rw [Pairs.find?_store_of_ne _ _ hne]
        exact hw d (List.mem_cons_of_mem _ hmem)

def defaulted (ps : List (Value × Value)) (declared : List (Value × OptionSpec)) : List Value :=
  (declared.filter fun d => (Pairs.find? ps d.1).isNone && d.2.default?.isSome).map Prod.fst

theorem settleAll_eq_error {ps : List (Value × Value)} {before after : List (Value × OptionSpec)}
    {d : Value × OptionSpec} {f : Failure} {received : List Value}
    (hbefore : ∀ b ∈ before, ∃ w?,
      (b.2.settle acceptance redact b.1 received (Pairs.find? ps b.1)).result = .ok w?)
    (hd : (d.2.settle acceptance redact d.1 (received ++ defaulted ps before)
      (Pairs.find? ps d.1)).result = .error f) :
    (settleAll acceptance redact ps received (before ++ d :: after)).result = .error f := by
  induction before generalizing received with
  | nil =>
    rw [List.nil_append, settleAll, Run.bind_eq_error]
    left
    simpa [defaulted] using hd
  | cons b before ih =>
    obtain ⟨key, spec⟩ := b
    obtain ⟨w?, hw⟩ := hbefore (key, spec) (by simp)
    -- The keys received so far matter to the error of a missing option only.
    have hrest : ∀ received', ∀ b ∈ before, ∃ w?,
        (b.2.settle acceptance redact b.1 received' (Pairs.find? ps b.1)).result = .ok w? := by
      intro received' b hb
      obtain ⟨w?, hw⟩ := hbefore b (List.mem_cons_of_mem _ hb)
      exact ⟨w?, OptionSpec.settle_eq_ok.2 (OptionSpec.settle_eq_ok.1 hw)⟩
    rw [List.cons_append, settleAll, Run.bind_eq_error]
    refine .inr ⟨w?, hw, ?_⟩
    unfold defaulted at hd ih
    rw [List.filter_cons] at hd
    obtain ⟨-, hrel⟩ := OptionSpec.settle_eq_ok.1 hw
    dsimp only at hrel hd
    cases hfind : Pairs.find? ps key with
    | some v =>
      rw [hfind] at hrel hd
      cases hrel
      dsimp only
      rw [Run.map_eq_error]
      exact ih (hrest _) (by simpa using hd)
    | none =>
      rw [hfind] at hrel hd
      cases hdefault : spec.default? with
      | some v =>
        rw [hdefault] at hrel hd
        cases hrel
        dsimp only
        rw [Run.map_eq_error]
        exact ih (hrest _) (by simpa using hd)
      | none =>
        rw [hdefault] at hrel hd
        cases hrel
        exact ih (hrest _) (by simpa using hd)

theorem find?_filterMap_of_ne {declared : List (Value × OptionSpec)} {key : Value}
    (h : ∀ d ∈ declared, (d.1 == key) = false) (g : Value × OptionSpec → Option Value) :
    Pairs.find? (declared.filterMap fun d => (g d).map (d.1, ·)) key = none := by
  rw [Pairs.find?_eq_none]
  intro p hp
  obtain ⟨d, hd, hp⟩ := List.mem_filterMap.1 hp
  obtain ⟨v, -, rfl⟩ := Option.map_eq_some_iff.1 hp
  exact h d hd

theorem find?_cons_of_mem {declared : List (Value × OptionSpec)} {key : Value}
    (h : ∀ d ∈ declared, (d.1 == key) = false) (v : Value) (kvs : List (Value × Value))
    {d : Value × OptionSpec} (hd : d ∈ declared) :
    Pairs.find? ((key, v) :: kvs) d.1 = Pairs.find? kvs d.1 := by
  rw [Pairs.find?_cons, BEq.comm, h d hd]
  rfl

theorem filterMap_find?_cons {declared : List (Value × OptionSpec)} {key : Value}
    (h : ∀ d ∈ declared, (d.1 == key) = false) (v : Value) (kvs : List (Value × Value)) :
    (declared.filterMap fun d => (Pairs.find? ((key, v) :: kvs) d.1).map (d.1, ·)) =
      declared.filterMap fun d => (Pairs.find? kvs d.1).map (d.1, ·) := by
  apply List.filterMap_congr
  intro d hd
  rw [find?_cons_of_mem h v kvs hd]

theorem settleAll_eq_ok {declared : List (Value × OptionSpec)} (hd : Pairs.Distinct declared)
    (hrefl : ∀ d ∈ declared, (d.1 == d.1) = true) {ps kvs : List (Value × Value)}
    {received : List Value} :
    (settleAll acceptance redact ps received declared).result = .ok kvs ↔
      (∀ d ∈ declared, (d.2.settle acceptance redact d.1 received (Pairs.find? ps d.1)).result =
        .ok (Pairs.find? kvs d.1)) ∧
      kvs = declared.filterMap fun d => (Pairs.find? kvs d.1).map (d.1, ·) := by
  induction declared generalizing kvs received with
  | nil => simp [settleAll, eq_comm]
  | cons d declared ih =>
    obtain ⟨key, spec⟩ := d
    have hkey : (key == key) = true := hrefl (key, spec) (by simp)
    have hne : ∀ d ∈ declared, (d.1 == key) = false := fun d hmem => hd.ne_of_cons hmem
    -- Whether an option is settled does not depend on the keys received so far.
    replace ih : ∀ received' kvs,
        (settleAll acceptance redact ps received' declared).result = .ok kvs ↔
          (∀ d ∈ declared, (d.2.settle acceptance redact d.1 received (Pairs.find? ps d.1)).result =
            .ok (Pairs.find? kvs d.1)) ∧
          kvs = declared.filterMap fun d => (Pairs.find? kvs d.1).map (d.1, ·) := by
      intro received' kvs
      rw [ih hd.of_cons fun d hmem => hrefl d (List.mem_cons_of_mem _ hmem)]
      simp only [OptionSpec.settle_eq_ok]
    rw [settleAll, Run.bind_eq_ok, List.forall_mem_cons, List.filterMap_cons]
    constructor
    · rintro ⟨w?, hw, h⟩
      cases w? with
      | none =>
        obtain ⟨hrest, hkvs⟩ := (ih _ _).1 h
        have hnone : Pairs.find? kvs key = none := by
          rw [hkvs]
          exact find?_filterMap_of_ne hne _
        simp only [hnone, Option.map_none]
        exact ⟨⟨hw, hrest⟩, hkvs⟩
      | some v =>
        obtain ⟨kvs', hkvs', rfl⟩ := Run.map_eq_ok.1 h
        obtain ⟨hrest, hkvs⟩ := (ih _ _).1 hkvs'
        have hsome : Pairs.find? ((key, v) :: kvs') key = some v := by
          rw [Pairs.find?_cons, if_pos hkey]
        simp only [hsome, Option.map_some]
        refine ⟨⟨hw, fun d hmem => ?_⟩, ?_⟩
        · rw [find?_cons_of_mem hne v kvs' hmem]
          exact hrest d hmem
        · rw [filterMap_find?_cons hne, ← hkvs]
    · rintro ⟨⟨hw, hrest⟩, hkvs⟩
      refine ⟨Pairs.find? kvs key, hw, ?_⟩
      cases hvalue : Pairs.find? kvs key with
      | none =>
        simp only [hvalue, Option.map_none] at hkvs
        exact (ih _ _).2 ⟨hrest, hkvs⟩
      | some v =>
        simp only [hvalue, Option.map_some] at hkvs
        obtain ⟨kvs', hkvs'⟩ : ∃ kvs', kvs' =
            declared.filterMap fun d => (Pairs.find? kvs d.1).map (d.1, ·) := ⟨_, rfl⟩
        rw [← hkvs'] at hkvs
        subst hkvs
        rw [filterMap_find?_cons hne] at hkvs'
        refine Run.map_eq_ok.2 ⟨kvs', (ih _ _).2 ⟨fun d hmem => ?_, hkvs'⟩, rfl⟩
        rw [← find?_cons_of_mem hne v kvs' hmem]
        exact hrest d hmem

def unknown (es : List Entry) (o : Options) : List Value :=
  (Pairs.keys o.pairs).filter fun key =>
    !(Entry.expand es (Pairs.keys o.pairs)).any fun d => d.1 == key

theorem accept_of_unknown {es : List Entry} {o : Options} (h : unknown es o ≠ []) :
    o.accept acceptance redact es =
      .reject { key := .unknown (unknown es o),
                reason := .unknownOptions (unknown es o)
                  ((Entry.expand es (Pairs.keys o.pairs)).map Prod.fst) } := by
  unfold accept
  exact if_neg (by simpa [unknown] using h)

theorem exists_declared {es : List Entry} {o : Options} (h : unknown es o = []) {key : Value}
    (hkey : key ∈ Pairs.keys o.pairs) :
    ∃ d ∈ Entry.expand es (Pairs.keys o.pairs), (d.1 == key) = true := by
  have hfilter := List.filter_eq_nil_iff.1 h key hkey
  simpa using hfilter

/-- Without renamed options and repeated declarations, a container is settled option by option, by
what it holds at first. -/
theorem accept_of_known {es : List Entry} (hes : Entry.Regular es) {o : Options}
    (h : unknown es o = []) :
    o.accept acceptance redact es =
      (fun kvs => ({ o with pairs := Pairs.storeAll kvs o.pairs } : Options).toValue) <$>
        settleAll acceptance redact o.pairs (Pairs.keys o.pairs)
          (Entry.expand es (Pairs.keys o.pairs)) := by
  have hkeys := Pairs.pairwise_keys o.pairs
  have hrefl : ∀ d ∈ Entry.expand es (Pairs.keys o.pairs), (d.1 == d.1) = true := fun d hmem =>
    Entry.beq_self_of_mem_expand hkeys (fun k => exists_declared h) hmem
  have hname : ∀ d ∈ Entry.expand es (Pairs.keys o.pairs), d.2.renameTo? = none := by
    intro d hmem
    obtain ⟨e, he, hs⟩ := Entry.spec_of_mem_expand hkeys hmem
    rw [← hs]
    exact hes.unrenamed e he
  have hfold : (Entry.expand es (Pairs.keys o.pairs)).foldlM
      (fun pairs d => d.2.accept acceptance redact d.1 pairs) o.pairs =
        (fun kvs => Pairs.storeAll kvs o.pairs) <$>
          settleAll acceptance redact o.pairs (Pairs.keys o.pairs)
            (Entry.expand es (Pairs.keys o.pairs)) :=
    foldlM_accept (Entry.distinct_expand hes.distinct hkeys) hrefl hname fun d _ => rfl
  unfold accept
  refine (if_pos (by simpa [unknown] using h)).trans ?_
  rw [bind_pure_comp]
  refine (congrArg _ hfold).trans ?_
  rw [Functor.map_map]

theorem isSome_find?_expand {es : List Entry} {o : Options} (h : unknown es o = [])
    {p : Value × Value} (hp : p ∈ o.pairs) :
    ∃ d ∈ Entry.expand es (Pairs.keys o.pairs), (d.1 == p.1) = true := by
  rcases Pairs.exists_mem_keys hp with hp | ⟨k, hk, hpk⟩
  · exact exists_declared h hp
  · obtain ⟨d, hd, hdk⟩ := exists_declared h hk
    exact ⟨d, hd, BEq.trans hdk (BEq.symm hpk)⟩

/-- The values that the options of a container are settled with. -/
structure Settled (acceptance : Acceptance) (redact : Bool) (es : List Entry) (o : Options)
    (kvs : List (Value × Value)) : Prop where
  settles : ∀ d ∈ Entry.expand es (Pairs.keys o.pairs),
    (d.2.settle acceptance redact d.1 (Pairs.keys o.pairs) (Pairs.find? o.pairs d.1)).result =
      .ok (Pairs.find? kvs d.1)
  values : kvs = (Entry.expand es (Pairs.keys o.pairs)).filterMap fun d =>
    (Pairs.find? kvs d.1).map (d.1, ·)

theorem accept_eq_ok {es : List Entry} (hes : Entry.Regular es) {o : Options} {n : Value} :
    (o.accept acceptance redact es).result = .ok n ↔ unknown es o = [] ∧
      ∃ kvs, Settled acceptance redact es o kvs ∧
        n = ({ o with pairs := Pairs.storeAll kvs o.pairs } : Options).toValue := by
  by_cases hunknown : unknown es o = []
  · have hkeys := Pairs.pairwise_keys o.pairs
    have hok : ∀ kvs, (settleAll acceptance redact o.pairs (Pairs.keys o.pairs)
        (Entry.expand es (Pairs.keys o.pairs))).result = .ok kvs ↔
          Settled acceptance redact es o kvs := by
      intro kvs
      rw [settleAll_eq_ok (Entry.distinct_expand hes.distinct hkeys) fun d hmem =>
        Entry.beq_self_of_mem_expand hkeys (fun k => exists_declared hunknown) hmem]
      exact ⟨fun h => ⟨h.1, h.2⟩, fun h => ⟨h.settles, h.values⟩⟩
    rw [accept_of_known hes hunknown, Run.map_eq_ok]
    simp only [hok, hunknown, true_and, eq_comm (a := n)]
  · simp [accept_of_unknown hunknown, hunknown]

namespace Settled

variable {es : List Entry} {o : Options} {kvs : List (Value × Value)}

theorem distinct (h : Settled acceptance redact es o kvs) (hes : Entry.DistinctKeys es) :
    Pairs.Distinct kvs := by
  rw [h.values]
  refine (Entry.distinct_expand hes (Pairs.pairwise_keys _)).filterMap _ ?_
  intro d d' hne p hp p' hp'
  obtain ⟨v, -, rfl⟩ := Option.map_eq_some_iff.1 hp
  obtain ⟨v', -, rfl⟩ := Option.map_eq_some_iff.1 hp'
  exact hne

theorem isSome_find? (h : Settled acceptance redact es o kvs) (hknown : unknown es o = [])
    {p : Value × Value} (hp : p ∈ o.pairs) : (Pairs.find? kvs p.1).isSome := by
  obtain ⟨d, hd, hdp⟩ := isSome_find?_expand hknown hp
  obtain ⟨v, hv⟩ := Option.isSome_iff_exists.1
    (Pairs.isSome_find?.2 ⟨p, hp, BEq.symm hdp⟩ : (Pairs.find? o.pairs d.1).isSome)
  have hsettles := h.settles d hd
  rw [hv] at hsettles
  obtain ⟨-, hrel⟩ := OptionSpec.settle_eq_ok.1 hsettles
  rw [← Pairs.find?_congr _ hdp]
  generalize Pairs.find? kvs d.1 = w? at hrel
  cases hrel
  rfl

theorem accepts (h : Settled acceptance redact es o kvs) {d : Value × OptionSpec}
    (hd : d ∈ Entry.expand es (Pairs.keys o.pairs)) {v : Value}
    (hv : (Pairs.find? o.pairs d.1).or d.2.default? = some v) :
    ∃ w, Pairs.find? kvs d.1 = some w ∧
      (acceptance d.2.effectiveType (.option d.1) v ⟨d.1, redact || d.2.redact⟩).result =
        .ok w := by
  obtain ⟨-, hrel⟩ := OptionSpec.settle_eq_ok.1 (h.settles d hd)
  rw [hv] at hrel
  generalize Pairs.find? kvs d.1 = w? at hrel
  cases hrel with
  | some hw => exact ⟨_, rfl, (OptionSpec.result_acceptValue _ _ _).symm.trans hw⟩

/-- The pairs that count take their new values, and what is filled in comes after them. -/
theorem storeAll_eq (h : Settled acceptance redact es o kvs) (hes : Entry.DistinctKeys es)
    (hknown : unknown es o = []) :
    Pairs.storeAll kvs o.pairs = Pairs.updated kvs o.pairs ++ Pairs.added kvs o.pairs :=
  Pairs.storeAll_eq (h.distinct hes) fun _ hp => h.isSome_find? hknown hp

end Settled

end Options

end Conform
