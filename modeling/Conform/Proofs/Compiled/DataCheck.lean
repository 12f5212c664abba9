import Conform.Compiled
import Conform.Proofs.Acceptance.Exactness
import Conform.Proofs.Acceptance.MetaDepth
import Conform.Proofs.Run.Faults

namespace Conform

open Run

theorem Run.judged_of_ok {r : Run Value} {n : Value} (h : r.result = .ok n) :
    r.judged.result = .ok none := by
  refine bind_eq_ok.2 ⟨.ok n, attempt_eq_ok.2 h, rfl⟩

theorem Run.judged_of_invalid {r : Run Value} {e : ValidationError}
    (h : r.result = .error (.invalid e)) : r.judged.result = .ok (some e) := by
  refine bind_eq_ok.2 ⟨.error e, attempt_eq_ok.2 h, ?_⟩
  exact bind_eq_ok.2 ⟨(), rfl, rfl⟩

namespace Schema

variable {host : Host} {fuel : Nat} {data : Value} {path : List Value}

theorem decides_metaSchema (fuel : Nat) (redact : Bool) :
    (metaSchema.accept host fuel data redact).Decides (metaSchema.Conforms host data) :=
  (accept_decides host fuel).2.1 metaSchema sound_metaSchema data redact

theorem accepts_metaSchema : metaSchema.Accepts host data ↔ metaSchema.Conforms host data := by
  constructor
  · rintro ⟨fuel, redact, n, h⟩
    exact (decides_metaSchema fuel redact).of_ok h
  · intro h
    have hends : (metaSchema.accept host (5 * data.depth + 2) data false).Ends :=
      ends_accept_metaSchema (Nat.le_refl _)
    rcases (decides_metaSchema _ _).verdict hends with ⟨⟨n, hn⟩, -⟩ | ⟨-, hnot⟩
    · exact ⟨_, _, n, hn⟩
    · exact absurd h hnot

theorem conforms_metaSchema : metaSchema.Conforms host data ↔
    ∃ o, Options.ofValue? data = some o ∧ ∀ p ∈ o.pairs, p.1.hasNaN = false ∧
      ∀ v, Pairs.find? o.pairs p.1 = some v →
        (OptionType.keywordListOf specFields).Member host v := by
  constructor
  · rintro ⟨hes, ho, hknown, hpresent, -, -⟩
    cases resolves_metaSchema hes
    refine ⟨_, ho, fun p hp => ⟨(hknown p hp).1, fun v hv => ?_⟩⟩
    refine hpresent p.1 _ v (.wildcard (List.mem_singleton_self _) rfl hp fun d hd => ?_) hv
    rw [List.mem_singleton] at hd
    subst hd
    simp [SchemaKey.option?]
  · rintro ⟨o, ho, h⟩
    -- Only the wildcard declares options, and only those that are there.
    have hdeclared : ∀ key spec,
        Entry.Declares [⟨.wildcard, .ofType (.keywordListOf specFields)⟩] o.pairs key spec →
        spec = .ofType (.keywordListOf specFields) ∧ ∃ p ∈ o.pairs, p.1 = key := by
      intro key spec hdeclares
      cases hdeclares with
      | explicit he hkey =>
        rw [List.mem_singleton] at he
        subst he
        simp [SchemaKey.option?] at hkey
      | wildcard he _ hp _ =>
        rw [List.mem_singleton] at he
        subst he
        exact ⟨rfl, _, hp, rfl⟩
    refine .intro (.entries _) ho (fun p hp => ?_) (fun key spec v hdeclares hv => ?_)
      (fun key spec hdeclares _ => ?_) (fun key spec v hdeclares _ hv => ?_)
    · exact ⟨(h p hp).1, _, List.mem_singleton_self _, .inr rfl⟩
    · obtain ⟨rfl, p, hp, rfl⟩ := hdeclared key spec hdeclares
      exact (h p hp).2 v hv
    · obtain ⟨rfl, -⟩ := hdeclared key spec hdeclares
      rfl
    · obtain ⟨rfl, -⟩ := hdeclared key spec hdeclares
      cases hv

theorem conforms_metaSchema_of_distinct {o : Options} (ho : Options.ofValue? data = some o)
    (hd : Pairs.Distinct o.pairs) : metaSchema.Conforms host data ↔
      ∀ p ∈ o.pairs, p.1.hasNaN = false ∧
        (OptionType.keywordListOf specFields).Member host p.2 := by
  rw [conforms_metaSchema]
  constructor
  · rintro ⟨o', ho', h⟩ p hp
    cases ho.symm.trans ho'
    obtain ⟨hkey, hmember⟩ := h p hp
    exact ⟨hkey, hmember p.2 (Pairs.find?_of_mem hd hp (Value.beq_self_iff.2 hkey))⟩
  · intro h
    refine ⟨o, ho, fun p hp => ⟨(h p hp).1, fun v hv => ?_⟩⟩
    rw [Pairs.find?_of_mem hd hp (Value.beq_self_iff.2 (h p hp).1)] at hv
    cases hv
    exact (h p hp).2

theorem accepts_of_checkData
    (h : (checkData host fuel path data).result = .ok ()) : metaSchema.Accepts host data := by
  obtain ⟨judgement, hjudge, h⟩ := bind_eq_ok.1 h
  cases judgement with
  | some e => cases h
  | none =>
    obtain ⟨n, hn⟩ := judged_eq_none hjudge
    exact ⟨fuel, false, n, hn⟩

theorem checkData_eq_ok (h : 5 * data.depth + 2 ≤ fuel) :
    (checkData host fuel path data).result = .ok () ↔ metaSchema.Accepts host data := by
  refine ⟨accepts_of_checkData, fun haccepts => ?_⟩
  rcases (decides_metaSchema fuel false).verdict (ends_accept_metaSchema h) with
    ⟨⟨n, hn⟩, -⟩ | ⟨-, hnot⟩
  · exact bind_eq_ok.2 ⟨none, judged_of_ok hn, rfl⟩
  · exact absurd (accepts_metaSchema.1 haccepts) hnot

theorem failsOnly_checkData (h : 5 * data.depth + 2 ≤ fuel) :
    (checkData host fuel path data).FailsOnly (¬metaSchema.Accepts host data) := by
  rcases (decides_metaSchema fuel false).verdict (ends_accept_metaSchema h) with
    ⟨⟨n, hn⟩, hconforms⟩ | ⟨⟨e, he⟩, hnot⟩
  · intro f hf
    rw [(checkData_eq_ok h).2 (accepts_metaSchema.2 hconforms)] at hf
    cases hf
  · have hfault : (checkData host fuel path data).result =
        .error (.fault (.invalidSchema (e.under path))) :=
      bind_eq_error.2 (.inr ⟨some e, judged_of_invalid he, rfl⟩)
    intro f hf
    cases hfault.symm.trans hf
    exact ⟨⟨_, rfl⟩, fun haccepts => hnot (accepts_metaSchema.1 haccepts)⟩

end Schema

end Conform
