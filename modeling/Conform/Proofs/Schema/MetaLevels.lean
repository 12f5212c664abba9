import Conform.Proofs.Schema.Levels

namespace Conform

inductive Schema.IsMeta : Schema → Prop where
  | root : IsMeta metaSchema
  | fields : IsMeta specFields
  | reference (handle : Nat) : IsMeta (metaReference handle)

namespace OptionType

def ChecksTypes (t : OptionType) : Prop :=
  ∀ f args, t = .custom f args → f = typeCheck ∧ args = []

def IsMeta (t : OptionType) : Prop :=
  ∀ u, Part u t → u.ChecksTypes ∧ ∀ b s, u.container? = some (b, s) → s.IsMeta

namespace IsMeta

theorem basic (b : BasicType) : IsMeta (.basic b) := by
  intro u hu
  cases hu
  simp [ChecksTypes, container?]

theorem container {t : OptionType} {b : BasicType} {s : Schema} (ht : t.container? = some (b, s))
    (hs : s.IsMeta) : IsMeta t := by
  intro u hu
  cases hu with
  | self =>
    refine ⟨fun f args h => by simp [h, container?] at ht, fun b' s' h => ?_⟩
    rw [ht] at h
    cases h
    exact hs
  | _ => simp [container?] at ht

theorem union {ts : List OptionType} (h : ∀ t ∈ ts, IsMeta t) : IsMeta (.union ts) := by
  intro u hu
  cases hu with
  | self => simp [ChecksTypes, container?]
  | alternative ht hu => exact h _ ht u hu

theorem nestedSchema : IsMeta .nestedSchema := by
  refine union fun t ht => ?_
  simp only [List.mem_cons, List.not_mem_nil, or_false] at ht
  rcases ht with rfl | rfl | rfl
  · intro u hu
    cases hu
    simp [ChecksTypes, container?]
  · exact container rfl (.reference 0)
  · exact container rfl (.reference 1)

theorem docText : IsMeta .docText := by
  refine union fun t ht => ?_
  simp only [List.mem_cons, List.not_mem_nil, or_false] at ht
  rcases ht with rfl | rfl
  · exact basic .string
  · intro u hu
    cases hu
    simp [ChecksTypes, container?]

theorem typeCheck : IsMeta (.custom typeCheck []) := by
  intro u hu
  cases hu
  simp [ChecksTypes, container?]

end IsMeta

end OptionType

namespace Schema

variable {host : Host} {s : Schema} {es : List Entry}

theorem resolves_metaSchema (h : metaSchema.Resolves host es) :
    es = [⟨.wildcard, .ofType (.keywordListOf .specFields)⟩] := by
  cases h
  rfl

theorem resolves_metaReference {handle : Nat} (h : (metaReference handle).Resolves host es) :
    metaSchema.Resolves host es := by
  cases h with
  | deferred h => exact h

theorem IsMeta.entries (h : s.IsMeta) (hes : s.Resolves host es) :
    Entry.DistinctKeys es ∧
      ∀ e ∈ es, e.spec.renameTo? = none ∧ e.spec.keys? = none ∧ e.spec.type.IsMeta := by
  have hmeta : ∀ es, metaSchema.Resolves host es → Entry.DistinctKeys es ∧
      ∀ e ∈ es, e.spec.renameTo? = none ∧ e.spec.keys? = none ∧ e.spec.type.IsMeta := by
    intro es hes
    rw [resolves_metaSchema hes]
    refine ⟨by simp [Entry.DistinctKeys], fun e he => ?_⟩
    rw [List.mem_singleton] at he
    subst he
    exact ⟨rfl, rfl, .container rfl .fields⟩
  cases h with
  | root => exact hmeta es hes
  | reference handle => exact hmeta es (resolves_metaReference hes)
  | fields =>
    cases hes
    refine ⟨by unfold Entry.DistinctKeys; decide, fun e he => ?_⟩
    simp only [List.mem_cons, List.not_mem_nil, or_false] at he
    rcases he with rfl | rfl | rfl | rfl | rfl | rfl | rfl | rfl | rfl | rfl
    all_goals refine ⟨rfl, rfl, ?_⟩
    · exact .typeCheck
    · exact .basic _
    · exact .basic _
    · exact .nestedSchema
    · exact .basic _
    · exact .basic _
    · exact .docText
    · exact .basic _
    · exact .docText
    · exact .basic _

theorem IsMeta.contained {t : Schema} (h : s.IsMeta) (ht : s.Contains host t) : t.IsMeta := by
  cases ht with
  | type hes he hu ht => exact (((h.entries hes).2 _ he).2.2 _ hu).2 _ _ ht
  | keys hes he hkeys =>
    rw [((h.entries hes).2 _ he).2.1] at hkeys
    simp at hkeys

/-- The schema of schemas is regular everywhere, and its only validator is the check of types. -/
theorem IsMeta.everywhere (h : s.IsMeta) :
    s.Everywhere host Entry.Regular OptionType.ChecksTypes := by
  refine .of_invariant IsMeta h (fun s t hs ht => hs.contained ht) fun s es hs hes => ?_
  obtain ⟨hdistinct, hentries⟩ := hs.entries hes
  refine ⟨⟨hdistinct, fun e he => (hentries e he).1⟩, fun e he u hu => ?_⟩
  exact ((hentries e he).2.2 u hu).1

end Schema

end Conform
