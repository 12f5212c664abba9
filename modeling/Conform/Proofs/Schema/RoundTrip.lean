import Conform.Proofs.Run.Result
import Conform.Proofs.Schema.Encoding
import Conform.Proofs.Schema.Renewal
import Conform.Proofs.Value.Nesting

namespace Conform

-- Powers are those of the core library, also where more instances are in scope.
attribute [local instance (high)] instPowNat

/-- A reading that gives a result, whatever events it leaves. -/
def Run.Reads {ε α : Type} (x : ExceptT ε Run α) : Prop := ∃ a, x.run.result = .ok (.ok a)

namespace Run

variable {ε α β : Type}

theorem reads_bind {x : ExceptT ε Run α} {f : α → ExceptT ε Run β} (h : Reads (x >>= f)) :
    Reads x ∧ ∃ a, Reads (f a) := by
  obtain ⟨b, hb⟩ := h
  rw [ExceptT.run_bind, bind_eq_ok] at hb
  obtain ⟨outcome, hx, hb⟩ := hb
  cases outcome with
  | ok a => exact ⟨⟨a, hx⟩, a, b, hb⟩
  | error e => cases hb

theorem reads_map {x : ExceptT ε Run α} {f : α → β} (h : Reads (f <$> x)) : Reads x := by
  rw [map_eq_pure_bind] at h
  exact (reads_bind h).1

theorem not_reads_throw (e : ε) : ¬Reads (throw e : ExceptT ε Run α) := by
  rintro ⟨a, h⟩
  cases h

end Run

open Run

namespace OptionType

section

variable {check : Value → ExceptT ReadError Run Schema} {nested : Value → Except ReadError Schema}

theorem read_toValue_container {t : OptionType} {b : BasicType} {s : Schema}
    (ht : t.container? = some (b, s))
    (hnested : Reads (check s.toValue) → nested s.toValue = .ok s.renewed)
    (h : Reads (read check t.toValue)) : read nested t.toValue = .ok t.renewed := by
  obtain ⟨_, -, hcheck⟩ := read_container check ht
  obtain ⟨rebuild, hrebuild, hread⟩ := read_container nested ht
  rw [hcheck] at h
  rw [hread, hnested (reads_map h)]
  exact congrArg Except.ok (hrebuild .renewal)

mutual

theorem read_toValue (t : OptionType)
    (harity : ∀ n, Part (.function n) t → n ≤ 2 ^ (63 : Nat) - 1)
    (hnested : ∀ u b s, Part u t → u.container? = some (b, s) → Reads (check s.toValue) →
      nested s.toValue = .ok s.renewed)
    (h : Reads (read check t.toValue)) : read nested t.toValue = .ok t.renewed := by
  cases t with
  | basic b =>
    rw [renewed, revise]
    exact read_basic nested b
  | keywordListOf s | nonEmptyKeywordListOf s | mapOfKeys s =>
    exact read_toValue_container rfl (hnested _ _ _ .self rfl) h
  | mapOf key value =>
    rw [renewed, revise, read_mapOf]
    rw [read_mapOf] at h
    -- The check gives other schemas than the reader, but it succeeds on both parts.
    obtain ⟨hkey, _, h⟩ := reads_bind h
    obtain ⟨hvalue, -⟩ := reads_bind h
    rw [read_toValue key (fun n hn => harity n (.mapKey hn))
      (fun u b s hu => hnested u b s (.mapKey hu)) hkey]
    rw [read_toValue value (fun n hn => harity n (.mapValue hn))
      (fun u b s hu => hnested u b s (.mapValue hu)) hvalue]
    rfl
  | function arity =>
    rw [renewed, revise]
    exact read_function nested (harity arity .self)
  | oneOf choices =>
    rw [renewed, revise]
    exact read_oneOf nested choices
  | custom f args =>
    rw [renewed, revise, Revision.value_renewal, List.map_id, read_custom]
    rw [read_custom] at h
    split at h
    next harity =>
      rw [if_pos harity]
      rfl
    next => exact absurd h (not_reads_throw _)
  | union ts =>
    rw [renewed, revise, read_union]
    rw [read_union] at h
    rw [readAll_toValues ts (fun t ht n hn => harity n (.alternative ht hn))
      (fun t ht u b s hu => hnested u b s (.alternative ht hu)) (reads_map h)]
    rfl
  | listOf u =>
    rw [renewed, revise, read_listOf]
    rw [read_listOf] at h
    rw [read_toValue u (fun n hn => harity n (.listElement hn))
      (fun w b s hw => hnested w b s (.listElement hw)) (reads_map h)]
    rfl
  | tupleOf ts =>
    rw [renewed, revise, read_tupleOf]
    rw [read_tupleOf] at h
    rw [readAll_toValues ts (fun t ht n hn => harity n (.tupleElement ht hn))
      (fun t ht u b s hu => hnested u b s (.tupleElement ht hu)) (reads_map h)]
    rfl
  | struct name =>
    rw [renewed, revise]
    exact read_struct nested name

theorem readAll_toValues (ts : List OptionType)
    (harity : ∀ t ∈ ts, ∀ n, Part (.function n) t → n ≤ 2 ^ (63 : Nat) - 1)
    (hnested : ∀ t ∈ ts, ∀ u b s, Part u t → u.container? = some (b, s) →
      Reads (check s.toValue) → nested s.toValue = .ok s.renewed)
    (h : Reads (readAll check (toValues ts))) :
    readAll nested (toValues ts) = .ok (reviseAll .renewal ts) := by
  cases ts with
  | nil =>
    rw [toValues, readAll, reviseAll]
    rfl
  | cons t ts =>
    rw [toValues, readAll] at h ⊢
    obtain ⟨ht, _, h⟩ := reads_bind h
    obtain ⟨hts, -⟩ := reads_bind h
    rw [read_toValue t (harity t (by simp)) (hnested t (by simp)) ht]
    rw [readAll_toValues ts (fun t ht => harity t (List.mem_cons_of_mem _ ht))
      (fun t ht => hnested t (List.mem_cons_of_mem _ ht)) hts]
    rw [reviseAll]
    rfl

end

end

end OptionType

theorem OptionSpec.read_renewed {nested : Value → Except ReadError Schema}
    {spec : OptionSpec} (htype : OptionType.read nested spec.type.toValue = .ok spec.type.renewed)
    (hkeys : ∀ s, spec.keys? = some s → nested s.toValue = .ok s.renewed) :
    read nested spec.toValue = .ok spec.renewed := by
  rw [read_toValue, htype]
  obtain ⟨t, required, default?, keys?, deprecation?, renameTo?, doc?, subsection?, typeDoc?,
    redact⟩ := spec
  rw [renewed, revise, Revision.value_renewal, Option.map_id]
  cases keys? with
  | none => rfl
  | some s =>
    dsimp only
    rw [hkeys s rfl]
    rfl

theorem mapM_map_eq_ok {ε α β γ : Type} {f : β → Except ε γ} {g : α → β} {k : α → γ}
    {as : List α} (h : ∀ a ∈ as, f (g a) = .ok (k a)) : (as.map g).mapM f = .ok (as.map k) := by
  induction as with
  | nil => rfl
  | cons a as ih =>
    rw [List.map_cons, List.mapM_cons, h a (by simp),
      ih fun a' ha' => h a' (List.mem_cons_of_mem _ ha')]
    rfl

theorem Schema.readWithin_toValue {es : List Entry} {fuel : Nat}
    (hkeys : ∀ e ∈ es, e.key ≠ .atom SchemaKey.wildcardName)
    (hspecs : ∀ e ∈ es, OptionSpec.read (readWithin fuel) e.spec.toValue = .ok e.spec.renewed) :
    readWithin (fuel + 1) (entries es).toValue = .ok (entries es).renewed := by
  have hbind : ∀ f : List (Value × Value) → Except ReadError Schema,
      (Except.ok (Entry.dataPairs es) >>= f) = f (Entry.dataPairs es) := fun _ => rfl
  rw [readWithin, dataPairs_toValue, hbind, Entry.dataPairs,
    mapM_map_eq_ok (k := Entry.revise .renewal), renewed, revise_entries]
  · rfl
  · intro e he
    dsimp only
    rw [SchemaKey.ofValue?_toValue (hkeys e he)]
    dsimp only
    rw [hspecs e he]
    cases e
    rw [Entry.revise]
    rfl

end Conform
