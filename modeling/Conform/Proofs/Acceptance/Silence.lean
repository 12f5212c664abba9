import Conform.Proofs.Acceptance.Invariance
import Conform.Proofs.Compiled.Placement
import Conform.Proofs.Run.Deprecations
import Conform.Proofs.Schema.Inside
import Conform.Proofs.Schema.MetaLevels

namespace Conform

open Run

def Entry.Undeprecated (es : List Entry) : Prop := ∀ e ∈ es, e.spec.deprecation? = none

/-- No option is deprecated in the schemas of the type. -/
abbrev OptionType.Undeprecated (host : Host) : OptionType → Prop :=
  Everywhere host Entry.Undeprecated fun _ => True

abbrev Schema.Undeprecated (host : Host) : Schema → Prop :=
  Everywhere host Entry.Undeprecated fun _ => True

theorem Schema.IsMeta.undeprecated {host : Host} {s : Schema} (h : s.IsMeta) :
    s.Undeprecated host := by
  refine .of_invariant IsMeta h (fun s t hs ht => hs.contained ht) fun s es hs hes => ?_
  refine ⟨?_, fun _ _ _ _ => trivial⟩
  have hmeta : ∀ es, metaSchema.Resolves host es → Entry.Undeprecated es := by
    intro es hes e he
    rw [resolves_metaSchema hes, List.mem_singleton] at he
    rw [he]
    rfl
  cases hs with
  | root => exact hmeta es hes
  | reference handle => exact hmeta es (resolves_metaReference hes)
  | fields =>
    cases hes
    unfold Entry.Undeprecated
    simp [OptionSpec.ofType]

theorem Context.quiet_verdict {cx : Context} {f : Function} {v returned : Value} :
    (cx.verdict f v returned).Quiet := by
  unfold verdict
  split
  · exact quiet_pure _
  · exact quiet_fail _
  · exact quiet_fail _

theorem Acceptance.invariant_quiet (host : Host) :
    Acceptance.Invariant host Entry.Undeprecated (fun _ => True) fun _ r => r.Quiet where
  toInvariant := Run.invariant_quiet
  announce es hes e he key := by
    unfold OptionSpec.announce
    rw [hes e he]
    exact quiet_pure ()
  verdict f args v returned _ _ cx := (quiet_emit rfl).bind fun _ _ => Context.quiet_verdict
  container _ _ _ _ := trivial
  listOf _ := trivial
  schemaOfSchemas := Schema.IsMeta.root.undeprecated

theorem OptionType.quiet_accept {host : Host} {t : OptionType} (ht : t.Undeprecated host)
    (fuel : Nat) (label : Label) (v : Value) (cx : Context) :
    (t.accept host fuel label v cx).Quiet :=
  ((Acceptance.invariant_quiet host).accept fuel).1 t ht label v cx

theorem OptionType.quiet_accept_of_schemas {host : Host} {t : OptionType} (ht : t.schemas = [])
    (fuel : Nat) (label : Label) (v : Value) (cx : Context) :
    (t.accept host fuel label v cx).Quiet := by
  refine quiet_accept (fun u hu => ⟨trivial, fun b s hs => ?_⟩) fuel label v cx
  have hmem := mem_schemas.2 ⟨u, b, hu, hs⟩
  rw [ht] at hmem
  exact absurd hmem List.not_mem_nil

theorem Schema.quiet_checkData {host : Host} (fuel : Nat) (path : List Value) (data : Value) :
    (checkData host fuel path data).Quiet := by
  have hjudge : (judge host fuel data).Quiet :=
    judged_invariant invariant_quiet <| ((Acceptance.invariant_quiet host).accept fuel).2.1
      metaSchema IsMeta.root.undeprecated data false
  unfold checkData
  refine hjudge.bind fun e? _ => ?_
  cases e? with
  | none => exact quiet_pure _
  | some e => exact quiet_fail _

theorem Entry.quiet_walkAll {force : Force} {path : List Value} {es : List Entry}
    (h : ∀ e ∈ es, ∀ s ∈ e.spec.schemas, ∀ path done, (s.walk force path done).Quiet)
    (done : List Code) : (walkAll force path es done).Quiet := by
  have hrename : ∀ key renameTo? later, (checkRename path key renameTo? later).Quiet := by
    intro key renameTo? later
    unfold checkRename
    split
    · exact quiet_pure _
    · split
      · exact quiet_pure _
      · exact quiet_fail _
  have hkeys : ∀ key t keys?, (checkKeys path key t keys?).Quiet := by
    intro key t keys?
    unfold checkKeys
    split
    · exact quiet_pure _
    · exact quiet_fail _
  induction es generalizing done with
  | nil =>
    rw [walkAll]
    exact quiet_pure _
  | cons e es ih =>
    rw [walkAll_cons]
    refine (hrename _ _ _).bind fun _ _ => (hkeys _ _ _).bind fun _ _ => ?_
    refine Quiet.bind ?_ fun done _ => ?_
    · exact invariant_quiet.foldlM (fun s hs done => h e (by simp) s hs _ done) done
    · exact ih (fun d hd => h d (List.mem_cons_of_mem _ hd)) done

theorem Schema.quiet_walk {force : Force} (h : ∀ d path done, (force d path done).Quiet)
    (s : Schema) (path : List Value) (done : List Code) : (s.walk force path done).Quiet := by
  induction s using inside_induction generalizing path done with
  | deferred d =>
    rw [walk]
    exact h d path done
  | entries es ih =>
    rw [walk]
    exact Entry.quiet_walkAll ih done

theorem Deferred.quiet_check (host : Host) (limit fuel : Nat) (active : List Code) (d : Deferred)
    (path : List Value) (done : List Code) :
    (check host limit fuel active d path done).Quiet := by
  induction fuel generalizing active d path done with
  | zero =>
    by_cases hmem : d.producer.code ∈ active ∨ d.producer.code ∈ done
    · rw [check_of_mem hmem]
      exact quiet_pure _
    · rw [check_zero hmem]
      exact quiet_fail _
  | succ fuel ih =>
    by_cases hmem : d.producer.code ∈ active ∨ d.producer.code ∈ done
    · rw [check_of_mem hmem]
      exact quiet_pure _
    · rw [check_succ hmem]
      refine (invariant_quiet.ofOption _).bind fun es _ => ?_
      refine (Schema.quiet_checkData limit path _).bind fun _ _ => ?_
      refine (Entry.quiet_walkAll (fun e _ s _ => ?_) done).bind fun _ _ => quiet_pure _
      exact Schema.quiet_walk (ih _) s

/-- The check of a schema reports nothing. -/
theorem Schema.quiet_compile (host : Host) (fuel : Nat) (s : Schema) :
    (s.compile host fuel).Quiet := by
  have hplacement : (s.checkPlacement host fuel).Quiet := by
    unfold checkPlacement
    refine Quiet.bind ?_ fun _ _ => quiet_pure ()
    exact quiet_walk (Deferred.quiet_check host fuel fuel []) s [] []
  have hcheck : (s.check host fuel).Quiet := by
    cases s with
    | deferred d => exact hplacement
    | entries es => exact (quiet_checkData fuel [] _).bind fun _ _ => hplacement
  refine hcheck.bind fun _ _ => (invariant_quiet.ofOption _).bind fun es _ => ?_
  exact (quiet_emit rfl).bind fun _ _ => quiet_pure _

end Conform
