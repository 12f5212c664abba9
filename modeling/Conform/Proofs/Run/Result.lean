import Mathlib.Data.List.Forall2
import Conform.Run

namespace Conform.Run

variable {α β : Type}

@[simp] theorem result_pure (a : α) : (pure a : Run α).result = .ok a := rfl

@[simp] theorem result_fail (e : Failure) : (fail e : Run α).result = .error e := rfl

@[simp] theorem result_reject (e : ValidationError) :
    (reject e : Run α).result = .error (.invalid e) := rfl

@[simp] theorem result_emit (e : Event) : (emit e).result = .ok () := rfl

theorem bind_of_ok {r : Run α} {a : α} (h : r.result = .ok a) (f : α → Run β) :
    r >>= f = ⟨r.events ++ (f a).events, (f a).result⟩ := by
  change r.andThen f = _
  simp only [andThen, h]

theorem bind_of_error {r : Run α} {e : Failure} (h : r.result = .error e) (f : α → Run β) :
    r >>= f = ⟨r.events, .error e⟩ := by
  change r.andThen f = _
  simp only [andThen, h]

theorem result_bind (r : Run α) (f : α → Run β) :
    (r >>= f).result = r.result >>= fun a => (f a).result := by
  change (r.andThen f).result = _
  unfold andThen
  cases r.result <;> rfl

theorem bind_eq_ok {r : Run α} {f : α → Run β} {b : β} :
    (r >>= f).result = .ok b ↔ ∃ a, r.result = .ok a ∧ (f a).result = .ok b := by
  rw [result_bind]
  cases r.result <;> simp [bind, Except.bind]

theorem bind_unit_eq_ok {r : Run Unit} {f : Unit → Run β} {b : β} :
    (r >>= f).result = .ok b ↔ r.result = .ok () ∧ (f ()).result = .ok b := by
  rw [bind_eq_ok]
  exact ⟨fun ⟨_, hr, hf⟩ => ⟨hr, hf⟩, fun ⟨hr, hf⟩ => ⟨(), hr, hf⟩⟩

theorem bind_eq_error {r : Run α} {f : α → Run β} {e : Failure} :
    (r >>= f).result = .error e ↔
      r.result = .error e ∨ ∃ a, r.result = .ok a ∧ (f a).result = .error e := by
  rw [result_bind]
  cases r.result <;> simp [bind, Except.bind]

theorem result_map (f : α → β) (r : Run α) : (f <$> r).result = r.result.map f := by
  change (r.andThen fun a => pure (f a)).result = _
  unfold andThen
  cases h : r.result <;> rfl

theorem map_eq_ok {f : α → β} {r : Run α} {b : β} :
    (f <$> r).result = .ok b ↔ ∃ a, r.result = .ok a ∧ f a = b := by
  rw [result_map]
  cases r.result <;> simp [Except.map]

theorem map_eq_error {f : α → β} {r : Run α} {e : Failure} :
    (f <$> r).result = .error e ↔ r.result = .error e := by
  rw [result_map]
  cases r.result <;> simp [Except.map]

theorem ofOption_eq_ok {a? : Option α} {a : α} : (ofOption a?).result = .ok a ↔ a? = some a := by
  cases a? <;> simp [ofOption]

theorem mapRejection_eq_ok {f : ValidationError → ValidationError} {r : Run α} {a : α} :
    (mapRejection f r).result = .ok a ↔ r.result = .ok a := by
  unfold mapRejection
  split
  next h => simp [h]
  next => rfl

theorem mapRejection_eq_invalid {f : ValidationError → ValidationError} {r : Run α}
    {e : ValidationError} : (mapRejection f r).result = .error (.invalid e) ↔
      ∃ inner, r.result = .error (.invalid inner) ∧ f inner = e := by
  unfold mapRejection
  split
  next inner h => simp [h]
  next hother =>
    constructor
    · exact fun h => absurd h (hother e)
    · rintro ⟨inner, h, -⟩
      exact absurd h (hother inner)

theorem attempt_eq_ok {r : Run α} {outcome : Except ValidationError α} :
    (attempt r).result = .ok outcome ↔ r.result = outcome.mapError .invalid := by
  unfold attempt
  split
  next a h => cases outcome <;> simp [h, Except.mapError]
  next e h => cases outcome <;> simp [h, Except.mapError]
  next e hvalid h =>
    cases outcome with
    | ok a => simp [h, Except.mapError]
    | error reason =>
      simp only [h, Except.mapError, reduceCtorEq, Except.error.injEq, false_iff]
      rintro rfl
      exact hvalid reason rfl

theorem attempt_eq_error {r : Run α} {e : Failure} :
    (attempt r).result = .error e ↔ r.result = .error e ∧ ∀ reason, e ≠ .invalid reason := by
  unfold attempt
  split
  next a h => simp [h]
  next reason h =>
    simp only [h, reduceCtorEq, Except.error.injEq, false_iff, not_and, not_forall, not_not]
    rintro rfl
    exact ⟨reason, rfl⟩
  next e' hvalid h =>
    simp only [h, Except.error.injEq]
    refine ⟨?_, And.left⟩
    rintro rfl
    exact ⟨rfl, hvalid⟩

theorem mapM_eq_ok {f : α → Run β} {as : List α} {bs : List β} :
    (as.mapM f).result = .ok bs ↔ List.Forall₂ (fun a b => (f a).result = .ok b) as bs := by
  induction as generalizing bs with
  | nil => simp [eq_comm]
  | cons a as ih =>
    rw [List.mapM_cons, bind_eq_ok]
    simp only [bind_eq_ok, ih, result_pure, Except.ok.injEq]
    constructor
    · rintro ⟨b, hb, bs', hbs, rfl⟩
      exact .cons hb hbs
    · rintro (_ | ⟨hb, hbs⟩)
      exact ⟨_, hb, _, hbs, rfl⟩

theorem exists_error_of_mapM {f : α → Run β} {as : List α} {e : Failure}
    (h : (as.mapM f).result = .error e) : ∃ a ∈ as, (f a).result = .error e := by
  induction as with
  | nil => simp at h
  | cons a as ih =>
    rw [List.mapM_cons] at h
    rcases bind_eq_error.1 h with ha | ⟨b, -, h⟩
    · exact ⟨a, by simp, ha⟩
    · rcases bind_eq_error.1 h with has | ⟨bs, -, h⟩
      · obtain ⟨a', ha', he⟩ := ih has
        exact ⟨a', List.mem_cons_of_mem _ ha', he⟩
      · cases h

theorem length_of_mapM {f : α → Run β} {as : List α} {bs : List β}
    (h : (as.mapM f).result = .ok bs) : bs.length = as.length :=
  (mapM_eq_ok.1 h).length_eq.symm

theorem mapM_eq_self_of_mapM {f : α → Run β} {g : β → Run β} {as : List α} {bs : List β}
    (h : (as.mapM f).result = .ok bs)
    (hg : ∀ a ∈ as, ∀ b, (f a).result = .ok b → (g b).result = .ok b) :
    (bs.mapM g).result = .ok bs := by
  rw [mapM_eq_ok] at h ⊢
  induction h with
  | nil => exact .nil
  | cons hab _ ih =>
    refine .cons (hg _ (by simp) _ hab) (ih fun a ha => hg a (List.mem_cons_of_mem _ ha))

theorem mapM_zipIdx_eq_self_of_mapM {f : α × Nat → Run β} {g : β × Nat → Run β} {as : List α}
    {bs : List β} {i j : Nat} (h : ((as.zipIdx i).mapM f).result = .ok bs)
    (hg : ∀ a ∈ as, ∀ i b, (f (a, i)).result = .ok b → ∀ j, (g (b, j)).result = .ok b) :
    ((bs.zipIdx j).mapM g).result = .ok bs := by
  rw [mapM_eq_ok] at h ⊢
  induction as generalizing bs i j with
  | nil =>
    cases h
    exact .nil
  | cons a as ih =>
    cases h with
    | cons hab h =>
      exact .cons (hg a (by simp) _ _ hab _) (ih h fun a ha => hg a (List.mem_cons_of_mem _ ha))

theorem mapM_zip_eq_self_of_mapM {γ : Type} {f : (γ × α) × Nat → Run β} {g : (γ × β) × Nat → Run β}
    {cs : List γ} {as : List α} {bs : List β} {i j : Nat} (hlength : as.length = cs.length)
    (h : (((cs.zip as).zipIdx i).mapM f).result = .ok bs)
    (hg : ∀ c ∈ cs, ∀ a i b, (f ((c, a), i)).result = .ok b → ∀ j, (g ((c, b), j)).result = .ok b) :
    (((cs.zip bs).zipIdx j).mapM g).result = .ok bs := by
  rw [mapM_eq_ok] at h ⊢
  induction cs generalizing as bs i j with
  | nil =>
    cases h
    exact .nil
  | cons c cs ih =>
    cases as with
    | nil => simp at hlength
    | cons a as =>
      cases h with
      | cons hab h =>
        refine .cons (hg c (by simp) _ _ _ hab _) (ih (by simpa using hlength) h ?_)
        exact fun c hc => hg c (List.mem_cons_of_mem _ hc)

theorem exists_of_mem_mapM {f : α → Run β} {as : List α} {bs : List β}
    (h : (as.mapM f).result = .ok bs) {b : β} (hb : b ∈ bs) :
    ∃ a ∈ as, (f a).result = .ok b := by
  rw [mapM_eq_ok] at h
  induction h with
  | nil => simp at hb
  | cons hab _ ih =>
    rcases List.mem_cons.1 hb with rfl | hb
    · exact ⟨_, by simp, hab⟩
    · obtain ⟨a', ha', hok⟩ := ih hb
      exact ⟨a', List.mem_cons_of_mem _ ha', hok⟩

/-- Each result of a traversal of two lists side by side comes with the element of the first list
that stands in its place. -/
theorem exists_of_mem_zip_mapM {γ : Type} {f : (γ × α) × Nat → Run β} {cs : List γ} {as : List α}
    {bs : List β} {i : Nat} (h : (((cs.zip as).zipIdx i).mapM f).result = .ok bs) {p : γ × β}
    (hp : p ∈ cs.zip bs) : ∃ a ∈ as, ∃ j, (f ((p.1, a), j)).result = .ok p.2 := by
  rw [mapM_eq_ok] at h
  induction cs generalizing as bs i with
  | nil => simp at hp
  | cons c cs ih =>
    cases as with
    | nil =>
      cases h
      simp at hp
    | cons a as =>
      cases h with
      | cons hab h =>
        rcases List.mem_cons.1 hp with rfl | hp
        · exact ⟨a, by simp, i, hab⟩
        · obtain ⟨a', ha', hok⟩ := ih h hp
          exact ⟨a', List.mem_cons_of_mem _ ha', hok⟩

theorem foldlM_congr {f g : β → α → Run β} {as : List α} (h : ∀ a ∈ as, ∀ b, f b a = g b a)
    (b : β) : as.foldlM f b = as.foldlM g b := by
  induction as generalizing b with
  | nil => rfl
  | cons a as ih =>
    rw [List.foldlM_cons, List.foldlM_cons, h a (by simp)]
    exact congrArg _ (funext fun b' => ih (fun a' ha' => h a' (List.mem_cons_of_mem _ ha')) b')

/-- What every run of a fold keeps is kept by the fold. -/
theorem foldlM_invariant {f : β → α → Run β} {as : List α} (invariant : β → Prop)
    (hstep : ∀ a ∈ as, ∀ b b', invariant b → (f b a).result = .ok b' → invariant b') {b b' : β}
    (hb : invariant b) (h : (as.foldlM f b).result = .ok b') : invariant b' := by
  induction as generalizing b with
  | nil =>
    cases h
    exact hb
  | cons a as ih =>
    rw [List.foldlM_cons] at h
    obtain ⟨next, hnext, h⟩ := bind_eq_ok.1 h
    refine ih (fun a' ha' => hstep a' (List.mem_cons_of_mem _ ha')) ?_ h
    exact hstep a (by simp) b next hb hnext

theorem exists_ok_of_foldlM {f : β → α → Run β} {as : List α} {a : α} (ha : a ∈ as)
    {b b' : β} (h : (as.foldlM f b).result = .ok b') : ∃ c c', (f c a).result = .ok c' := by
  induction as generalizing b with
  | nil => simp at ha
  | cons x as ih =>
    rw [List.foldlM_cons] at h
    obtain ⟨c, hx, h⟩ := bind_eq_ok.1 h
    rcases List.mem_cons.1 ha with rfl | ha
    · exact ⟨b, c, hx⟩
    · exact ih ha h

theorem exists_split_of_foldlM {f : β → α → Run β} {as : List α} {b : β} {e : Failure}
    (h : (as.foldlM f b).result = .error e) : ∃ before a after c, as = before ++ a :: after ∧
      (before.foldlM f b).result = .ok c ∧ (f c a).result = .error e := by
  induction as generalizing b with
  | nil => cases h
  | cons a as ih =>
    rw [List.foldlM_cons] at h
    rcases bind_eq_error.1 h with ha | ⟨next, hnext, h⟩
    · exact ⟨[], a, as, b, rfl, rfl, ha⟩
    · obtain ⟨before, a', after, c, rfl, hbefore, hc⟩ := ih h
      refine ⟨a :: before, a', after, c, rfl, ?_, hc⟩
      rw [List.foldlM_cons]
      exact bind_eq_ok.2 ⟨next, hnext, hbefore⟩

theorem exists_error_of_foldlM {f : β → α → Run β} {as : List α} {b : β} {e : Failure}
    (h : (as.foldlM f b).result = .error e) : ∃ a ∈ as, ∃ c, (f c a).result = .error e := by
  obtain ⟨before, a, after, c, rfl, -, hc⟩ := exists_split_of_foldlM h
  exact ⟨a, by simp, c, hc⟩

/-- The first success is one of the runs'; if there is none, all of them are rejections. -/
theorem firstAccepted_eq_ok {f : α → Run β} {as : List α}
    {outcome : Except (List ValidationError) β} (h : (firstAccepted f as).result = .ok outcome) :
    match outcome with
    | .ok b => ∃ a ∈ as, (f a).result = .ok b
    | .error _ => ∀ a ∈ as, ∃ e, (f a).result = .error (.invalid e) := by
  induction as generalizing outcome with
  | nil =>
    simp only [firstAccepted, result_pure, Except.ok.injEq] at h
    subst h
    simp
  | cons a as ih =>
    unfold firstAccepted at h
    obtain ⟨tried, ha, h⟩ := bind_eq_ok.1 h
    rw [attempt_eq_ok] at ha
    -- A success ends the search; a rejection leaves it to the rest.
    cases tried with
    | ok b =>
      simp only [result_pure, Except.ok.injEq] at h
      subst h
      exact ⟨a, by simp, ha⟩
    | error e =>
      obtain ⟨later, hlater, h⟩ := bind_eq_ok.1 h
      have := ih hlater
      cases later with
      | ok b =>
        simp only [result_pure, Except.ok.injEq] at h
        subst h
        obtain ⟨a', ha', hb⟩ := this
        exact ⟨a', List.mem_cons_of_mem _ ha', hb⟩
      | error es =>
        simp only [result_pure, Except.ok.injEq] at h
        subst h
        intro a' ha'
        rcases List.mem_cons.1 ha' with rfl | ha'
        · exact ⟨e, ha⟩
        · exact this a' ha'

/-- Only what is no rejection ends the search without an outcome. -/
theorem firstAccepted_eq_error {f : α → Run β} {as : List α} {e : Failure}
    (h : (firstAccepted f as).result = .error e) :
    (∀ reason, e ≠ .invalid reason) ∧ ∃ a ∈ as, (f a).result = .error e := by
  induction as with
  | nil => simp [firstAccepted] at h
  | cons a as ih =>
    unfold firstAccepted at h
    rcases bind_eq_error.1 h with ha | ⟨tried, -, h⟩
    · obtain ⟨he, hne⟩ := attempt_eq_error.1 ha
      exact ⟨hne, a, by simp, he⟩
    · cases tried with
      | ok b => simp at h
      | error _ =>
        rcases bind_eq_error.1 h with hlater | ⟨later, -, h⟩
        · obtain ⟨hne, a', ha', he⟩ := ih hlater
          exact ⟨hne, a', List.mem_cons_of_mem _ ha', he⟩
        · cases later <;> simp at h

end Conform.Run
