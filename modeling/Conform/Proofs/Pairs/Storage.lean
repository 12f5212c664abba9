import Mathlib.Data.List.Basic
import Mathlib.Data.List.Pairwise
import Conform.Pairs

namespace Conform.Pairs

variable {κ α : Type} [BEq κ]

/-- The pairs that count: those with the first occurrence of their key. -/
def firsts (ps : List (κ × α)) : List (κ × α) :=
  ps.eraseDupsBy fun p q => p.1 == q.1

def Distinct (ps : List (κ × α)) : Prop :=
  ps.Pairwise fun p q => (p.1 == q.1) = false

def storeAll (kvs ps : List (κ × α)) : List (κ × α) :=
  kvs.foldl (fun ps kv => store kv.1 kv.2 ps) ps

@[simp] theorem find?_nil (k : κ) : find? ([] : List (κ × α)) k = none := rfl

theorem find?_cons (p : κ × α) (ps : List (κ × α)) (k : κ) :
    find? (p :: ps) k = if p.1 == k then some p.2 else find? ps k := by
  unfold find?
  rw [List.find?_cons]
  cases p.1 == k <;> rfl

theorem find?_append (ps qs : List (κ × α)) (k : κ) :
    find? (ps ++ qs) k = (find? ps k).or (find? qs k) := by
  induction ps with
  | nil => rfl
  | cons p ps ih =>
    rw [List.cons_append, find?_cons, find?_cons, ih]
    split <;> simp

theorem find?_eq_none {ps : List (κ × α)} {k : κ} :
    find? ps k = none ↔ ∀ p ∈ ps, (p.1 == k) = false := by
  simp [find?]

theorem isSome_find? {ps : List (κ × α)} {k : κ} :
    (find? ps k).isSome ↔ ∃ p ∈ ps, (p.1 == k) = true := by
  simp [find?]

@[simp] theorem erase_nil (k : κ) : erase k ([] : List (κ × α)) = [] := rfl

theorem erase_cons (k : κ) (p : κ × α) (ps : List (κ × α)) :
    erase k (p :: ps) = if p.1 == k then erase k ps else p :: erase k ps := by
  unfold erase
  rw [List.filter_cons]
  cases h : p.1 == k <;> simp [bne, h]

theorem erase_eq_self {ps : List (κ × α)} {k : κ} (h : ∀ p ∈ ps, (p.1 == k) = false) :
    erase k ps = ps := by
  unfold erase
  rw [List.filter_eq_self]
  intro p hp
  simp [bne, h p hp]

theorem mem_erase {ps : List (κ × α)} {k : κ} {p : κ × α} :
    p ∈ erase k ps ↔ p ∈ ps ∧ (p.1 == k) = false := by
  simp [erase, bne]

theorem find?_erase_self (k : κ) (ps : List (κ × α)) : find? (erase k ps) k = none :=
  find?_eq_none.2 fun _ hp => (mem_erase.1 hp).2

theorem fst_of_mem_store {k : κ} {v : α} {ps : List (κ × α)} {p : κ × α} (h : p ∈ store k v ps) :
    p.1 = k ∧ find? ps k = none ∨ ∃ q ∈ ps, q.1 = p.1 := by
  induction ps with
  | nil =>
    left
    rw [store, List.mem_singleton] at h
    exact ⟨by rw [h], rfl⟩
  | cons q ps ih =>
    unfold store at h
    rw [find?_cons]
    split at h
    next =>
      right
      rcases List.mem_cons.1 h with rfl | h
      · exact ⟨q, by simp, rfl⟩
      · exact ⟨p, List.mem_cons_of_mem _ (mem_erase.1 h).1, rfl⟩
    next hqk =>
      rw [if_neg hqk]
      rcases List.mem_cons.1 h with rfl | h
      · exact .inr ⟨p, by simp, rfl⟩
      · rcases ih h with hp | ⟨q', hq', hp⟩
        · exact .inl hp
        · exact .inr ⟨q', List.mem_cons_of_mem _ hq', hp⟩

theorem Distinct.sublist {ps qs : List (κ × α)} (h : Distinct ps) (hs : qs.Sublist ps) :
    Distinct qs :=
  List.Pairwise.sublist hs h

theorem erase_sublist (k : κ) (ps : List (κ × α)) : (erase k ps).Sublist ps :=
  List.filter_sublist

/-- Pairs can be taken one key at a time. -/
theorem erase_induction {motive : List (κ × α) → Prop} (nil : motive [])
    (cons : ∀ p ps, motive (erase p.1 ps) → motive (p :: ps)) : (ps : List (κ × α)) → motive ps
  | [] => nil
  | p :: ps => cons p ps (erase_induction nil cons (erase p.1 ps))
termination_by ps => ps.length
decreasing_by
  have := (erase_sublist p.1 ps).length_le
  rw [List.length_cons]
  omega

@[simp] theorem firsts_nil : firsts ([] : List (κ × α)) = [] := rfl

theorem firsts_cons (p : κ × α) (ps : List (κ × α)) :
    firsts (p :: ps) = p :: firsts (erase p.1 ps) := by
  unfold firsts erase
  rw [List.eraseDupsBy_cons]
  congr 2
  apply List.filter_congr
  intro q _
  cases h : q.1 == p.1 <;> simp [bne, h]

theorem mem_of_mem_firsts {ps : List (κ × α)} {p : κ × α} (h : p ∈ firsts ps) : p ∈ ps := by
  induction ps using erase_induction with
  | nil => exact h
  | cons q ps ih =>
    rw [firsts_cons] at h
    rcases List.mem_cons.1 h with rfl | h
    · exact List.mem_cons_self
    · exact List.mem_cons_of_mem _ (mem_erase.1 (ih h)).1

theorem store_append_of_absent {ps : List (κ × α)} {k : κ} (v : α) (qs : List (κ × α))
    (h : find? ps k = none) : store k v (ps ++ qs) = ps ++ store k v qs := by
  induction ps with
  | nil => rfl
  | cons p ps ih =>
    have hp := find?_eq_none.1 h
    rw [List.cons_append, store, hp p (by simp),
      ih (find?_eq_none.2 fun q hq => hp q (List.mem_cons_of_mem _ hq))]
    rfl

theorem store_of_absent {ps : List (κ × α)} {k : κ} (v : α) (h : find? ps k = none) :
    store k v ps = ps ++ [(k, v)] := by
  simpa [store] using store_append_of_absent v [] h

theorem storeAll_cons (kv : κ × α) (kvs ps : List (κ × α)) :
    storeAll (kv :: kvs) ps = storeAll kvs (store kv.1 kv.2 ps) := rfl

theorem storeAll_of_absent {kvs ps : List (κ × α)} (hd : Distinct kvs)
    (h : ∀ kv ∈ kvs, find? ps kv.1 = none) : storeAll kvs ps = ps ++ kvs := by
  induction kvs generalizing ps with
  | nil => simp [storeAll]
  | cons kv kvs ih =>
    rw [storeAll_cons, store_of_absent _ (h kv (by simp)), ih hd.of_cons, List.append_assoc]
    · rfl
    · intro kv' hkv'
      rw [find?_append, h kv' (List.mem_cons_of_mem _ hkv'), find?_cons,
        List.rel_of_pairwise_cons hd hkv']
      rfl

theorem storeAll_ne_nil {kvs ps : List (κ × α)} (h : ps ≠ []) : storeAll kvs ps ≠ [] := by
  induction kvs generalizing ps with
  | nil => exact h
  | cons kv kvs ih =>
    rw [storeAll_cons]
    apply ih
    cases ps with
    | nil => exact absurd rfl h
    | cons p ps =>
      unfold store
      split <;> simp

variable [PartialEquivBEq κ]

theorem Distinct.ne_of_cons {p q : κ × α} {ps : List (κ × α)} (hd : Distinct (p :: ps))
    (hq : q ∈ ps) : (q.1 == p.1) = false := by
  rw [BEq.comm]
  exact List.rel_of_pairwise_cons hd hq

theorem Distinct.ne_of_mem {p q : κ × α} {ps : List (κ × α)} (hd : Distinct ps) (hp : p ∈ ps)
    (hq : q ∈ ps) (h : p ≠ q) : (p.1 == q.1) = false := by
  have : Std.Symm fun p q : κ × α => (p.1 == q.1) = false :=
    ⟨fun p q h => by rwa [BEq.comm]⟩
  exact hd.forall hp hq h

theorem find?_congr (ps : List (κ × α)) {k l : κ} (h : (k == l) = true) :
    find? ps k = find? ps l := by
  induction ps with
  | nil => rfl
  | cons p ps ih =>
    rw [find?_cons, find?_cons, ih, BEq.congr_right h]

theorem find?_erase_of_ne (ps : List (κ × α)) {k l : κ} (h : (k == l) = false) :
    find? (erase k ps) l = find? ps l := by
  induction ps with
  | nil => rfl
  | cons p ps ih =>
    rw [erase_cons, find?_cons]
    split
    next hpk => rw [ih, BEq.congr_left hpk, h]; rfl
    next hpk => rw [find?_cons, ih]

theorem find?_store_of_ne (ps : List (κ × α)) (v : α) {k l : κ} (h : (k == l) = false) :
    find? (store k v ps) l = find? ps l := by
  induction ps with
  | nil =>
    unfold store
    rw [find?_cons, h]
    rfl
  | cons p ps ih =>
    unfold store
    rw [find?_cons]
    split
    next hpk =>
      have hpl : (p.1 == l) = false := by rw [BEq.congr_left hpk, h]
      simp only [find?_cons, hpl]
      exact find?_erase_of_ne ps h
    next hpk => rw [find?_cons, ih]

theorem find?_store_self (ps : List (κ × α)) (v : α) {k l : κ} (h : (k == l) = true) :
    find? (store k v ps) l = some v := by
  induction ps with
  | nil =>
    unfold store
    rw [find?_cons, h]
    rfl
  | cons p ps ih =>
    unfold store
    split
    next hpk => rw [find?_cons, BEq.congr_left hpk, h]; rfl
    next hpk =>
      have hpl : (p.1 == l) = false := by rw [← BEq.congr_right h]; simpa using hpk
      rw [find?_cons, hpl, ih]
      rfl

theorem erase_congr (ps : List (κ × α)) {k l : κ} (h : (k == l) = true) :
    erase k ps = erase l ps := by
  unfold erase
  apply List.filter_congr
  intro p _
  simp only [bne, BEq.congr_right h]

theorem erase_store_of_ne (ps : List (κ × α)) (v : α) {k l : κ} (h : (k == l) = false) :
    erase l (store k v ps) = store k v (erase l ps) := by
  induction ps with
  | nil =>
    unfold store
    rw [erase_cons, h]
    rfl
  | cons p ps ih =>
    -- The two erasures commute, so only the place of `k` matters.
    by_cases hpk : (p.1 == k) = true
    · have hpl : (p.1 == l) = false := by rw [BEq.congr_left hpk, h]
      simp only [store, erase_cons, hpk, hpl, if_true, Bool.false_eq_true, if_false]
      unfold erase
      simp only [List.filter_filter, Bool.and_comm]
    · have hpk : (p.1 == k) = false := by simpa using hpk
      by_cases hpl : (p.1 == l) = true
      · simp only [store, erase_cons, hpk, hpl, if_true, Bool.false_eq_true, if_false, ih]
      · simp only [store, erase_cons, hpk, hpl, Bool.false_eq_true, if_false, ih]

theorem keys_cons (p : κ × α) (ps : List (κ × α)) :
    keys (p :: ps) = p.1 :: keys (erase p.1 ps) := by
  -- The fold never moves its first key, and passes over whatever is equal to it.
  have hfold : ∀ (k : κ) (ks : List κ),
      ps.foldl (fun ks p => if ks.any (· == p.1) then ks else ks ++ [p.1]) (k :: ks) =
        k :: (erase k ps).foldl (fun ks p => if ks.any (· == p.1) then ks else ks ++ [p.1]) ks := by
    induction ps with
    | nil => simp
    | cons q ps ih =>
      intro k ks
      rw [List.foldl_cons, erase_cons, List.any_cons, BEq.comm (a := k)]
      cases hqk : q.1 == k
      · simp only [Bool.false_or, Bool.false_eq_true, if_false, List.foldl_cons]
        split
        · exact ih k ks
        · exact ih k (ks ++ [q.1])
      · simp only [Bool.true_or, if_true]
        exact ih k ks
  exact hfold p.1 []

theorem keys_eq_map_firsts (ps : List (κ × α)) : keys ps = (firsts ps).map Prod.fst := by
  induction ps using erase_induction with
  | nil => rfl
  | cons p ps ih => rw [keys_cons, firsts_cons, List.map_cons, ih]

theorem find?_firsts (ps : List (κ × α)) (k : κ) : find? (firsts ps) k = find? ps k := by
  induction ps using erase_induction with
  | nil => rfl
  | cons p ps ih =>
    rw [firsts_cons, find?_cons, find?_cons, ih]
    split
    · rfl
    next h => exact find?_erase_of_ne ps (by simpa using h)

theorem keys_store (ps : List (κ × α)) (k : κ) (v : α) :
    keys (store k v ps) = if (find? ps k).isSome then keys ps else keys ps ++ [k] := by
  induction ps using erase_induction with
  | nil => rfl
  | cons p ps ih =>
    unfold store
    rw [find?_cons]
    split
    next hpk =>
      rw [keys_cons, keys_cons, erase_congr (erase k ps) hpk, erase_congr ps hpk]
      simp [erase]
    next hpk =>
      have hkp : (k == p.1) = false := by rw [BEq.comm]; simpa using hpk
      rw [keys_cons, keys_cons, erase_store_of_ne ps v hkp, ih,
        find?_erase_of_ne ps (by simpa using hpk)]
      split <;> rfl

theorem distinct_firsts (ps : List (κ × α)) : Distinct (firsts ps) := by
  induction ps using erase_induction with
  | nil => exact .nil
  | cons p ps ih =>
    rw [firsts_cons]
    refine .cons (fun q hq => ?_) ih
    rw [BEq.comm]
    exact (mem_erase.1 (mem_of_mem_firsts hq)).2

theorem pairwise_keys (ps : List (κ × α)) : (keys ps).Pairwise fun k l => (k == l) = false := by
  rw [keys_eq_map_firsts]
  exact List.pairwise_map.2 (distinct_firsts ps)

theorem any_keys (ps : List (κ × α)) (k : κ) : (keys ps).any (· == k) = (find? ps k).isSome := by
  induction ps using erase_induction with
  | nil => rfl
  | cons p ps ih =>
    rw [keys_cons, List.any_cons, find?_cons, ih]
    cases hpk : p.1 == k with
    | true => rfl
    | false => rw [find?_erase_of_ne ps hpk]; rfl

theorem keys_erase (k : κ) (ps : List (κ × α)) : keys (erase k ps) = (keys ps).filter (· != k) := by
  induction ps using erase_induction with
  | nil => rfl
  | cons p ps ih =>
    rw [erase_cons, keys_cons, List.filter_cons]
    cases hpk : p.1 == k with
    | true =>
      -- What is left has the key no more, since it has the equal key `p.1` no more.
      rw [erase_congr ps hpk] at ih ⊢
      rw [← ih, erase_eq_self fun q hq => (mem_erase.1 hq).2]
      simp [bne, hpk]
    | false =>
      rw [← ih]
      simp only [Bool.false_eq_true, if_false, bne, hpk, Bool.not_false, if_true, keys_cons]
      simp only [erase, List.filter_filter, Bool.and_comm]

theorem mem_of_mem_keys {ps : List (κ × α)} {k : κ} (h : k ∈ keys ps) : ∃ p ∈ ps, p.1 = k := by
  rw [keys_eq_map_firsts] at h
  obtain ⟨p, hp, rfl⟩ := List.mem_map.1 h
  exact ⟨p, mem_of_mem_firsts hp, rfl⟩

theorem exists_mem_keys {ps : List (κ × α)} {p : κ × α} (hp : p ∈ ps) :
    p.1 ∈ keys ps ∨ ∃ k ∈ keys ps, (p.1 == k) = true := by
  induction ps using erase_induction with
  | nil => simp at hp
  | cons q ps ih =>
    rw [keys_cons]
    rcases List.mem_cons.1 hp with rfl | hp
    · exact .inl List.mem_cons_self
    · cases hpq : p.1 == q.1 with
      | true => exact .inr ⟨q.1, List.mem_cons_self, hpq⟩
      | false =>
        rcases ih (mem_erase.2 ⟨hp, hpq⟩) with h | ⟨k, hk, h⟩
        · exact .inl (List.mem_cons_of_mem _ h)
        · exact .inr ⟨k, List.mem_cons_of_mem _ hk, h⟩

theorem find?_of_mem {ps : List (κ × α)} (hd : Distinct ps) {p : κ × α} (hp : p ∈ ps) {k : κ}
    (h : (p.1 == k) = true) : find? ps k = some p.2 := by
  induction ps with
  | nil => simp at hp
  | cons q ps ih =>
    rw [find?_cons]
    rcases List.mem_cons.1 hp with rfl | hp
    · rw [if_pos h]
    · have hqp : (q.1 == p.1) = false := List.rel_of_pairwise_cons hd hp
      rw [← BEq.congr_right h, hqp]
      exact ih hd.of_cons hp

theorem find?_of_mem_firsts {ps : List (κ × α)} {p : κ × α} (hp : p ∈ firsts ps)
    (h : (p.1 == p.1) = true) : find? ps p.1 = some p.2 := by
  rw [← find?_firsts]
  exact find?_of_mem (distinct_firsts ps) hp h

theorem exists_mem_firsts {ps : List (κ × α)} {k : κ} {v : α} (h : find? ps k = some v) :
    ∃ p ∈ firsts ps, (p.1 == k) = true ∧ p.2 = v := by
  rw [← find?_firsts] at h
  obtain ⟨p, hp, rfl⟩ := Option.map_eq_some_iff.1 h
  have hkey := List.find?_some hp
  exact ⟨p, List.mem_of_find?_eq_some hp, hkey, rfl⟩

theorem firsts_of_distinct {ps : List (κ × α)} (hd : Distinct ps) : firsts ps = ps := by
  induction ps with
  | nil => rfl
  | cons p ps ih => rw [firsts_cons, erase_eq_self fun q hq => hd.ne_of_cons hq, ih hd.of_cons]

/-- The pairs that count, with the values that were stored under their keys. -/
def updated (kvs ps : List (κ × α)) : List (κ × α) :=
  (firsts ps).filterMap fun p => (find? kvs p.1).map fun v => (p.1, v)

/-- What is stored under a new key. -/
def added (kvs ps : List (κ × α)) : List (κ × α) :=
  kvs.filter fun kv => (find? ps kv.1).isNone

theorem storeAll_cons_of_absent {kvs : List (κ × α)} {p : κ × α} (ps : List (κ × α))
    (h : find? kvs p.1 = none) : storeAll kvs (p :: ps) = p :: storeAll kvs ps := by
  induction kvs generalizing ps with
  | nil => rfl
  | cons kv kvs ih =>
    have hkvs := find?_eq_none.1 h
    have hkv : (p.1 == kv.1) = false := by rw [BEq.comm]; exact hkvs kv (by simp)
    rw [storeAll_cons, storeAll_cons, store, hkv]
    exact ih _ (find?_eq_none.2 fun q hq => hkvs q (List.mem_cons_of_mem _ hq))

theorem storeAll_cons_of_present {kvs : List (κ × α)} (hd : Distinct kvs) {p : κ × α} {v : α}
    (ps : List (κ × α)) (h : find? kvs p.1 = some v) :
    storeAll kvs (p :: ps) = (p.1, v) :: storeAll (erase p.1 kvs) (erase p.1 ps) := by
  induction kvs generalizing ps with
  | nil => simp at h
  | cons kv kvs ih =>
    rw [find?_cons] at h
    rw [storeAll_cons, store, BEq.comm, erase_cons]
    split at h
    next hkv =>
      have hrest : ∀ q ∈ kvs, (q.1 == p.1) = false := by
        intro q hq
        rw [← BEq.congr_right hkv]
        exact hd.ne_of_cons hq
      cases h
      rw [if_pos hkv, if_pos hkv, erase_eq_self hrest, erase_congr _ hkv]
      exact storeAll_cons_of_absent _ (find?_eq_none.2 hrest)
    next hkv =>
      have hkv : (kv.1 == p.1) = false := by simpa using hkv
      rw [hkv]
      simp only [Bool.false_eq_true, if_false]
      rw [ih hd.of_cons _ h, storeAll_cons, erase_store_of_ne _ _ hkv]

theorem storeAll_eq {kvs ps : List (κ × α)} (hd : Distinct kvs)
    (h : ∀ p ∈ ps, (find? kvs p.1).isSome) : storeAll kvs ps = updated kvs ps ++ added kvs ps := by
  -- One key at a time: the first pair takes its value, and the key leaves both lists.
  induction ps using erase_induction generalizing kvs with
  | nil =>
    rw [storeAll_of_absent hd (by simp)]
    exact (List.filter_eq_self.2 (by simp)).symm
  | cons p ps ih =>
    obtain ⟨v, hv⟩ := Option.isSome_iff_exists.1 (h p (by simp))
    have hkvs : ∀ q ∈ erase p.1 ps, find? (erase p.1 kvs) q.1 = find? kvs q.1 := by
      intro q hq
      apply find?_erase_of_ne
      rw [BEq.comm]
      exact (mem_erase.1 hq).2
    have hupdated : updated kvs (p :: ps) =
        (p.1, v) :: updated (erase p.1 kvs) (erase p.1 ps) := by
      unfold updated
      rw [firsts_cons, List.filterMap_cons, hv]
      simp only [Option.map_some, List.cons.injEq, true_and]
      apply List.filterMap_congr
      intro q hq
      rw [hkvs q (mem_of_mem_firsts hq)]
    have hadded : added kvs (p :: ps) = added (erase p.1 kvs) (erase p.1 ps) := by
      change kvs.filter _ = List.filter _ (List.filter _ kvs)
      rw [List.filter_filter]
      apply List.filter_congr
      intro kv _
      rw [find?_cons, bne, BEq.comm]
      cases hkv : kv.1 == p.1
      · rw [find?_erase_of_ne ps (by rw [BEq.comm]; exact hkv)]
        simp
      · simp
    rw [storeAll_cons_of_present hd _ hv, hupdated, hadded, List.cons_append]
    rw [ih (Distinct.sublist hd (erase_sublist p.1 kvs))]
    intro q hq
    rw [hkvs q hq]
    exact h q (List.mem_cons_of_mem _ (mem_erase.1 hq).1)

theorem find?_storeAll {kvs : List (κ × α)} (hd : Distinct kvs) (ps : List (κ × α)) (k : κ) :
    find? (storeAll kvs ps) k = (find? kvs k).or (find? ps k) := by
  induction kvs generalizing ps with
  | nil => rfl
  | cons kv kvs ih =>
    rw [storeAll_cons, ih hd.of_cons, find?_cons]
    split
    next hk =>
      have hnone : find? kvs k = none := by
        apply find?_eq_none.2
        intro q hq
        rw [← BEq.congr_right hk]
        exact hd.ne_of_cons hq
      rw [hnone, find?_store_self ps _ hk]
      rfl
    next hk => rw [find?_store_of_ne ps _ (by simpa using hk)]

theorem store_eq_self {ps : List (κ × α)} (hd : Distinct ps) {k : κ} {v : α}
    (h : find? ps k = some v) : store k v ps = ps := by
  induction ps with
  | nil => simp at h
  | cons p ps ih =>
    rw [find?_cons] at h
    unfold store
    split at h
    next hp =>
      cases h
      rw [if_pos hp, erase_eq_self]
      intro q hq
      rw [← BEq.congr_right hp]
      exact hd.ne_of_cons hq
    next hp => rw [if_neg hp, ih hd.of_cons h]

theorem storeAll_eq_self {kvs ps : List (κ × α)} (hd : Distinct ps)
    (h : ∀ kv ∈ kvs, find? ps kv.1 = some kv.2) : storeAll kvs ps = ps := by
  induction kvs with
  | nil => rfl
  | cons kv kvs ih =>
    rw [storeAll_cons, store_eq_self hd (h kv (by simp))]
    exact ih fun kv' hkv' => h kv' (List.mem_cons_of_mem _ hkv')

theorem distinct_storeAll {kvs ps : List (κ × α)} (hd : Distinct kvs)
    (h : ∀ p ∈ ps, (find? kvs p.1).isSome) : Distinct (storeAll kvs ps) := by
  rw [storeAll_eq hd h]
  refine List.pairwise_append.2 ⟨?_, Distinct.sublist hd List.filter_sublist, ?_⟩
  · refine (distinct_firsts ps).filterMap _ ?_
    intro p q hpq p' hp' q' hq'
    obtain ⟨v, -, rfl⟩ := Option.map_eq_some_iff.1 hp'
    obtain ⟨w, -, rfl⟩ := Option.map_eq_some_iff.1 hq'
    exact hpq
  · intro p hp kv hkv
    obtain ⟨q, hq, hp⟩ := List.mem_filterMap.1 hp
    obtain ⟨v, -, rfl⟩ := Option.map_eq_some_iff.1 hp
    have habsent := (List.mem_filter.1 hkv).2
    rw [Option.isNone_iff_eq_none, find?_eq_none] at habsent
    exact habsent q (mem_of_mem_firsts hq)

theorem keys_of_distinct {ps : List (κ × α)} (hd : Distinct ps) : keys ps = ps.map Prod.fst := by
  rw [keys_eq_map_firsts, firsts_of_distinct hd]

theorem map_fst_updated {kvs ps : List (κ × α)} (h : ∀ p ∈ ps, (find? kvs p.1).isSome) :
    (updated kvs ps).map Prod.fst = keys ps := by
  unfold updated
  rw [keys_eq_map_firsts, List.map_filterMap, ← List.filterMap_eq_map]
  apply List.filterMap_congr
  intro p hp
  obtain ⟨v, hv⟩ := Option.isSome_iff_exists.1 (h p (mem_of_mem_firsts hp))
  rw [hv]
  rfl

theorem keys_storeAll {kvs ps : List (κ × α)} (hd : Distinct kvs)
    (h : ∀ p ∈ ps, (find? kvs p.1).isSome) :
    keys (storeAll kvs ps) = keys ps ++ (added kvs ps).map Prod.fst := by
  rw [keys_of_distinct (distinct_storeAll hd h), storeAll_eq hd h, List.map_append,
    map_fst_updated h]

section

variable {ps qs kvs kvs' : List (κ × α)}

theorem Distinct.perm (hd : Distinct ps) (hp : ps.Perm qs) : Distinct qs :=
  hp.pairwise hd fun h => by rwa [BEq.comm]

theorem find?_perm (hd : Distinct ps) (hp : ps.Perm qs) (k : κ) : find? ps k = find? qs k := by
  cases hq : find? qs k with
  | none => exact find?_eq_none.2 fun p hmem => find?_eq_none.1 hq p (hp.mem_iff.1 hmem)
  | some v =>
    obtain ⟨p, hmem, hkey, rfl⟩ := exists_mem_firsts hq
    exact find?_of_mem hd (hp.mem_iff.2 (mem_of_mem_firsts hmem)) hkey

theorem keys_perm (hd : Distinct ps) (hp : ps.Perm qs) : (keys ps).Perm (keys qs) := by
  rw [keys_of_distinct hd, keys_of_distinct (hd.perm hp)]
  exact hp.map Prod.fst

theorem updated_perm (hd : Distinct ps) (hp : ps.Perm qs)
    (hkvs : ∀ k, find? kvs k = find? kvs' k) : (updated kvs ps).Perm (updated kvs' qs) := by
  unfold updated
  rw [firsts_of_distinct hd, firsts_of_distinct (hd.perm hp)]
  simp only [hkvs]
  exact hp.filterMap _

theorem added_perm (hd : Distinct ps) (hp : ps.Perm qs) (hkvs : kvs.Perm kvs') :
    (added kvs ps).Perm (added kvs' qs) := by
  unfold added
  simp only [find?_perm hd hp]
  exact hkvs.filter _

end

theorem find?_eq_lookup [LawfulBEq κ] (ps : List (κ × α)) (k : κ) :
    find? ps k = ps.lookup k := by
  induction ps with
  | nil => rfl
  | cons p ps ih =>
    rw [find?_cons, List.lookup_cons, ih, BEq.comm]
    cases k == p.1 <;> rfl

theorem mem_firsts_iff [LawfulBEq κ] {ps : List (κ × α)} {p : κ × α} :
    p ∈ firsts ps ↔ ps.lookup p.1 = some p.2 := by
  rw [← find?_eq_lookup]
  constructor
  · exact fun hp => find?_of_mem_firsts hp (beq_self_eq_true _)
  · intro h
    obtain ⟨⟨k, v⟩, hq, hkey, rfl⟩ := exists_mem_firsts h
    cases eq_of_beq hkey
    exact hq

end Conform.Pairs
