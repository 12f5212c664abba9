import Mathlib.Data.List.Basic
import Conform.Text.Scrub
import Conform.Value.Inspect

namespace Conform.Text

def occursAt (literal message : List Char) (i : Nat) : Bool :=
  literal.isPrefixOf (message.drop i)

def continuesAt (literal message : List Char) (i : Nat) : Bool :=
  continuesWord literal (message.take i).getLast? (message.drop (i + literal.length)).head?

def standsAlone (literal message : List Char) (i : Nat) : Bool :=
  occursAt literal message i && !continuesAt literal message i

theorem standsAlone_iff {literal message : List Char} {i : Nat} :
    standsAlone literal message i = true ↔
      occursAt literal message i = true ∧ continuesAt literal message i = false := by
  rw [standsAlone, Bool.and_eq_true, Bool.not_eq_true']

/-- A text that starts at position `i` becomes another one when the occurrences of the literal at
the positions `starts` are replaced by the placeholder. All other characters are kept. -/
inductive Withholds (literal : List Char) : Nat → List Char → List Nat → List Char → Prop where
  | done {i} : Withholds literal i [] [] []
  | keep {i c rest starts out} : Withholds literal (i + 1) rest starts out →
      Withholds literal i (c :: rest) starts (c :: out)
  | withhold {i rest starts out} : Withholds literal (i + literal.length) rest starts out →
      Withholds literal i (literal ++ rest) (i :: starts) (placeholder.toList ++ out)

theorem Withholds.keep_append {literal kept rest out : List Char} {i : Nat} {starts : List Nat}
    (h : Withholds literal (i + kept.length) rest starts out) :
    Withholds literal i (kept ++ rest) starts (kept ++ out) := by
  induction kept generalizing i with
  | nil => exact h
  | cons c kept ih =>
    refine .keep (ih ?_)
    rwa [List.length_cons, Nat.add_comm kept.length, ← Nat.add_assoc] at h

theorem Withholds.length_eq {literal rest out : List Char} {i : Nat} {starts : List Nat}
    (h : Withholds literal i rest starts out) :
    out.length + starts.length * literal.length =
      rest.length + starts.length * placeholder.length := by
  induction h with
  | done => simp
  | keep _ ih =>
    simp only [List.length_cons]
    omega
  | withhold _ ih =>
    simp only [List.length_append, List.length_cons, String.length_toList, Nat.add_mul]
    omega

/-- The occurrences found from the left, from position `start` on: none overlaps another one, and
every occurrence starts inside of one of them. -/
structure FoundFrom (literal message : List Char) (start : Nat) (found : List Nat) : Prop where
  occurs : ∀ j ∈ found, start ≤ j ∧ occursAt literal message j = true
  apart : found.Pairwise fun j k => j + literal.length ≤ k
  covers : ∀ i, start ≤ i → occursAt literal message i = true →
    ∃ j ∈ found, j ≤ i ∧ i < j + literal.length

section

variable {literal message : List Char} {start i : Nat} {found : List Nat}

theorem occursAt_iff : occursAt literal message i = true ↔
    message.drop i = literal ++ message.drop (i + literal.length) := by
  rw [occursAt, List.isPrefixOf_iff_prefix, ← List.drop_drop]
  constructor
  · exact fun h => (List.prefix_iff_eq_append.1 h).symm
  · exact fun h => ⟨_, h.symm⟩

theorem lt_length_of_occursAt (hliteral : literal ≠ []) (h : occursAt literal message i = true) :
    i < message.length := by
  by_contra hlength
  have hdrop : message.drop i = [] := List.drop_eq_nil_of_le (Nat.le_of_not_lt hlength)
  rw [occursAt_iff, hdrop] at h
  exact hliteral (List.append_eq_nil_iff.1 h.symm).1

namespace FoundFrom

theorem nil (hliteral : literal ≠ []) (hstart : message.length ≤ start) :
    FoundFrom literal message start [] where
  occurs := by simp
  apart := .nil
  covers i hi h := by
    have := lt_length_of_occursAt hliteral h
    omega

theorem skip (h : FoundFrom literal message (start + 1) found)
    (hstart : occursAt literal message start = false) : FoundFrom literal message start found where
  occurs j hj := ⟨Nat.le_of_succ_le (h.occurs j hj).1, (h.occurs j hj).2⟩
  apart := h.apart
  covers i hi hoccurs := by
    have hne : start ≠ i := by
      rintro rfl
      rw [hstart] at hoccurs
      cases hoccurs
    exact h.covers i (by omega) hoccurs

theorem cons (h : FoundFrom literal message (start + literal.length) found)
    (hstart : occursAt literal message start = true) :
    FoundFrom literal message start (start :: found) where
  occurs := by
    refine List.forall_mem_cons.2 ⟨⟨Nat.le_refl _, hstart⟩, fun j hj => ?_⟩
    have := (h.occurs j hj).1
    exact ⟨by omega, (h.occurs j hj).2⟩
  apart := List.pairwise_cons.2 ⟨fun j hj => (h.occurs j hj).1, h.apart⟩
  covers i hi hoccurs := by
    rcases Nat.lt_or_ge i (start + literal.length) with hlt | hge
    · exact ⟨start, by simp, hi, hlt⟩
    · obtain ⟨j, hj, hji⟩ := h.covers i hge hoccurs
      exact ⟨j, List.mem_cons_of_mem _ hj, hji⟩

theorem mem_of_apart (h : FoundFrom literal message start found) (hi : start ≤ i)
    (hoccurs : occursAt literal message i = true)
    (hapart : ∀ j, occursAt literal message j = true →
      j + literal.length ≤ i ∨ j = i ∨ i + literal.length ≤ j) : i ∈ found := by
  obtain ⟨j, hj, hji, hij⟩ := h.covers i hi hoccurs
  rcases hapart j (h.occurs j hj).2 with hbefore | rfl | hafter
  · omega
  · exact hj
  · omega

end FoundFrom

end

section

variable {literal : List Char}

theorem scan_keep (keep : Bool) (before : Option Char) (rest : List Char) :
    scan literal 0 keep before rest = scan literal 0 true before rest := by
  cases rest <;> simp only [scan]

theorem scan_passed (keep : Bool) (before : Option Char) (passed rest : List Char) :
    scan literal passed.length keep before (passed ++ rest) =
      (if keep then passed else []) ++ scan literal 0 true (passed.getLast?.or before) rest := by
  induction passed generalizing before with
  | nil => simpa using scan_keep keep before rest
  | cons c passed ih =>
    have hlast : (c :: passed).getLast?.or before = passed.getLast?.or (some c) := by
      rw [List.getLast?_cons]
      cases passed.getLast? <;> rfl
    rw [List.length_cons, List.cons_append, scan, ih, hlast]
    cases keep <;> rfl

theorem scan_occurrence (hliteral : literal ≠ []) (before : Option Char) (rest : List Char) :
    scan literal 0 true before (literal ++ rest) =
      (if continuesWord literal before rest.head? then literal else placeholder.toList) ++
        scan literal 0 true literal.getLast? rest := by
  obtain ⟨c, tail, rfl⟩ := List.exists_cons_of_ne_nil hliteral
  have hfound : (c :: tail).isPrefixOf (c :: (tail ++ rest)) = true := by simp
  have hrest : ((c :: (tail ++ rest)).drop (c :: tail).length).head? = rest.head? := by simp
  have hlast : (c :: tail).getLast? = tail.getLast?.or (some c) := by
    rw [List.getLast?_cons]
    cases tail.getLast? <;> rfl
  rw [List.cons_append, scan, if_pos hfound, hrest, hlast]
  dsimp only
  rw [List.length_cons, Nat.add_sub_cancel, scan_passed, scan_passed]
  split <;> simp

theorem scan_other {c : Char} {rest : List Char} (h : literal.isPrefixOf (c :: rest) = false)
    (before : Option Char) :
    scan literal 0 true before (c :: rest) = c :: scan literal 0 true (some c) rest := by
  rw [scan, h]
  rfl

/-- The scan of a message from a position on withholds what it finds and what stands alone. -/
theorem exists_found (hliteral : literal ≠ []) (message : List Char) (start : Nat) :
    ∃ found, FoundFrom literal message start found ∧
      Withholds literal start (message.drop start) (found.filter (standsAlone literal message))
        (scan literal 0 true (message.take start).getLast? (message.drop start)) := by
  -- The part that is left is shorter by the literal or by one character in every step.
  induction hn : message.length - start using Nat.strongRecOn generalizing start with
  | _ n ih =>
    cases hrest : message.drop start with
    | nil => exact ⟨[], .nil hliteral (List.drop_eq_nil_iff.1 hrest), .done⟩
    | cons c rest =>
      have hlt : start < message.length := by
        by_contra hge
        rw [List.drop_eq_nil_of_le (Nat.le_of_not_lt hge)] at hrest
        cases hrest
      have hpos : 0 < literal.length := List.length_pos_iff.2 hliteral
      cases hoccurs : occursAt literal message start with
      | true =>
        have hsplit := occursAt_iff.1 hoccurs
        have hlast : (message.take (start + literal.length)).getLast? = literal.getLast? := by
          rw [List.take_add, hsplit, List.take_left, List.getLast?_append_of_ne_nil _ hliteral]
        obtain ⟨found, hfound, hwithholds⟩ := ih _ (by omega) (start + literal.length) rfl
        refine ⟨start :: found, hfound.cons hoccurs, ?_⟩
        have hscan : scan literal 0 true (message.take start).getLast? (message.drop start) =
            (if continuesAt literal message start then literal else placeholder.toList) ++
              scan literal 0 true literal.getLast? (message.drop (start + literal.length)) := by
          rw [hsplit]
          exact scan_occurrence hliteral _ _
        rw [hlast] at hwithholds
        rw [← hrest, hscan, hsplit, List.filter_cons, standsAlone, hoccurs]
        cases continuesAt literal message start with
        | true => exact hwithholds.keep_append
        | false => exact .withhold hwithholds
      | false =>
        obtain ⟨found, hfound, hwithholds⟩ := ih _ (by omega) (start + 1) rfl
        refine ⟨found, hfound.skip hoccurs, ?_⟩
        have hother : literal.isPrefixOf (c :: rest) = false := by
          rw [← hrest]
          exact hoccurs
        have hlast : (message.take (start + 1)).getLast? = some c := by
          rw [List.take_add, hrest]
          simp
        have htail : message.drop (start + 1) = rest := by
          rw [← List.drop_drop, hrest]
          rfl
        rw [hlast, htail] at hwithholds
        rw [scan_other hother]
        exact .keep hwithholds

theorem scrub_withholds {literal : String} (hliteral : literal ≠ "") (message : String) :
    ∃ found, FoundFrom literal.toList message.toList 0 found ∧
      Withholds literal.toList 0 message.toList
        (found.filter (standsAlone literal.toList message.toList))
        (scrub literal message).toList := by
  have hempty : literal.isEmpty = false := by simpa using hliteral
  have hnil : literal.toList ≠ [] := by simpa using hliteral
  obtain ⟨found, hfound, hwithholds⟩ := exists_found hnil message.toList 0
  exact ⟨found, hfound, by simpa [scrub, hempty] using hwithholds⟩

end

end Conform.Text

namespace Conform

open Text

theorem Number.Layout.text_ne_empty (x : Binary64) : Layout.inspect.text x ≠ "" := by
  cases x with
  | nan => decide
  | infinite negative => cases negative <;> decide
  | finite negative m e h =>
    have hpositional : ∀ d, positionalText d ≠ "" := by
      intro d
      unfold positionalText
      dsimp only
      split
      · simp
      · split <;> simp
    have hscientific : ∀ d, scientificText Layout.inspect.plus d ≠ "" := by
      intro d
      simp [scientificText]
    intro hempty
    have hbody := (String.append_eq_empty_iff.1 hempty).2
    split at hbody
    · exact hpositional _ hbody
    · exact hscientific _ hbody

theorem Value.inspect_ne_empty (v : Value) : v.inspect ≠ "" := by
  cases v with
  | nil => decide
  | bool b => cases b <;> decide
  | integer n =>
    rw [inspect, Int.toString_eq_repr]
    cases n.toInt with
    | ofNat m => exact Nat.repr_ne_empty
    | negSucc m => simp [Int.repr]
  | float x =>
    rw [inspect]
    exact Number.Layout.text_ne_empty x
  | pid id => simp [inspect, toString]
  | ref id => simp [inspect, toString]
  | function f => simp [inspect, Function.inspect, toString]
  | _ => simp [inspect, Text.quoted, Text.bracketed, Text.braced]

/-- The text of a value is withheld wherever it is found and stands alone. What is found are
occurrences that follow one another from the left and do not overlap. An occurrence that stands
alone overlaps one that is withheld, unless it starts inside one that is found and continues a
word. -/
theorem Value.withheld_or_continues (v : Value) (message : String) :
    ∃ found, FoundFrom v.inspect.toList message.toList 0 found ∧
      Withholds v.inspect.toList 0 message.toList
        (found.filter (standsAlone v.inspect.toList message.toList))
        (scrub v.inspect message).toList ∧
      ∀ i, standsAlone v.inspect.toList message.toList i = true →
        (∃ j ∈ found, standsAlone v.inspect.toList message.toList j = true ∧
          j ≤ i ∧ i < j + v.inspect.length) ∨
        ∃ j ∈ found, continuesAt v.inspect.toList message.toList j = true ∧
          j < i ∧ i < j + v.inspect.length := by
  have hempty : v.inspect.isEmpty = false := by simpa using v.inspect_ne_empty
  have hliteral : v.inspect.toList ≠ [] := by simpa using v.inspect_ne_empty
  obtain ⟨found, hfound, hwithholds⟩ := exists_found hliteral message.toList 0
  refine ⟨found, hfound, ?_, fun i hi => ?_⟩
  · simpa [scrub, hempty] using hwithholds
  · rw [standsAlone, Bool.and_eq_true, Bool.not_eq_true'] at hi
    obtain ⟨j, hj, hji, hij⟩ := hfound.covers i (Nat.zero_le i) hi.1
    rw [String.length_toList] at hij
    cases hcontinues : continuesAt v.inspect.toList message.toList j with
    | false =>
      refine .inl ⟨j, hj, ?_, hji, hij⟩
      rw [standsAlone, (hfound.occurs j hj).2, hcontinues]
      rfl
    | true =>
      have hne : j ≠ i := by
        rintro rfl
        rw [hi.2] at hcontinues
        cases hcontinues
      exact .inr ⟨j, hj, hcontinues, by omega, hij⟩

/-- A region whose name starts the way it ends. -/
def regionAlias : Value := .atom "eu1:eu"

/-- The name of the region stands at the end of the message, inside of an occurrence that continues
a word, and is shown. -/
theorem regionAlias_shown :
    ¬∃ starts, Withholds regionAlias.inspect.toList 0 "no route :eu1:eu1:eu".toList starts
        (scrub regionAlias.inspect "no route :eu1:eu1:eu").toList ∧
      ∀ i, standsAlone regionAlias.inspect.toList "no route :eu1:eu1:eu".toList i = true →
        ∃ j ∈ starts, j < i + regionAlias.inspect.length ∧ i < j + regionAlias.inspect.length := by
  have hkept : scrub regionAlias.inspect "no route :eu1:eu1:eu" = "no route :eu1:eu1:eu" := by
    decide
  have halone : standsAlone regionAlias.inspect.toList "no route :eu1:eu1:eu".toList 13 = true := by
    decide
  have hshort : regionAlias.inspect.toList.length = 7 := by decide
  have hlong : placeholder.length = 12 := by decide
  rintro ⟨starts, hwithholds, hcovers⟩
  have hlength := hwithholds.length_eq
  rw [hkept, hshort, hlong] at hlength
  have hnone : starts = [] := List.length_eq_zero_iff.1 (by omega)
  obtain ⟨j, hj, -⟩ := hcovers 13 halone
  simp [hnone] at hj

end Conform
