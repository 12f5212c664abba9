import Conform.Proofs.Text.Scrubbing

namespace Conform.Text

/-- The positions of the separators in a text of pieces with separators of a length between them.
The text starts at position `i`. -/
def seams (length i : Nat) : List (List Char) → List Nat
  | [] | [_] => []
  | piece :: next :: rest =>
    (i + piece.length) :: seams length (i + piece.length + length) (next :: rest)

theorem seams_cons_cons (length i : Nat) (c : Char) (piece : List Char)
    (rest : List (List Char)) :
    seams length i ((c :: piece) :: rest) = seams length (i + 1) (piece :: rest) := by
  cases rest with
  | nil => rfl
  | cons next rest =>
    rw [seams, seams, List.length_cons, Nat.add_comm piece.length, ← Nat.add_assoc]

theorem intercalate_of_seams_eq_nil {length i : Nat} {pieces : List (List Char)}
    (h : seams length i pieces = []) (separator separator' : List Char) :
    separator.intercalate pieces = separator'.intercalate pieces := by
  match pieces with
  | [] | [_] => simp
  | piece :: next :: rest => simp [seams] at h

/-- A replacement keeps the pieces between the occurrences that it replaces. -/
theorem Withholds.exists_pieces {literal rest out : List Char} {i : Nat} {starts : List Nat}
    (h : Withholds literal i rest starts out) :
    ∃ piece pieces, rest = literal.intercalate (piece :: pieces) ∧
      out = placeholder.toList.intercalate (piece :: pieces) ∧
      starts = seams literal.length i (piece :: pieces) := by
  induction h with
  | done => exact ⟨[], [], rfl, rfl, rfl⟩
  | @keep i c rest starts out _ ih =>
    obtain ⟨piece, pieces, rfl, rfl, rfl⟩ := ih
    refine ⟨c :: piece, pieces, ?_, ?_, (seams_cons_cons _ i c piece pieces).symm⟩
    · exact List.intercalate_cons_cons_left.symm
    · exact List.intercalate_cons_cons_left.symm
  | withhold _ ih =>
    obtain ⟨piece, pieces, rfl, rfl, rfl⟩ := ih
    exact ⟨[], piece :: pieces, by simp, by simp, rfl⟩

/-- The message and the outcome are the same pieces, with occurrences of the literal between them in
the message and the placeholder in their place in the outcome. The occurrences do not overlap and
stand alone, and one that stands alone is among them if it overlaps no other occurrence. -/
structure SamePieces (literal message outcome : List Char) (pieces : List (List Char)) : Prop where
  message_eq : message = literal.intercalate pieces
  outcome_eq : outcome = placeholder.toList.intercalate pieces
  apart : (seams literal.length 0 pieces).Pairwise fun i j => i + literal.length ≤ j
  alone : ∀ i ∈ seams literal.length 0 pieces, standsAlone literal message i = true
  complete : ∀ i, standsAlone literal message i = true →
    (∀ j, occursAt literal message j = true →
      j + literal.length ≤ i ∨ j = i ∨ i + literal.length ≤ j) →
    i ∈ seams literal.length 0 pieces

theorem samePieces_scrub {literal : String} (hliteral : literal ≠ "") (message : String) :
    ∃ pieces, SamePieces literal.toList message.toList (scrub literal message).toList pieces := by
  obtain ⟨found, hfound, hwithholds⟩ := scrub_withholds hliteral message
  obtain ⟨piece, pieces, hmessage, hout, hseams⟩ := hwithholds.exists_pieces
  refine ⟨piece :: pieces, hmessage, hout, ?_, ?_, ?_⟩
  · rw [← hseams]
    exact hfound.apart.filter _
  · intro i hi
    rw [← hseams] at hi
    exact (List.mem_filter.1 hi).2
  · intro i halone hapart
    have hmem := hfound.mem_of_apart (Nat.zero_le i) (standsAlone_iff.1 halone).1 hapart
    rw [← hseams]
    exact List.mem_filter.2 ⟨hmem, halone⟩

theorem SamePieces.outcome_eq_message {literal message outcome : List Char}
    {pieces : List (List Char)} (h : SamePieces literal message outcome pieces)
    (hcontinues : ∀ i, occursAt literal message i = true → continuesAt literal message i = true) :
    outcome = message := by
  have hnone : seams literal.length 0 pieces = [] := by
    refine List.eq_nil_iff_forall_not_mem.2 fun i hi => ?_
    obtain ⟨hoccurs, hends⟩ := standsAlone_iff.1 (h.alone i hi)
    rw [hcontinues i hoccurs] at hends
    cases hends
  rw [h.outcome_eq, h.message_eq]
  exact intercalate_of_seams_eq_nil hnone _ _

end Conform.Text

namespace Conform

open Text

/-- Nothing but the text of the value is taken out of a message, and only where it stands alone. In
particular, a message in which each occurrence of the text continues a word stays as it is. -/
theorem Value.scrub_keeps_pieces (v : Value) (message : String) :
    (∃ pieces, SamePieces v.inspect.toList message.toList (scrub v.inspect message).toList pieces) ∧
    ((∀ i, occursAt v.inspect.toList message.toList i = true →
        continuesAt v.inspect.toList message.toList i = true) →
      scrub v.inspect message = message) := by
  obtain ⟨pieces, hpieces⟩ := samePieces_scrub v.inspect_ne_empty message
  refine ⟨⟨pieces, hpieces⟩, fun hcontinues => ?_⟩
  rw [← String.toList_inj]
  exact hpieces.outcome_eq_message hcontinues

/-- A number is taken out, and the numbers that start with its digit are not. -/
example : scrub (Value.integer 1).inspect "got 1, expected one of 10..12" =
    "got **redacted**, expected one of 10..12" := by
  decide

/-- The digit occurs twice in the message, each time as the start of a longer number. -/
theorem rangeMessage_unchanged :
    (∀ i, occursAt (Value.integer 1).inspect.toList "expected one of 10..12".toList i = true →
      continuesAt (Value.integer 1).inspect.toList "expected one of 10..12".toList i = true) ∧
    scrub (Value.integer 1).inspect "expected one of 10..12" = "expected one of 10..12" := by
  have hwithin : ∀ i < 22,
      occursAt (Value.integer 1).inspect.toList "expected one of 10..12".toList i = true →
      continuesAt (Value.integer 1).inspect.toList "expected one of 10..12".toList i = true := by
    decide
  have hcontinues : ∀ i,
      occursAt (Value.integer 1).inspect.toList "expected one of 10..12".toList i = true →
      continuesAt (Value.integer 1).inspect.toList "expected one of 10..12".toList i = true :=
    fun i hi => hwithin i (lt_length_of_occursAt (by decide) hi) hi
  exact ⟨hcontinues, (Value.scrub_keeps_pieces _ _).2 hcontinues⟩

end Conform
