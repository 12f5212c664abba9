namespace Conform.Text

/-- Whether `n` lies in one of the ranges. They are sorted, so the search stops at the first
range that starts above `n`. -/
def inRanges (n : Nat) : List (Nat × Nat) → Bool
  | [] => false
  | (low, high) :: rest => low ≤ n && (n ≤ high || inRanges n rest)

end Conform.Text
