namespace Conform.Pairs

variable {κ α : Type} [BEq κ]

def keys (ps : List (κ × α)) : List κ :=
  ps.foldl (fun ks p => if ks.any (· == p.1) then ks else ks ++ [p.1]) []

def find? (ps : List (κ × α)) (key : κ) : Option α :=
  (ps.find? fun p => p.1 == key).map Prod.snd

def erase (key : κ) (ps : List (κ × α)) : List (κ × α) :=
  ps.filter fun p => p.1 != key

/-- Puts a value under a key, in the place of its first occurrence or at the end. Further
occurrences are removed. -/
def store (key : κ) (v : α) : List (κ × α) → List (κ × α)
  | [] => [(key, v)]
  | p :: rest => if p.1 == key then (p.1, v) :: erase key rest else p :: store key v rest

end Conform.Pairs
