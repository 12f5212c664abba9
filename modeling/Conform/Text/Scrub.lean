import Conform.Text.Alphanumeric

namespace Conform.Text

def placeholder : String := "**redacted**"

def joins (outer inner : Option Char) : Bool :=
  match outer, inner with
  | some a, some b => isWordChar a && isWordChar b
  | _, _ => false

def continuesWord (literal : List Char) (before after : Option Char) : Bool :=
  joins before literal.head? || joins after literal.getLast?

/-- Scans a message for the literal, from the left. Of an occurrence found, the next `pending`
characters are still to be passed over, copied when `keep` holds and dropped otherwise; the
search goes on after them. -/
def scan (literal : List Char) (pending : Nat) (keep : Bool) (before : Option Char) :
    List Char → List Char
  | [] => []
  | c :: rest =>
    match pending with
    | n + 1 =>
      let tail := scan literal n keep (some c) rest
      if keep then c :: tail else tail
    | 0 =>
      if literal.isPrefixOf (c :: rest) then
        let after := ((c :: rest).drop literal.length).head?
        if continuesWord literal before after then
          c :: scan literal (literal.length - 1) true (some c) rest
        else
          placeholder.toList ++ scan literal (literal.length - 1) false (some c) rest
      else
        c :: scan literal 0 true (some c) rest

/-- Replaces the standalone occurrences of a literal by the placeholder. -/
def scrub (literal message : String) : String :=
  if literal.isEmpty then message
  else String.ofList (scan literal.toList 0 true none message.toList)

end Conform.Text
