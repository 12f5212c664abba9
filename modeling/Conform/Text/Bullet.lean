namespace Conform.Text

/-- The lines of a text. A line ends at a line feed, with or without a carriage return before it;
the last line needs no end. -/
def lines : List Char → List (List Char)
  | [] => []
  | '\n' :: rest => [] :: lines rest
  | '\r' :: '\n' :: rest => [] :: lines rest
  | c :: rest =>
    match lines rest with
    | [] => [[c]]
    | line :: more => (c :: line) :: more

/-- A line that continues an item stands under the item's text; an empty one stays empty. -/
def indented (line : List Char) : List Char :=
  if line.isEmpty then [] else [' ', ' ', ' ', ' '] ++ line

def bullet (text : String) : String :=
  let ls := lines text.toList
  String.ofList ([' ', ' ', '*', ' '] ++ ls.headD [] ++
    ls.tail.flatMap fun line => '\n' :: indented line)

def bullets (texts : List String) : String :=
  "\n".intercalate (texts.map bullet)

end Conform.Text
