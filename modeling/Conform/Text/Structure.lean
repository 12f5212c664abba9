namespace Conform.Text

def separated (items : List String) : String :=
  ", ".intercalate items

def bracketed (items : List String) : String :=
  "[" ++ separated items ++ "]"

def braced (items : List String) : String :=
  "\x7b" ++ separated items ++ "\x7d"

def tagged (kind content : String) : String :=
  kind ++ "(" ++ content ++ ")"

def record (kind : String) (fields : List (String × String)) : String :=
  kind ++ " \x7b " ++ separated (fields.map fun field => field.1 ++ ": " ++ field.2) ++ " \x7d"

end Conform.Text
