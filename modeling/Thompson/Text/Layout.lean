namespace Thompson.Text

def commaSeparated (items : List String) : String :=
  ", ".intercalate items

def sequence (items : List String) : String :=
  "[" ++ commaSeparated items ++ "]"

def call (name argument : String) : String :=
  name ++ "(" ++ argument ++ ")"

def optional : Option String → String
  | none => "None"
  | some value => call "Some" value

def record (name : String) (fields : List (String × String)) : String :=
  name ++ " \x7b " ++ commaSeparated (fields.map fun field => field.1 ++ ": " ++ field.2) ++ " \x7d"

def zeroPadded (width n : Nat) : String :=
  String.ofList ((Nat.toDigits 10 n).leftpad width '0')

end Thompson.Text
