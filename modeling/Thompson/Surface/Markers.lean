namespace Thompson.Surface

def endsOperand (c : Char) : Bool :=
  c != '(' && c != '|'

def startsOperand (c : Char) : Bool :=
  c != '*' && c != '|' && c != ')'

/-- A dot that is there already counts as an operand. -/
def mark : List Char → List Char
  | [] => []
  | [last] => [last]
  | c :: d :: rest =>
    if endsOperand c && startsOperand d then c :: '.' :: mark (d :: rest) else c :: mark (d :: rest)

end Thompson.Surface
