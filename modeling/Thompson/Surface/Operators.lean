namespace Thompson.Surface

def precedence : Char → Nat
  | '.' => 2
  | '|' => 1
  | _ => 0

def goesBefore (operator waiting : Char) : Bool :=
  waiting != '(' && precedence operator ≤ precedence waiting

/-- A group that is never closed is written out, and a group end without a start takes everything
off the stack. -/
def shunt (stack : List Char) : List Char → List Char
  | [] => stack
  | '(' :: rest => shunt ('(' :: stack) rest
  | ')' :: rest =>
    stack.takeWhile (· != '(') ++ shunt ((stack.dropWhile (· != '(')).drop 1) rest
  | c :: rest =>
    if c = '.' ∨ c = '|' then
      stack.takeWhile (goesBefore c) ++ shunt (c :: stack.dropWhile (goesBefore c)) rest
    else c :: shunt stack rest

def reversePolish (marked : List Char) : List Char :=
  shunt [] marked

end Thompson.Surface
