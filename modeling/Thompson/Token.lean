import Thompson.Rule

namespace Thompson

inductive Token where
  | symbol (c : Char)
  | closure
  | union
  | concat
deriving DecidableEq

namespace Token

def ofChar : Char → Token
  | '*' => closure
  | '|' => union
  | '.' => concat
  | c => symbol c

def toChar : Token → Char
  | symbol c => c
  | closure => '*'
  | union => '|'
  | concat => '.'

def arity : Token → Nat
  | symbol _ => 0
  | closure => 1
  | union | concat => 2

def describe : Token → String
  | symbol c => Text.call "Symbol" (Text.quote c)
  | closure => "Closure"
  | union => "Union"
  | concat => "Concat"

/-- The top of the stack is the last operand. What the token does not take is handed back. -/
def rule? {α : Type} : Token → List α → Option (Rule α × List α)
  | symbol c, stack => some (.symbol c, stack)
  | closure, operand :: rest => some (.closure operand, rest)
  | union, right :: left :: rest => some (.union left right, rest)
  | concat, right :: left :: rest => some (.concat left right, rest)
  | closure, [] | union, [] | union, [_] | concat, [] | concat, [_] => none

@[simp] theorem toChar_ofChar (c : Char) : (ofChar c).toChar = c := by
  unfold ofChar
  split <;> rfl

/-- A token has a rule exactly where the stack holds as many operands as it takes. -/
theorem rule?_isSome_iff {α : Type} (token : Token) (stack : List α) :
    (token.rule? stack).isSome ↔ token.arity ≤ stack.length := by
  cases token <;> rcases stack with _ | ⟨_, _ | ⟨_, _⟩⟩ <;> simp [rule?, arity]

end Token

end Thompson
