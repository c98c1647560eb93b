import Thompson.Token

namespace Thompson

inductive Expr where
  | symbol (c : Char)
  | concat (left right : Expr)
  | union (left right : Expr)
  | star (operand : Expr)
deriving DecidableEq

namespace Expr

def bracketed : Expr → List Char
  | symbol c => [c]
  | concat left right => ['('] ++ left.bracketed ++ [')', '('] ++ right.bracketed ++ [')']
  | union left right => ['('] ++ left.bracketed ++ ['|'] ++ right.bracketed ++ [')']
  | star operand => ['('] ++ operand.bracketed ++ [')', '*']

def tokens : Expr → List Token
  | symbol c => [.symbol c]
  | concat left right => left.tokens ++ right.tokens ++ [.concat]
  | union left right => left.tokens ++ right.tokens ++ [.union]
  | star operand => operand.tokens ++ [.closure]

def reversePolish (expr : Expr) : List Char :=
  expr.tokens.map Token.toChar

end Expr

end Thompson
