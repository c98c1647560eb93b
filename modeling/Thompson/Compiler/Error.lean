import Thompson.Text.Layout
import Thompson.Text.Quoted

namespace Thompson

/-- Positions count tokens from zero. -/
inductive CompileError where
  | missingOperand (operator : Char) (position needed found : Nat)
  | danglingOperands (remaining : Nat)
  | tooBig (limit : Nat)
deriving DecidableEq

namespace CompileError

def isMalformed : CompileError → Bool
  | missingOperand .. | danglingOperands _ => true
  | tooBig _ => false

def message : CompileError → String
  | missingOperand operator position needed found =>
    s!"operator '{operator}' at position {position} needs {needed} operand(s) " ++
      s!"but only {found} available"
  | danglingOperands remaining =>
    s!"postfix expression left {remaining} operands on the stack, expected exactly one"
  | tooBig limit => s!"compiled NFA exceeds the size limit of {limit} states"

def describe : CompileError → String
  | missingOperand operator position needed found =>
    Text.record "MissingOperand" [("operator", Text.quote operator),
      ("position", toString position), ("needed", toString needed), ("found", toString found)]
  | danglingOperands remaining =>
    Text.record "DanglingOperands" [("remaining", toString remaining)]
  | tooBig limit => Text.record "TooBig" [("limit", toString limit)]

end CompileError

end Thompson
