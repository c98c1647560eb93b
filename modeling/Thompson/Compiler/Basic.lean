import Thompson.Text.Layout

namespace Thompson

structure Compiler where
  sizeLimit : Option Nat := none
deriving DecidableEq

namespace Compiler

def exceeded? (compiler : Compiler) (size : Nat) : Option Nat :=
  compiler.sizeLimit.filter (· < size)

/-- The limit itself is still allowed. -/
theorem exceeded?_eq_some_iff {compiler : Compiler} {size limit : Nat} :
    compiler.exceeded? size = some limit ↔ compiler.sizeLimit = some limit ∧ limit < size := by
  simp [exceeded?, Option.filter_eq_some_iff]

def describeSettings (compiler : Compiler) : String :=
  Text.record "Config" [("nfa_size_limit", Text.optional (compiler.sizeLimit.map toString))]

def describe (compiler : Compiler) : String :=
  Text.record "Compiler" [("config", compiler.describeSettings)]

end Compiler

end Thompson
