import Thompson.Arena.Edit

namespace Thompson

/-- Operands are fragments where a rule is carried out, or whatever else stands for them. -/
inductive Rule (α : Type) where
  | empty
  | symbol (c : Char)
  | concat (first second : α)
  | union (first second : α)
  | closure (operand : α)
deriving DecidableEq

namespace Rule

def edits (size : Nat) : Rule Fragment → List Edit
  | empty => [.create false, .create true, .addEpsilon size (size + 1)]
  | symbol c => [.create false, .create true, .addSymbol size (size + 1) c]
  | concat first second => [.addEpsilon first.exit second.entry, .reject first.exit]
  | union first second =>
    [.create false, .addEpsilon size first.entry, .addEpsilon size second.entry, .create true,
      .addEpsilon first.exit (size + 1), .reject first.exit,
      .addEpsilon second.exit (size + 1), .reject second.exit]
  | closure operand =>
    [.create false, .create true, .addEpsilon size (size + 1), .addEpsilon size operand.entry,
      .addEpsilon operand.exit (size + 1), .addEpsilon operand.exit operand.entry,
      .reject operand.exit]

def fragment (size : Nat) : Rule Fragment → Fragment
  | concat first second => ⟨first.entry, second.exit⟩
  | empty | symbol _ | union _ _ | closure _ => ⟨size, size + 1⟩

end Rule

def Arena.build (arena : Arena) (rule : Rule Fragment) : Arena × Except Fault Fragment :=
  let size := arena.size
  match arena.editAll (rule.edits size) with
  | (grown, none) => (grown, .ok (rule.fragment size))
  | (kept, some fault) => (kept, .error fault)

end Thompson
