import Thompson.Arena

namespace Thompson

inductive Fault where
  | outOfRange (size : Nat) (id : StateId)
  | conflict (id : StateId) (why : Conflict)
  | malformed (automaton : Automaton)
deriving DecidableEq

def Fault.message : Fault → String
  | outOfRange size id => s!"index out of bounds: the len is {size} but the index is {id}"
  | conflict id why => why.message id
  | malformed automaton => "malformed Thompson NFA: " ++ automaton.dump

def Arena.fetch (arena : Arena) (id : StateId) : Except Fault State :=
  match arena.state? id with
  | some state => .ok state
  | none => .error (.outOfRange arena.size id)

end Thompson
