import Thompson.State

namespace Thompson

structure Arena where
  states : Array State := #[]
deriving DecidableEq

namespace Arena

def size (arena : Arena) : Nat :=
  arena.states.size

def isEmpty (arena : Arena) : Bool :=
  arena.states.isEmpty

def state? (arena : Arena) (id : StateId) : Option State :=
  arena.states[id]?

def describe (arena : Arena) : String :=
  Text.record "Builder" [("states", Text.sequence (arena.states.toList.map State.describe))]

end Arena

structure Fragment where
  entry : StateId
  exit : StateId
deriving DecidableEq

def Fragment.describe (fragment : Fragment) : String :=
  Text.record "Fragment" [("start", toString fragment.entry), ("end", toString fragment.exit)]

structure Automaton where
  arena : Arena
  entry : StateId
  exit : StateId
deriving DecidableEq

namespace Automaton

def size (automaton : Automaton) : Nat :=
  automaton.arena.size

def mark (automaton : Automaton) (id : StateId) (state : State) : String :=
  if id = automaton.entry then ">" else if state.accepting then "*" else " "

def rowWith (quote : Char → String) (automaton : Automaton) (id : StateId) (state : State) : String :=
  automaton.mark id state ++ Text.zeroPadded 6 id ++ ": " ++ state.describeWith quote

def dumpWith (quote : Char → String) (automaton : Automaton) : String :=
  "thompson::NFA(\n" ++
    String.join (automaton.arena.states.toList.mapIdx fun id state =>
      automaton.rowWith quote id state ++ "\n") ++ ")"

def dump (automaton : Automaton) : String :=
  automaton.dumpWith Text.quote

end Automaton

end Thompson
