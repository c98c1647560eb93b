import Thompson.Arena.Search

namespace Thompson.Automaton

def closure (automaton : Automaton) (places : List StateId) : Except Fault (List StateId) :=
  automaton.arena.search State.epsilons places

def next (automaton : Automaton) (symbol : Char) (id : StateId) : Option StateId :=
  (automaton.arena.state? id).bind (·.edges.next symbol)

/-- Once no place is left, what is left of the text is not read. -/
def read (automaton : Automaton) : List StateId → List Char → Except Fault (List StateId)
  | live, [] => .ok live
  | live, symbol :: rest => do
    let moved ← automaton.closure (live.filterMap (automaton.next symbol))
    if moved.isEmpty then return [] else automaton.read moved rest

def isAccepting (automaton : Automaton) (id : StateId) : Bool :=
  (automaton.arena.state? id).any State.accepting

def accepts (automaton : Automaton) (text : List Char) : Except Fault Bool := do
  let live ← automaton.read (← automaton.closure [automaton.entry]) text
  return live.any automaton.isAccepting

end Thompson.Automaton
