import Thompson.Arena.Search

namespace Thompson

namespace Automaton

def reachable (automaton : Automaton) : Except Fault (List StateId) :=
  automaton.arena.visitFresh State.targets [automaton.entry] (.replicate _ false)

def fits (automaton : Automaton) (id : StateId) (state : State) : Bool :=
  (state.edges.isBounded || (state.edges.isEmpty && id == automaton.exit)) &&
    state.accepting == (id == automaton.exit)

def isWellFormed (automaton : Automaton) : Except Fault Bool := do
  let exit ← automaton.arena.fetch automaton.exit
  if exit.accepting && exit.edges.isEmpty then
    let places ← automaton.reachable
    return places.all fun id => (automaton.arena.state? id).any (automaton.fits id)
  else return false

end Automaton

def Arena.finish (arena : Arena) (fragment : Fragment) : Except Fault Automaton := do
  let automaton : Automaton := ⟨arena, fragment.entry, fragment.exit⟩
  if ← automaton.isWellFormed then return automaton else throw (.malformed automaton)

end Thompson
