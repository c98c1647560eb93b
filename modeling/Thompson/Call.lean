import Thompson.Rule

namespace Thompson

inductive Call where
  | create (accepting : Bool)
  | addEpsilon (source target : StateId)
  | addSymbol (source target : StateId) (symbol : Char)
  | build (rule : Rule Fragment)
deriving DecidableEq

namespace Arena

def perform (arena : Arena) : Call → Arena × Option Fault
  | .create accepting => arena.edit (.create accepting)
  | .addEpsilon source target => arena.edit (.addEpsilon source target)
  | .addSymbol source target symbol => arena.edit (.addSymbol source target symbol)
  | .build rule =>
    match arena.build rule with
    | (grown, .ok _) => (grown, none)
    | (kept, .error fault) => (kept, some fault)

/-- A call that is refused keeps what it did before, and the next one goes on from there. -/
def performAll (arena : Arena) (calls : List Call) : Arena :=
  calls.foldl (fun arena call => (arena.perform call).1) arena

end Arena

end Thompson
