import Thompson.Edges

namespace Thompson

structure State where
  accepting : Bool
  edges : Edges := .empty
deriving DecidableEq

namespace State

def targets (state : State) : List StateId :=
  state.edges.targets

def epsilons (state : State) : List StateId :=
  state.edges.epsilons

def addEpsilon (target : StateId) (state : State) : Except Conflict State :=
  (state.edges.addEpsilon target).map fun edges => { state with edges }

def addSymbol (symbol : Char) (target : StateId) (state : State) : Except Conflict State :=
  (state.edges.addSymbol symbol target).map fun edges => { state with edges }

def reject (state : State) : Except Conflict State :=
  .ok { state with accepting := false }

def describeWith (quote : Char → String) (state : State) : String :=
  match state.edges with
  | .empty => if state.accepting then "MATCH" else "DEAD"
  | .labelled labels =>
    Text.commaSeparated (labels.entries.map fun entry =>
      quote entry.1 ++ " => " ++ toString entry.2)
  | .epsilon targets => "ε => " ++ Text.commaSeparated (targets.map toString)

def describe (state : State) : String :=
  state.describeWith Text.quote

end State

end Thompson
