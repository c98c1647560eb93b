import Thompson.Labels
import Thompson.Text.Layout
import Thompson.Text.Quoted

namespace Thompson

inductive Conflict where
  | epsilonsFull
  | labelsPresent
  | labelTaken (symbol : Char)
  | epsilonsPresent (symbol : Char)
deriving DecidableEq

def Conflict.message (id : StateId) : Conflict → String
  | .epsilonsFull => s!"state {id} already has two epsilon transitions"
  | .labelsPresent => s!"state {id} has symbol transitions, cannot add an epsilon transition"
  | .labelTaken symbol => s!"state {id} already has a transition on {Text.quote symbol}"
  | .epsilonsPresent symbol =>
    s!"state {id} has epsilon transitions, cannot add a transition on {Text.quote symbol}"

/-- The targets of silent edges stand in the order of their priority. -/
inductive Edges where
  | empty
  | labelled (labels : Labels)
  | epsilon (targets : List StateId)
deriving DecidableEq

namespace Edges

def isEmpty : Edges → Bool
  | empty => true
  | labelled _ | epsilon _ => false

def next (symbol : Char) : Edges → Option StateId
  | labelled labels => labels.get? symbol
  | empty | epsilon _ => none

def epsilons : Edges → List StateId
  | epsilon targets => targets
  | empty | labelled _ => []

def targets : Edges → List StateId
  | empty => []
  | labelled labels => labels.targets
  | epsilon targets => targets

def addEpsilon (target : StateId) : Edges → Except Conflict Edges
  | empty => .ok (epsilon [target])
  | epsilon targets =>
    if targets.length < 2 then .ok (epsilon (targets ++ [target])) else .error .epsilonsFull
  | labelled _ => .error .labelsPresent

def addSymbol (symbol : Char) (target : StateId) : Edges → Except Conflict Edges
  | empty => .ok (labelled (Labels.empty.insert symbol target))
  | labelled labels =>
    if labels.contains symbol then .error (.labelTaken symbol)
    else .ok (labelled (labels.insert symbol target))
  | epsilon _ => .error (.epsilonsPresent symbol)

def isBounded : Edges → Bool
  | empty => false
  | labelled labels => !labels.entries.isEmpty
  | epsilon targets => 0 < targets.length && targets.length ≤ 2

def describe : Edges → String
  | empty => "None"
  | labelled labels =>
    Text.call "Symbol" ("\x7b" ++ Text.commaSeparated (labels.entries.map fun entry =>
      Text.quote entry.1 ++ ": " ++ toString entry.2) ++ "\x7d")
  | epsilon targets => Text.call "Epsilon" (Text.sequence (targets.map toString))

/-- A silent edge comes after the ones that are there, as the last in priority. -/
theorem eq_of_addEpsilon {edges grown : Edges} {target : StateId}
    (h : edges.addEpsilon target = .ok grown) : grown = epsilon (edges.epsilons ++ [target]) := by
  cases edges with
  | empty => exact (Except.ok.inj h).symm
  | labelled labels => cases h
  | epsilon targets =>
    simp only [addEpsilon] at h
    split at h
    · exact (Except.ok.inj h).symm
    · cases h

/-- A new edge changes what its own symbol leads to and nothing else. -/
theorem next_of_addSymbol {edges grown : Edges} {symbol : Char} {target : StateId}
    (h : edges.addSymbol symbol target = .ok grown) (c : Char) :
    grown.next c = if c = symbol then some target else edges.next c := by
  cases edges with
  | empty =>
    cases h
    exact Labels.get?_insert ..
  | epsilon targets => cases h
  | labelled labels =>
    simp only [addSymbol] at h
    split at h
    · cases h
    · cases h
      exact Labels.get?_insert ..

end Edges

end Thompson
