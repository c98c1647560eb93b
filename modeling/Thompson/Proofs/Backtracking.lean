import Thompson.Proofs.Construction

namespace Thompson

/-- Pending places come with the number of symbols read on the way there. Nothing is remembered of
the places that were seen before. -/
structure Exploration where
  pending : List (StateId × Nat)
  found : List Nat
deriving DecidableEq

def Edges.branches (text : List Char) (position : Nat) : Edges → List (StateId × Nat)
  | empty => []
  | labelled labels => (text[position]?.bind labels.get?).toList.map (·, position + 1)
  | epsilon targets => targets.map (·, position)

namespace Automaton

def step (automaton : Automaton) (text : List Char) : Exploration → Except Fault Exploration
  | ⟨[], found⟩ => .ok ⟨[], found⟩
  | ⟨(id, position) :: rest, found⟩ =>
    if id = automaton.exit then .ok ⟨rest, found ++ [position]⟩
    else do
      let state ← automaton.arena.fetch id
      return ⟨state.edges.branches text position ++ rest, found⟩

def steps (automaton : Automaton) (text : List Char) :
    Nat → Exploration → Except Fault Exploration
  | 0, exploration => .ok exploration
  | n + 1, exploration => do automaton.steps text n (← automaton.step text exploration)

def explore (automaton : Automaton) (text : List Char) (n : Nat) : Except Fault Exploration :=
  automaton.steps text n ⟨[(automaton.entry, 0)], []⟩

variable {automaton : Automaton} {text : List Char} {pending more : List (StateId × Nat)}
  {positions others : List Nat} {id : StateId} {position : Nat}

theorem steps_add {m n : Nat} {before between after : Exploration}
    (first : automaton.steps text m before = .ok between)
    (second : automaton.steps text n between = .ok after) :
    automaton.steps text (m + n) before = .ok after := by
  induction m generalizing before with
  | zero =>
    cases first
    rwa [Nat.zero_add]
  | succ m ih =>
    rw [Nat.add_right_comm]
    simp only [steps] at first ⊢
    cases next : automaton.step text before with
    | error fault =>
      rw [next] at first
      cases first
    | ok exploration =>
      rw [next] at first
      exact ih first

/-- With nothing pending there is nothing left to do. -/
theorem steps_done (n : Nat) (found : List Nat) :
    automaton.steps text n ⟨[], found⟩ = .ok ⟨[], found⟩ := by
  induction n with
  | zero => rfl
  | succ n ih => exact ih

/-- What is pending gives the positions, whatever waits behind it. -/
def Yields (automaton : Automaton) (text : List Char) (pending : List (StateId × Nat))
    (positions : List Nat) : Prop :=
  ∃ n, ∀ rest found, automaton.steps text n ⟨pending ++ rest, found⟩ = .ok ⟨rest, found ++ positions⟩

theorem Yields.nil : automaton.Yields text [] [] :=
  ⟨0, fun rest found => by rw [List.append_nil]; rfl⟩

/-- What waits is explored from where the first part has ended, and its positions come behind. -/
theorem Yields.append (h : automaton.Yields text pending positions)
    (h' : automaton.Yields text more others) :
    automaton.Yields text (pending ++ more) (positions ++ others) := by
  obtain ⟨m, first⟩ := h
  obtain ⟨n, second⟩ := h'
  refine ⟨m + n, fun rest found => ?_⟩
  rw [List.append_assoc, ← List.append_assoc found]
  exact steps_add (first _ _) (second _ _)

theorem yields_exit (position : Nat) :
    automaton.Yields text [(automaton.exit, position)] [position] := by
  refine ⟨1, fun rest found => ?_⟩
  simp only [List.singleton_append, steps, step, if_pos]
  rfl

/-- A state of an automaton with an open exit is explored through its edges, if it has any. -/
theorem Yields.edges {state : State} (opened : automaton.Open)
    (found : automaton.arena.state? id = some state) (leaves : state.edges ≠ .empty)
    (h : automaton.Yields text (state.edges.branches text position) positions) :
    automaton.Yields text [(id, position)] positions := by
  obtain ⟨n, explored⟩ := h
  have ne : id ≠ automaton.exit := by
    rintro rfl
    cases Option.some.inj (opened.symm.trans found)
    exact leaves rfl
  refine ⟨n + 1, fun rest before => ?_⟩
  simp only [List.singleton_append, steps, step, if_neg ne, Arena.fetch, found, except_ok_bind]
  exact explored rest before

theorem Yields.epsilon {accepting : Bool} {targets : List StateId} (opened : automaton.Open)
    (found : automaton.arena.state? id = some ⟨accepting, .epsilon targets⟩)
    (h : automaton.Yields text (targets.map (·, position)) positions) :
    automaton.Yields text [(id, position)] positions :=
  .edges opened found (fun empty => by cases empty) h

end Automaton

end Thompson
