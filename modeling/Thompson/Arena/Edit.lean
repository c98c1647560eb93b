import Thompson.Fault

namespace Thompson

inductive Edit where
  | create (accepting : Bool)
  | addEpsilon (source target : StateId)
  | addSymbol (source target : StateId) (symbol : Char)
  | reject (id : StateId)
deriving DecidableEq

namespace Arena

def update (arena : Arena) (id : StateId) (change : State → Except Conflict State) :
    Arena × Option Fault :=
  match arena.fetch id with
  | .error fault => (arena, some fault)
  | .ok state =>
    match change state with
    | .error why => (arena, some (.conflict id why))
    | .ok changed => (⟨arena.states.setIfInBounds id changed⟩, none)

/-- An edge needs its source to exist, but not yet its target. -/
def edit (arena : Arena) : Edit → Arena × Option Fault
  | .create accepting => (⟨arena.states.push { accepting }⟩, none)
  | .addEpsilon source target => arena.update source (State.addEpsilon target)
  | .addSymbol source target symbol => arena.update source (State.addSymbol symbol target)
  | .reject id => arena.update id State.reject

def editAll (arena : Arena) : List Edit → Arena × Option Fault
  | [] => (arena, none)
  | change :: rest =>
    match arena.edit change with
    | (changed, none) => changed.editAll rest
    | (kept, some fault) => (kept, some fault)

/-- What was refused is not written, whether the place was missing or the change impossible
there. -/
theorem update_of_fault {arena : Arena} {id : StateId} {change : State → Except Conflict State}
    {fault : Fault} (h : (arena.update id change).2 = some fault) :
    (arena.update id change).1 = arena := by
  revert h
  unfold update
  split
  · simp
  · split <;> simp

theorem size_update (arena : Arena) (id : StateId) (change : State → Except Conflict State) :
    (arena.update id change).1.size = arena.size := by
  unfold update
  split
  · rfl
  · split
    · rfl
    · simp [size]

theorem update_of_ok {arena : Arena} {id : StateId} {change : State → Except Conflict State}
    {state changed : State} (found : arena.state? id = some state)
    (ok : change state = .ok changed) :
    arena.update id change = (⟨arena.states.setIfInBounds id changed⟩, none) := by
  simp [update, fetch, found, ok]

/-- A refused change leaves no trace. -/
theorem edit_of_fault {arena : Arena} {change : Edit} {fault : Fault}
    (h : (arena.edit change).2 = some fault) : (arena.edit change).1 = arena := by
  cases change with
  | create accepting => cases h
  | addEpsilon source target => exact update_of_fault h
  | addSymbol source target symbol => exact update_of_fault h
  | reject id => exact update_of_fault h

theorem size_le_size_edit (arena : Arena) (change : Edit) :
    arena.size ≤ (arena.edit change).1.size := by
  cases change with
  | create accepting => simp [edit, size]
  | addEpsilon source target => exact Nat.le_of_eq (size_update ..).symm
  | addSymbol source target symbol => exact Nat.le_of_eq (size_update ..).symm
  | reject id => exact Nat.le_of_eq (size_update ..).symm

/-- No change takes a state away, even in a run that is broken off, so that places stay valid. -/
theorem size_le_size_editAll (arena : Arena) (changes : List Edit) :
    arena.size ≤ (arena.editAll changes).1.size := by
  induction changes generalizing arena with
  | nil => exact Nat.le_refl _
  | cons change rest ih =>
    have step := arena.size_le_size_edit change
    unfold editAll
    split
    · rename_i changed h
      rw [h] at step
      exact Nat.le_trans step (ih changed)
    · rename_i kept fault h
      rwa [h] at step

end Arena

end Thompson
