import Thompson.Fault

namespace Thompson.Arena

/-- Marking a place that was unseen leaves fewer unseen ones, so that a search ends. -/
theorem count_unseen_set_lt {n id : Nat} {seen : Vector Bool n} (h : id < n) (unseen : ¬seen[id]) :
    (seen.set id true).count false < seen.count false := by
  have here : seen[id] = false := by simpa using unseen
  have : 0 < seen.count false := Vector.count_pos_iff.mpr (Vector.mem_of_getElem here)
  rw [Vector.count_set h, here]
  change seen.count false - 1 + 0 < seen.count false
  omega

/-- The places that `pending` leads to and that are not seen yet. Every target of a state has to
exist, and the last one that does not is the one named. -/
def visit (arena : Arena) (next : State → List StateId) (pending : List StateId)
    (seen : Vector Bool arena.states.size) : Except Fault (List StateId) :=
  match pending with
  | [] => .ok []
  | id :: rest =>
    if h : id < arena.states.size then
      if unseen : ¬seen[id] then
        let targets := next arena.states[id]
        match targets.reverse.find? (arena.size ≤ ·) with
        | some missing => .error (.outOfRange arena.size missing)
        | none => (arena.visit next (targets ++ rest) (seen.set id true)).map (id :: ·)
      else arena.visit next rest seen
    else .error (.outOfRange arena.size id)
termination_by (seen.count false, pending.length)
decreasing_by
  · exact .left _ _ (count_unseen_set_lt h unseen)
  · exact .right _ (Nat.lt_succ_self _)

/-- The same search, but targets that are seen already when their state is come to do not wait. -/
def visitFresh (arena : Arena) (next : State → List StateId) (pending : List StateId)
    (seen : Vector Bool arena.states.size) : Except Fault (List StateId) :=
  match pending with
  | [] => .ok []
  | id :: rest =>
    if h : id < arena.states.size then
      if unseen : ¬seen[id] then
        let targets := next arena.states[id]
        let later := seen.set id true
        match targets.reverse.find? (arena.size ≤ ·) with
        | some missing => .error (.outOfRange arena.size missing)
        | none =>
          let fresh := targets.filter (later[·]? ≠ some true)
          (arena.visitFresh next (fresh ++ rest) later).map (id :: ·)
      else arena.visitFresh next rest seen
    else .error (.outOfRange arena.size id)
termination_by (seen.count false, pending.length)
decreasing_by
  · exact .left _ _ (count_unseen_set_lt h unseen)
  · exact .right _ (Nat.lt_succ_self _)

def search (arena : Arena) (next : State → List StateId) (roots : List StateId) :
    Except Fault (List StateId) :=
  arena.visit next roots (.replicate _ false)

end Thompson.Arena
