import Thompson.Proofs.Growth

namespace Thompson

theorem Edges.Regular.targets_eq_nil_iff {edges : Edges} (h : edges.Regular) :
    edges.targets = [] ↔ edges = .empty := by
  refine ⟨fun none => ?_, fun empty => empty ▸ rfl⟩
  rcases h with empty | onward
  · exact empty
  · obtain ⟨q, target⟩ := onward.exists_target
    rw [none] at target
    cases target

/-- There are never too many regular edges, so that they are out of bounds only where there are
none. -/
theorem Edges.Regular.isBounded_iff {edges : Edges} (h : edges.Regular) :
    edges.isBounded ↔ edges.targets ≠ [] := by
  rw [Ne, h.targets_eq_nil_iff, Edges.isBounded_iff]
  constructor
  · rintro onward rfl
    cases onward
  · exact h.resolve_left

namespace Arena

variable {arena : Arena} {fragment : Fragment}

/-- The exit accepts and leads nowhere, all places that the entry leads to are there, and each of
them but the exit leads on and does not accept. -/
structure Complete (arena : Arena) (fragment : Fragment) : Prop where
  exit : ∃ state, arena.state? fragment.exit = some state ∧ state.accepting = true ∧
    state.targets = []
  inside : ∀ q, arena.Reaches State.targets fragment.entry q → q < arena.size
  onward : ∀ q state, arena.Reaches State.targets fragment.entry q → q ≠ fragment.exit →
    arena.state? q = some state → state.accepting = false ∧ state.targets ≠ []

/-- In a regular arena it is enough that states lead on, since their edges have the right shape
anyway. -/
theorem Regular.sealed_iff (regular : arena.Regular) :
    arena.Sealed fragment ↔ arena.Complete fragment := by
  constructor
  · intro whole
    refine ⟨⟨_, whole.exit, rfl, rfl⟩, fun q hr => ?_, fun q state hr ne found => ?_⟩
    · obtain ⟨state, found⟩ := whole.state?_of_reaches hr
      exact lt_of_state? found
    · obtain ⟨state', found', rejecting, bounded⟩ := whole.reached q hr ne
      cases found.symm.trans found'
      exact ⟨rejecting, (regular q state found).isBounded_iff.mp bounded⟩
  · rintro ⟨⟨⟨_, edges⟩, found, rfl, none⟩, inside, onward⟩
    refine ⟨?_, fun q hr ne => ?_⟩
    · have empty : edges = .empty := (regular _ _ found).targets_eq_nil_iff.mp none
      rw [found, empty]
    · have found := state?_of_lt (inside q hr)
      obtain ⟨rejecting, some⟩ := onward q _ hr ne found
      exact ⟨_, found, rejecting, (regular q _ found).isBounded_iff.mpr some⟩

/-- After any calls, those fragments can be finished that are complete, and the automaton has the
arena as it is, with the entry and the exit of the fragment. -/
theorem finish_calls_iff (calls : List Call) (fragment : Fragment) (automaton : Automaton) :
    (({} : Arena).performAll calls).finish fragment = .ok automaton ↔
      (({} : Arena).performAll calls).Complete fragment ∧
        automaton = ⟨({} : Arena).performAll calls, fragment.entry, fragment.exit⟩ := by
  rw [finish_eq_ok_iff, (regular_calls calls).sealed_iff]

/-- A place that is not there is in the way, even if the entry does not lead there at once. -/
example : (({} : Arena).performAll [.build (.symbol 'a'), .create false, .addSymbol 0 2 'b',
    .addEpsilon 2 9]).finish ⟨0, 1⟩ = .error (.outOfRange 3 9) := by
  cbv

end Arena

end Thompson
