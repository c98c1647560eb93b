import Thompson.Proofs.Construction

namespace Thompson

namespace Arena

variable {arena block : Arena} {p q id : StateId} {state state' : State} {bound more : Nat}

theorem put_comm (ne : p ≠ q) :
    (arena.put p state).put q state' = (arena.put q state').put p state :=
  congrArg Arena.mk (Array.setIfInBounds_comm _ _ ne)

def LeadsBelow (arena : Arena) (bound : Nat) : Prop :=
  ∀ id state, arena.state? id = some state → ∀ q ∈ state.targets, q < bound

theorem LeadsBelow.mono (h : arena.LeadsBelow bound) (le : bound ≤ more) : arena.LeadsBelow more :=
  fun id state found q target => Nat.lt_of_lt_of_le (h id state found q target) le

theorem LeadsBelow.push (h : arena.LeadsBelow bound) (added : ∀ q ∈ state.targets, q < bound) :
    (arena.push state).LeadsBelow bound := by
  intro id other found
  rw [state?_push] at found
  split at found
  · cases found
    exact added
  · exact h id other found

theorem LeadsBelow.put (h : arena.LeadsBelow bound) (inside : id < arena.size)
    (written : ∀ q ∈ state.targets, q < bound) : (arena.put id state).LeadsBelow bound := by
  intro other changed found
  rw [state?_put inside] at found
  split at found
  · cases found
    exact written
  · exact h other changed found

theorem LeadsBelow.beside (h : arena.LeadsBelow arena.size) (h' : block.LeadsBelow block.size) :
    (arena.beside block).LeadsBelow (arena.beside block).size := by
  rw [size_beside]
  intro id state found
  by_cases low : id < arena.size
  · rw [state?_beside_of_lt low] at found
    exact fun q target => Nat.lt_add_right _ (h id state found q target)
  · obtain ⟨n, rfl⟩ := Nat.exists_eq_add_of_le' (Nat.le_of_not_lt low)
    rw [state?_beside_add] at found
    obtain ⟨inner, found', rfl⟩ := Option.map_eq_some_iff.mp found
    intro q target
    rw [State.targets_shift] at target
    obtain ⟨r, target', rfl⟩ := List.mem_map.mp target
    rw [Nat.add_comm]
    exact Nat.add_lt_add_left (h' n inner found' r target') _

theorem targets_epsilon (accepting : Bool) (targets : List StateId) :
    State.targets ⟨accepting, .epsilon targets⟩ = targets :=
  rfl

/-- With the entries of its operands in the arena, a rule adds no edge that leads out of it. -/
theorem LeadsBelow.extend {rule : Rule Fragment} (h : arena.LeadsBelow arena.size)
    (ready : arena.Ready rule) (entries : ∀ fragment ∈ rule.operands, fragment.entry < arena.size) :
    (arena.extend rule).LeadsBelow (arena.extend rule).size := by
  have inside (fragment : Fragment) (hf : fragment ∈ rule.operands) : fragment.exit < arena.size :=
    lt_of_state? (ready.opened fragment hf)
  have wider := h.mono (Nat.le_add_right _ 2)
  have none : ∀ q ∈ State.targets ⟨true, .empty⟩, q < arena.size + 2 := fun _ target => by cases target
  rw [size_extend]
  cases rule with
  | empty =>
    refine (wider.push ?_).push none
    simp [targets_epsilon]
  | symbol c =>
    refine (wider.push fun q target => ?_).push none
    cases List.mem_singleton.mp target
    exact Nat.lt_succ_self _
  | concat first second =>
    refine h.put (inside first (by simp)) ?_
    simpa [targets_epsilon] using entries second (by simp)
  | union first second =>
    have entry := entries first (by simp)
    have entry' := entries second (by simp)
    have inside' := inside second (by simp)
    refine (((wider.put (inside first (by simp)) ?_).put ?_ ?_).push ?_).push none
    · simp [targets_epsilon]
    · rwa [size_put]
    · simp [targets_epsilon]
    · simp only [targets_epsilon, List.mem_cons, List.not_mem_nil, or_false]
      rintro q (rfl | rfl)
      · exact Nat.lt_add_right _ entry
      · exact Nat.lt_add_right _ entry'
  | closure operand =>
    have onward : ∀ q ∈ State.targets ⟨false, .epsilon [arena.size + 1, operand.entry]⟩,
        q < arena.size + 2 := by
      simp only [targets_epsilon, List.mem_cons, List.not_mem_nil, or_false]
      rintro q (rfl | rfl)
      · exact Nat.lt_succ_self _
      · exact Nat.lt_add_right _ (entries operand (by simp))
    exact ((wider.put (inside operand (by simp)) onward).push onward).push none

end Arena

namespace Automaton

variable {first second third operand a b : Automaton}

@[simp] theorem size_join (first second : Automaton) :
    (first.join second).size = first.size + second.size := by
  simp [size, arena_join, Rule.created]

@[simp] theorem size_either (first second : Automaton) :
    (first.either second).size = first.size + second.size + 2 := by
  simp [size, arena_either, Rule.created]

@[simp] theorem size_loop (operand : Automaton) : operand.loop.size = operand.size + 2 := by
  simp [size, arena_loop, Rule.created]

theorem eq_of_parts (arena : a.arena = b.arena) (entry : a.entry = b.entry)
    (exit : a.exit = b.exit) : a = b := by
  cases a
  cases b
  cases arena
  cases entry
  cases exit
  rfl

/-- It makes no difference which of two joins comes first. -/
theorem join_assoc (h : first.Open) (h' : second.Open) (third : Automaton) :
    (first.join second).join third = first.join (second.join third) := by
  have inside : first.exit < (first.arena.beside second.arena).size :=
    Arena.lt_size_beside h.exit_lt
  have inside' : second.exit < (second.arena.beside third.arena).size :=
    Arena.lt_size_beside h'.exit_lt
  have place (p : StateId) : p + (first.join second).size = p + second.size + first.size := by
    rw [size_join, Nat.add_comm first.size, Nat.add_assoc]
  have moved : State.shift first.arena.size ⟨false, .epsilon [third.entry + second.size]⟩ =
      ⟨false, .epsilon [third.entry + second.size + first.size]⟩ := rfl
  refine eq_of_parts ?_ rfl (place third.exit)
  calc ((first.join second).join third).arena
      = (((first.arena.beside second.arena).put first.exit
          ⟨false, .epsilon [second.entry + first.size]⟩).beside third.arena).put
          (second.exit + first.size) ⟨false, .epsilon [third.entry + (first.join second).size]⟩ :=
        rfl
    _ = ((first.arena.beside (second.arena.beside third.arena)).put (second.exit + first.size)
          (State.shift first.arena.size ⟨false, .epsilon [third.entry + second.size]⟩)).put
          first.exit ⟨false, .epsilon [second.entry + first.size]⟩ := by
        rw [place, moved, ← Arena.put_beside_of_lt inside, Arena.beside_assoc,
          Arena.put_comm (h.exit_ne second)]
    _ = (first.join (second.join third)).arena := by
        rw [size, Arena.put_beside_add inside']
        rfl

structure Compact (automaton : Automaton) : Prop where
  exit : automaton.Open
  last : automaton.exit + 1 = automaton.size
  entry_lt : automaton.entry < automaton.exit
  inner : automaton.arena.LeadsBelow automaton.arena.size

theorem Compact.entry_lt_size (h : first.Compact) : first.entry < first.size :=
  Nat.lt_trans h.entry_lt h.exit.exit_lt

/-- A rule for two blocks in a row keeps the edges inside, since both entries are. -/
theorem Compact.leadsBelow_pair (h : first.Compact) (h' : second.Compact) {rule : Rule Fragment}
    (operands : rule.operands = [first.fragment, second.fragment.shift first.size]) :
    ((first.arena.beside second.arena).extend rule).LeadsBelow
      ((first.arena.beside second.arena).extend rule).size := by
  have ready := h.exit.ready_pair h'.exit operands
  refine (h.inner.beside h'.inner).extend ready fun fragment hf => ?_
  rw [operands] at hf
  rcases List.mem_pair.mp hf with rfl | rfl
  · exact Arena.lt_size_beside h.entry_lt_size
  · exact Arena.add_lt_size_beside h'.entry_lt_size

theorem compact_symbol (c : Char) : (Expr.symbol c).automaton.Compact := by
  have ready : ({} : Arena).Ready (.symbol c) := ⟨by simp, .nil⟩
  have start : ({} : Arena).LeadsBelow 0 := fun id state found => by cases found
  exact ⟨rfl, rfl, Nat.zero_lt_one, start.extend ready (by simp)⟩

theorem Compact.join (h : first.Compact) (h' : second.Compact) : (first.join second).Compact where
  exit := h.exit.join h'.exit
  last := by
    rw [size_join, ← h'.last]
    exact (Nat.add_right_comm ..).trans (Nat.add_comm ..)
  entry_lt := Nat.lt_trans h.entry_lt (Nat.lt_add_left _ h.exit.exit_lt)
  inner := by
    rw [arena_join]
    exact h.leadsBelow_pair h' rfl

theorem Compact.either (h : first.Compact) (h' : second.Compact) :
    (first.either second).Compact where
  exit := open_either first second
  last := (size_either first second).symm
  entry_lt := Nat.lt_succ_self _
  inner := by
    rw [arena_either]
    exact h.leadsBelow_pair h' rfl

theorem Compact.loop (h : operand.Compact) : operand.loop.Compact where
  exit := open_loop operand
  last := (size_loop operand).symm
  entry_lt := Nat.lt_succ_self _
  inner := by
    rw [arena_loop]
    refine h.inner.extend h.exit.ready_closure fun fragment hf => ?_
    cases List.mem_singleton.mp hf
    exact h.entry_lt_size

end Automaton

/-- Every expression has a block that ends with its exit and keeps its edges to itself. -/
theorem Expr.compact_automaton (expr : Expr) : expr.automaton.Compact := by
  induction expr with
  | symbol c => exact Automaton.compact_symbol c
  | concat left right ihl ihr => exact ihl.join ihr
  | union left right ihl ihr => exact ihl.either ihr
  | star operand ih => exact ih.loop

end Thompson
