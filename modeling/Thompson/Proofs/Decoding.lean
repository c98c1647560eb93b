import Thompson.Proofs.Block

namespace Thompson

theorem Arena.state?_eq_none {arena : Arena} {id : StateId} (h : arena.size ≤ id) :
    arena.state? id = none :=
  Array.getElem?_eq_none h

namespace Automaton

variable {first second first' second' operand operand' a b : Automaton} {id : StateId}

theorem Compact.exit_eq (h : a.Compact) (h' : b.Compact) (size : a.size = b.size) :
    a.exit = b.exit := by
  have same : a.exit + 1 = b.exit + 1 := by rw [h.last, h'.last, size]
  exact Nat.succ.inj same

/-- Compact blocks that agree away from the exit are the same. -/
theorem Compact.eq (h : a.Compact) (h' : b.Compact) (size : a.size = b.size)
    (entry : a.entry = b.entry)
    (same : ∀ id < a.size, id ≠ a.exit → a.arena.state? id = b.arena.state? id) : a = b := by
  have exit := h.exit_eq h' size
  refine eq_of_parts (Arena.ext_state? fun id => ?_) entry exit
  by_cases inside : id < a.size
  · by_cases last : id = a.exit
    · have found : b.arena.state? a.exit = some ⟨true, .empty⟩ := exit ▸ h'.exit
      rw [last, h.exit, found]
    · exact same id inside last
  · have outside : a.size ≤ id := Nat.le_of_not_lt inside
    have outside' : b.size ≤ id := size ▸ outside
    rw [Arena.state?_eq_none outside, Arena.state?_eq_none outside']

section Pair

variable {rule rule' : Rule Fragment}

theorem Open.state?_pair_of_lt (h : first.Open) (h' : second.Open)
    (operands : rule.operands = [first.fragment, second.fragment.shift first.size])
    (inside : id < first.size) (ne : id ≠ first.exit) :
    ((first.arena.beside second.arena).extend rule).state? id = first.arena.state? id := by
  have apart (fragment : Fragment) (hf : fragment ∈ rule.operands) : id ≠ fragment.exit := by
    rw [operands] at hf
    rcases List.mem_pair.mp hf with rfl | rfl
    · exact ne
    · exact Nat.ne_of_lt (Nat.lt_add_left _ inside)
  rw [Arena.state?_extend_of_lt (h.ready_pair h' operands) (Arena.lt_size_beside inside) apart,
    Arena.state?_beside_of_lt inside]

theorem Open.state?_pair_add (h : first.Open) (h' : second.Open)
    (operands : rule.operands = [first.fragment, second.fragment.shift first.size])
    (inside : id < second.size) (ne : id ≠ second.exit) :
    ((first.arena.beside second.arena).extend rule).state? (id + first.size) =
      (second.arena.state? id).map (State.shift first.size) := by
  have apart (fragment : Fragment) (hf : fragment ∈ rule.operands) :
      id + first.size ≠ fragment.exit := by
    rw [operands] at hf
    rcases List.mem_pair.mp hf with rfl | rfl
    · exact (Nat.ne_of_lt (Nat.lt_add_left _ h.exit_lt)).symm
    · exact fun same => ne (Nat.add_right_cancel same)
  have moved : (first.arena.beside second.arena).state? (id + first.size) =
      (second.arena.state? id).map (State.shift first.size) := Arena.state?_beside_add
  have kept := Arena.state?_extend_of_lt (h.ready_pair h' operands)
    (Arena.add_lt_size_beside inside) apart
  exact kept.trans moved

/-- Two blocks of known sizes and entries are told from the arena that a rule makes of them. -/
theorem Compact.pair_eq (h : first.Compact) (h' : second.Compact) (k : first'.Compact)
    (k' : second'.Compact)
    (operands : rule.operands = [first.fragment, second.fragment.shift first.size])
    (operands' : rule'.operands = [first'.fragment, second'.fragment.shift first'.size])
    (same : (first.arena.beside second.arena).extend rule =
      (first'.arena.beside second'.arena).extend rule')
    (size : first.size = first'.size) (size' : second.size = second'.size)
    (entry : first.entry = first'.entry) (entry' : second.entry = second'.entry) :
    first = first' ∧ second = second' := by
  constructor
  · refine h.eq k size entry fun id inside ne => ?_
    rw [← h.exit.state?_pair_of_lt h'.exit operands inside ne, same]
    exact k.exit.state?_pair_of_lt k'.exit operands' (size ▸ inside) (h.exit_eq k size ▸ ne)
  · refine h'.eq k' size' entry' fun id inside ne => ?_
    have read := h.exit.state?_pair_add h'.exit operands inside ne
    have read' := k.exit.state?_pair_add k'.exit operands' (size' ▸ inside)
      (h'.exit_eq k' size' ▸ ne)
    rw [same, size, read'] at read
    exact Option.map_injective (State.shift_injective _) read.symm

end Pair

/-- The tie between two joined blocks tells the entry of the second. -/
theorem Open.state?_join_exit (h : first.Open) (second : Automaton) :
    (first.join second).arena.state? first.exit =
      some ⟨false, .epsilon [second.entry + first.size]⟩ :=
  Arena.state?_put_self (Arena.lt_size_beside h.exit_lt)

/-- Where the first part ends is told by its entry, if it is no chain itself. -/
theorem Compact.join_inj (h : first.Compact) (h' : second.Compact) (k : first'.Compact)
    (k' : second'.Compact) (single : first.entry + 2 = first.size)
    (single' : first'.entry + 2 = first'.size) (same : first.join second = first'.join second') :
    first = first' ∧ second = second' := by
  have entry : (first.join second).entry = (first'.join second').entry := congrArg _ same
  change first.entry = first'.entry at entry
  have size : first.size = first'.size := by rw [← single, ← single', entry]
  have size' : second.size = second'.size := by
    have total := congrArg Automaton.size same
    rw [size_join, size_join, size] at total
    exact Nat.add_left_cancel total
  have entry' : second.entry = second'.entry := by
    have tied := h.exit.state?_join_exit second
    rw [same, h.exit_eq k size, k.exit.state?_join_exit, size] at tied
    simpa using tied.symm
  have arenas := congrArg Automaton.arena same
  rw [arena_join, arena_join] at arenas
  exact h.pair_eq h' k k' rfl rfl arenas size size' entry entry'

theorem state?_either_entry (first second : Automaton) :
    (first.either second).arena.state? (first.size + second.size) =
      some ⟨false, .epsilon [first.entry, second.entry + first.size]⟩ := by
  have found : ((first.arena.beside second.arena).extend
      (.union first.fragment (second.fragment.shift first.size))).state?
        (first.arena.beside second.arena).size =
      some ⟨false, .epsilon [first.entry, second.entry + first.size]⟩ :=
    Arena.state?_extend_union_entry
  rw [← arena_either, Arena.size_beside] at found
  exact found

theorem Open.state?_either_exit (h : first.Open) (h' : second.Open) :
    (first.either second).arena.state? first.exit =
      some ⟨false, .epsilon [first.size + second.size + 1]⟩ := by
  have found : ((first.arena.beside second.arena).extend
      (.union first.fragment (second.fragment.shift first.size))).state? first.exit =
      some ⟨false, .epsilon [(first.arena.beside second.arena).size + 1]⟩ :=
    Arena.state?_extend_union_first (Arena.lt_size_beside h.exit_lt)
      (Arena.add_lt_size_beside h'.exit_lt) (h.exit_ne second)
  rw [← arena_either, Arena.size_beside] at found
  exact found

theorem entry_either (first second : Automaton) :
    (first.either second).entry = first.size + second.size :=
  rfl

/-- Inside the first block nothing leads to the exit, so that the block ends with the first state
that does. -/
theorem Compact.size_le_of_either (h : first.Compact) (h' : second.Compact) (k : first'.Compact)
    (k' : second'.Compact) (same : first.either second = first'.either second') :
    first'.size ≤ first.size := by
  by_contra longer
  have shorter : first.size < first'.size := Nat.lt_of_not_le longer
  have ne : first.exit ≠ first'.exit := by
    intro same
    have ends := h.last
    rw [same, k.last] at ends
    exact Nat.ne_of_lt shorter ends.symm
  have total := congrArg Automaton.entry same
  rw [entry_either, entry_either] at total
  have tied := h.exit.state?_either_exit h'.exit
  rw [same, arena_either, k.exit.state?_pair_of_lt k'.exit rfl (h.exit.exit_lt.trans shorter) ne,
    total] at tied
  have inner : first'.size + second'.size + 1 < first'.size :=
    k.inner _ _ tied _ (List.mem_singleton_self _)
  omega

/-- Neither block can be the longer one, and their entries are read off the entry of the whole. -/
theorem Compact.either_inj (h : first.Compact) (h' : second.Compact) (k : first'.Compact)
    (k' : second'.Compact) (same : first.either second = first'.either second') :
    first = first' ∧ second = second' := by
  have size : first.size = first'.size :=
    Nat.le_antisymm (k.size_le_of_either k' h h' same.symm) (h.size_le_of_either h' k k' same)
  have total := congrArg Automaton.entry same
  rw [entry_either, entry_either, size] at total
  have size' : second.size = second'.size := Nat.add_left_cancel total
  have read := state?_either_entry first second
  rw [same, size, size', state?_either_entry] at read
  have entries : first.entry = first'.entry ∧ second.entry = second'.entry := by
    simpa using read.symm
  have arenas := congrArg Automaton.arena same
  rw [arena_either, arena_either] at arenas
  exact h.pair_eq h' k k' rfl rfl arenas size size' entries.1 entries.2

theorem state?_loop_entry (operand : Automaton) :
    operand.loop.arena.state? operand.size =
      some ⟨false, .epsilon [operand.size + 1, operand.entry]⟩ := by
  rw [arena_loop]
  exact Arena.state?_extend_closure_entry

theorem Open.state?_loop_of_lt (h : operand.Open) (inside : id < operand.size)
    (ne : id ≠ operand.exit) : operand.loop.arena.state? id = operand.arena.state? id := by
  rw [arena_loop]
  refine Arena.state?_extend_of_lt h.ready_closure inside fun fragment hf => ?_
  cases List.mem_singleton.mp hf
  exact ne

/-- The block of a star is all but the last two states of the whole. -/
theorem Compact.loop_inj (h : operand.Compact) (k : operand'.Compact)
    (same : operand.loop = operand'.loop) : operand = operand' := by
  have size : operand.size = operand'.size := congrArg Automaton.entry same
  have read := state?_loop_entry operand
  rw [same, size, state?_loop_entry] at read
  have entry : operand.entry = operand'.entry := by simpa using read.symm
  refine h.eq k size entry fun id inside ne => ?_
  rw [← h.exit.state?_loop_of_lt inside ne, same]
  exact k.exit.state?_loop_of_lt (size ▸ inside) (h.exit_eq k size ▸ ne)

end Automaton

end Thompson
