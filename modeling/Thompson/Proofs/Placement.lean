import Thompson.Proofs.Decoding

namespace Thompson.Automaton

variable {first second operand block : Automaton} {arena : Arena} {offset : Nat}

/-- The states of a block stand in an arena from some place on. Only its exit may have changed. -/
def Placed (block : Automaton) (arena : Arena) (offset : Nat) : Prop :=
  ∀ id < block.size, id ≠ block.exit →
    arena.state? (id + offset) = (block.arena.state? id).map (State.shift offset)

/-- A place of a chain is one of its first or of its second part. -/
theorem lt_size_join_cases {id : Nat} (inside : id < (first.join second).size) :
    id < first.size ∨ ∃ n < second.size, id = n + first.size := by
  rw [size_join] at inside
  by_cases low : id < first.size
  · exact .inl low
  · obtain ⟨n, rfl⟩ := Nat.exists_eq_add_of_le' (Nat.le_of_not_lt low)
    exact .inr ⟨n, by omega, rfl⟩

/-- A place of a choice is one of its alternatives, or it is the entry or the exit of the whole. -/
theorem lt_size_either_cases {id : Nat} (inside : id < (first.either second).size) :
    id < first.size ∨ (∃ n < second.size, id = n + first.size) ∨
      id = (first.either second).entry ∨ id = (first.either second).exit := by
  rw [size_either] at inside
  by_cases low : id < first.size
  · exact .inl low
  · obtain ⟨n, rfl⟩ := Nat.exists_eq_add_of_le' (Nat.le_of_not_lt low)
    by_cases high : n < second.size
    · exact .inr (.inl ⟨n, high, rfl⟩)
    · simp only [either]
      omega

theorem lt_size_loop_cases {id : Nat} (inside : id < operand.loop.size) :
    id < operand.size ∨ id = operand.loop.entry ∨ id = operand.loop.exit := by
  rw [size_loop] at inside
  simp only [loop]
  omega

theorem placed_self (block : Automaton) : block.Placed block.arena 0 := by
  intro id _ _
  simp [funext State.shift_zero]

theorem Placed.state? (h : block.Placed arena offset) {id : StateId} {state : State}
    (ne : id ≠ block.exit) (found : block.arena.state? id = some state) :
    arena.state? (id + offset) = some (state.shift offset) := by
  rw [h id (Arena.lt_of_state? found) ne, found]
  rfl

theorem Placed.symbol {c : Char} (h : (Expr.symbol c).automaton.Placed arena offset) :
    arena.state? offset = some ⟨false, .labelled (Labels.empty.insert c (1 + offset))⟩ := by
  have entry := h.state? Nat.zero_ne_one rfl
  rwa [Nat.zero_add] at entry

/-- Both operands of a rule are there, if the exit of the whole is none of their other states. -/
theorem Placed.pair {rule : Rule Fragment} (h : block.Placed arena offset) (hf : first.Open)
    (hs : second.Open) (operands : rule.operands = [first.fragment, second.fragment.shift first.size])
    (made : block.arena = (first.arena.beside second.arena).extend rule)
    (size : first.size + second.size ≤ block.size) (behind : first.size ≤ block.exit)
    (last : ∀ id < second.size, id + first.size = block.exit → id = second.exit) :
    first.Placed arena offset ∧ second.Placed arena (first.size + offset) := by
  constructor
  · intro id inside ne
    rw [h id (by omega) (by omega), made, hf.state?_pair_of_lt hs operands inside ne]
  · intro id inside ne
    have apart : id + first.size ≠ block.exit := fun same => ne (last id inside same)
    rw [← Nat.add_assoc, h (id + first.size) (by omega) apart, made,
      hf.state?_pair_add hs operands inside ne, Option.map_map]
    congr 1
    funext state
    exact State.shift_shift

theorem Open.state?_either_second (first : Automaton) (hs : second.Open) :
    (first.either second).arena.state? (second.exit + first.size) =
      some ⟨false, .epsilon [first.size + second.size + 1]⟩ := by
  have found : ((first.arena.beside second.arena).extend
      (.union first.fragment (second.fragment.shift first.size))).state? (second.exit + first.size) =
      some ⟨false, .epsilon [(first.arena.beside second.arena).size + 1]⟩ :=
    Arena.state?_extend_union_second _ (Arena.add_lt_size_beside hs.exit_lt)
  rwa [← arena_either, Arena.size_beside] at found

theorem Open.state?_loop_exit (ho : operand.Open) :
    operand.loop.arena.state? operand.exit =
      some ⟨false, .epsilon [operand.size + 1, operand.entry]⟩ := by
  rw [arena_loop]
  exact Arena.state?_extend_closure_exit ho.exit_lt

/-- The tie between the parts of a chain leads to where the second one stands. -/
theorem Placed.join (h : (first.join second).Placed arena offset) (hf : first.Open)
    (hs : second.Open) :
    first.Placed arena offset ∧ second.Placed arena (first.size + offset) ∧
      arena.state? (first.exit + offset) =
        some ⟨false, .epsilon [second.entry + (first.size + offset)]⟩ := by
  obtain ⟨left, right⟩ := h.pair hf hs rfl (arena_join first second)
    (Nat.le_of_eq (size_join first second).symm) (Nat.le_add_left _ _)
    fun _ _ => Nat.add_right_cancel
  refine ⟨left, right, ?_⟩
  have tied := h.state? (hf.exit_ne second) (hf.state?_join_exit second)
  simpa [State.shift, Edges.shift, Nat.add_assoc] using tied

/-- Both ways of a choice stand there with its entry before them, and their exits lead to its
own. -/
theorem Placed.either (h : (first.either second).Placed arena offset) (hf : first.Open)
    (hs : second.Open) :
    first.Placed arena offset ∧ second.Placed arena (first.size + offset) ∧
      arena.state? ((first.either second).entry + offset) =
        some ⟨false, .epsilon [first.entry + offset, second.entry + (first.size + offset)]⟩ ∧
      arena.state? (first.exit + offset) =
        some ⟨false, .epsilon [(first.either second).exit + offset]⟩ ∧
      arena.state? (second.exit + (first.size + offset)) =
        some ⟨false, .epsilon [(first.either second).exit + offset]⟩ := by
  have inner (id : Nat) (lt : id < first.size + second.size + 1) :
      id ≠ (first.either second).exit := Nat.ne_of_lt lt
  have inside : first.size > first.exit := hf.exit_lt
  have inside' : second.size > second.exit := hs.exit_lt
  obtain ⟨left, right⟩ := h.pair hf hs rfl (arena_either first second)
    (by simp) (Nat.le_succ_of_le (Nat.le_add_right _ _))
    fun id below same => absurd same (inner (id + first.size) (by omega))
  have entry := h.state? (inner _ (by omega)) (state?_either_entry first second)
  have tied := h.state? (inner _ (by omega)) (hf.state?_either_exit hs)
  have tied' := h.state? (inner _ (by omega)) (hs.state?_either_second first)
  rw [Nat.add_assoc] at tied'
  have moved : second.entry + first.size + offset = second.entry + (first.size + offset) :=
    Nat.add_assoc ..
  rw [← moved]
  exact ⟨left, right, entry, tied, tied'⟩

/-- The entry of a loop and the exit of what it repeats lead to the same two places. -/
theorem Placed.loop (h : operand.loop.Placed arena offset) (ho : operand.Open) :
    operand.Placed arena offset ∧
      arena.state? (operand.loop.entry + offset) =
        some ⟨false, .epsilon [operand.loop.exit + offset, operand.entry + offset]⟩ ∧
      arena.state? (operand.exit + offset) =
        some ⟨false, .epsilon [operand.loop.exit + offset, operand.entry + offset]⟩ := by
  have inner (id : Nat) (lt : id < operand.size + 1) : id ≠ operand.loop.exit :=
    Nat.ne_of_lt lt
  have inside := ho.exit_lt
  have entry := h.state? (inner _ (Nat.lt_succ_self _)) (state?_loop_entry operand)
  have tied := h.state? (inner _ (Nat.lt_succ_of_lt inside)) ho.state?_loop_exit
  refine ⟨fun id below ne => ?_, entry, tied⟩
  rw [h id (by rw [size_loop]; omega) (inner id (Nat.lt_succ_of_lt below)),
    ho.state?_loop_of_lt below ne]

end Thompson.Automaton
