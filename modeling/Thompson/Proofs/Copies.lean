import Thompson.Proofs.Part
import Thompson.Proofs.Renumbering

namespace Thompson

def follow (size : Nat) (place more : StateId → StateId) (id : StateId) : StateId :=
  if id < size then place id else more (id - size)

section Follow

variable {size id : Nat} {place more : StateId → StateId}

theorem follow_of_lt (inside : id < size) : follow size place more id = place id :=
  if_pos inside

@[simp] theorem follow_add : follow size place more (id + size) = more id := by
  simp [follow]

theorem follow_follow_add {size' k : Nat} {last : StateId → StateId} :
    follow size place (follow size' more last) (k + (size + size')) = last k := by
  rw [Nat.add_comm size, ← Nat.add_assoc, follow_add, follow_add]

end Follow

/-- What a rule makes of renamed operands is the renamed fragment, if new states keep their
distance. -/
theorem Rule.fragment_rename {rule : Rule Fragment} {size size' : Nat} {place : StateId → StateId}
    (onward : ∀ k, place (k + size) = k + size') :
    (rule.map (Fragment.rename place)).fragment size' = (rule.fragment size).rename place := by
  have entry : place size = size' := by simpa using onward 0
  have exit : place (size + 1) = size' + 1 := by simpa [Nat.add_comm] using onward 1
  cases rule <;> simp only [map, fragment, Fragment.rename, entry, exit]

namespace Arena

variable {arena grown block first second : Arena} {place more : StateId → StateId} {id : StateId}
  {state : State}

theorem copies_empty (arena : Arena) (place : StateId → StateId) : arena.Copies {} place :=
  ⟨fun _ h => absurd h (Nat.not_lt_zero _), fun _ h => absurd h (Nat.not_lt_zero _)⟩

/-- Only the places of the block matter to its copy. -/
theorem Copies.congr (h : arena.Copies block place) (inner : block.LeadsBelow block.size)
    (agree : ∀ id < block.size, place id = more id) : arena.Copies block more where
  apart := h.apart.congr agree
  same id inside := by
    rw [← agree id inside, h.same id inside]
    have found := state?_of_lt inside
    rw [found, Option.map_some, Option.map_some,
      State.rename_congr fun q target => agree q (inner id _ found q target)]

theorem Copies.of_same (h : arena.Copies block place)
    (kept : ∀ id < block.size, grown.state? (place id) = arena.state? (place id)) :
    grown.Copies block place :=
  ⟨h.apart, fun id inside => (kept id inside).trans (h.same id inside)⟩

theorem Copies.put (h : arena.Copies block place) (inside : id < block.size) (state : State) :
    (arena.put (place id) (state.rename place)).Copies (block.put id state) place where
  apart := by simpa using h.apart
  same other below := by
    rw [size_put] at below
    have same : place id = place other ↔ id = other := h.apart.eq_iff inside below
    rw [state?_put (h.lt inside), state?_put inside, h.same other below]
    by_cases here : id = other <;> simp [same, here]

/-- A state may be added to both, as long as the next place of the block is copied to the next place
of the arena. -/
theorem Copies.push (h : arena.Copies block place) (last : place block.size = arena.size)
    (state : State) : (arena.push (state.rename place)).Copies (block.push state) place := by
  have old {id : StateId} (inside : id < block.size) : place id ≠ arena.size :=
    Nat.ne_of_lt (h.lt inside)
  constructor
  · intro p hp q hq same
    rw [Set.mem_ofPred_eq, size_push] at hp hq
    rcases Nat.lt_succ_iff_lt_or_eq.mp hp with hp | rfl
    · rcases Nat.lt_succ_iff_lt_or_eq.mp hq with hq | rfl
      · exact h.apart hp hq same
      · exact absurd (same.trans last) (old hp)
    · rcases Nat.lt_succ_iff_lt_or_eq.mp hq with hq | rfl
      · exact absurd (same.symm.trans last) (old hq)
      · rfl
  · intro id inside
    rw [size_push] at inside
    rcases Nat.lt_succ_iff_lt_or_eq.mp inside with inside | rfl
    · rw [state?_push_of_lt (h.lt inside), state?_push_of_lt inside, h.same id inside]
    · rw [state?_push_size last, state?_push_size rfl]
      rfl

/-- Blocks whose copies do not meet have a copy side by side. -/
theorem Copies.beside (h : arena.Copies first place) (h' : arena.Copies second more)
    (inner : first.LeadsBelow first.size)
    (apart : ∀ p < first.size, ∀ q < second.size, place p ≠ more q) :
    arena.Copies (first.beside second) (follow first.size place more) := by
  have lower : arena.Copies first (follow first.size place more) :=
    h.congr inner fun id inside => (follow_of_lt inside).symm
  have upper {n : Nat} (inside : n + first.size < first.size + second.size) : n < second.size := by
    omega
  constructor
  · -- Inside one block its own copy keeps the places apart, across the two they do not meet.
    intro p hp q hq same
    rw [Set.mem_ofPred_eq, size_beside] at hp hq
    by_cases low : p < first.size
    · by_cases low' : q < first.size
      · exact lower.apart low low' same
      · obtain ⟨n, rfl⟩ := Nat.exists_eq_add_of_le' (Nat.le_of_not_lt low')
        rw [follow_of_lt low, follow_add] at same
        exact absurd same (apart p low n (upper hq))
    · obtain ⟨m, rfl⟩ := Nat.exists_eq_add_of_le' (Nat.le_of_not_lt low)
      by_cases low' : q < first.size
      · rw [follow_of_lt low', follow_add] at same
        exact absurd same.symm (apart q low' m (upper hp))
      · obtain ⟨n, rfl⟩ := Nat.exists_eq_add_of_le' (Nat.le_of_not_lt low')
        rw [follow_add, follow_add] at same
        rw [h'.apart (upper hp) (upper hq) same]
  · intro id inside
    rw [size_beside] at inside
    by_cases low : id < first.size
    · rw [state?_beside_of_lt low, lower.same id low]
    · obtain ⟨n, rfl⟩ := Nat.exists_eq_add_of_le' (Nat.le_of_not_lt low)
      rw [follow_add, state?_beside_add, h'.same n (upper inside), Option.map_map]
      congr 1
      funext state
      rw [Function.comp_apply, State.shift_eq_rename, State.rename_rename]
      congr 1
      funext q
      exact follow_add.symm

/-- A rule does the same to the copy as to the block. -/
theorem Copies.extend (h : arena.Copies block place) {rule : Rule Fragment}
    (inside : ∀ fragment ∈ rule.operands, fragment.exit < block.size)
    (onward : ∀ k, place (k + block.size) = k + arena.size) :
    (arena.extend (rule.map (Fragment.rename place))).Copies (block.extend rule) place := by
  have entry : place block.size = arena.size := by simpa using onward 0
  have exit : place (block.size + 1) = arena.size + 1 := by simpa [Nat.add_comm] using onward 1
  cases rule with
  | empty =>
    have made := (h.push entry ⟨false, .epsilon [block.size + 1]⟩).push
      (by simpa using exit) ⟨true, .empty⟩
    simpa [Rule.map, Arena.extend, State.rename, Edges.rename, exit] using made
  | symbol c =>
    have made := (h.push entry ⟨false, .labelled (Labels.empty.insert c (block.size + 1))⟩).push
      (by simpa using exit) ⟨true, .empty⟩
    have moved : (Labels.empty.insert c (block.size + 1)).rename place =
        Labels.empty.insert c (arena.size + 1) := by rw [← exit]; rfl
    simpa [Rule.map, Arena.extend, State.rename, Edges.rename, moved] using made
  | concat first second =>
    exact h.put (inside first (by simp)) ⟨false, .epsilon [second.entry]⟩
  | union first second =>
    let tied : State := ⟨false, .epsilon [block.size + 1]⟩
    have made := (((h.put (inside first (by simp)) tied).put
      (by simpa using inside second (by simp)) tied).push (by simpa using entry)
      ⟨false, .epsilon [first.entry, second.entry]⟩).push (by simpa using exit) ⟨true, .empty⟩
    simpa [Rule.map, Arena.extend, State.rename, Edges.rename, Fragment.rename, exit, tied] using made
  | closure operand =>
    let onward : State := ⟨false, .epsilon [block.size + 1, operand.entry]⟩
    have made := ((h.put (inside operand (by simp)) onward).push (by simpa using entry)
      onward).push (by simpa using exit) ⟨true, .empty⟩
    simpa [Rule.map, Arena.extend, State.rename, Edges.rename, Fragment.rename, exit, onward] using made

end Arena

end Thompson
