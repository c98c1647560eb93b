import Mathlib.Data.List.Nodup
import Thompson.Proofs.Build

namespace Thompson

namespace Labels

variable {labels other : Labels} {m n : Nat}

def shift (offset : Nat) (labels : Labels) : Labels :=
  ⟨labels.entries.map fun entry => (entry.1, entry.2 + offset),
    labels.ascending.map _ fun _ _ below => below⟩

theorem ext_entries (h : labels.entries = other.entries) : labels = other := by
  cases labels
  cases other
  cases h
  rfl

@[simp] theorem shift_zero (labels : Labels) : labels.shift 0 = labels :=
  ext_entries (by simp [shift])

@[simp] theorem shift_shift : (labels.shift m).shift n = labels.shift (m + n) :=
  ext_entries (by simp [shift, Nat.add_assoc])

@[simp] theorem targets_shift : (labels.shift n).targets = labels.targets.map (· + n) := by
  simp [targets, shift]

theorem shift_injective (n : Nat) : Function.Injective (shift n) := by
  intro labels other h
  apply ext_entries
  refine List.map_injective_iff.mpr ?_ (congrArg entries h)
  rintro ⟨c, p⟩ ⟨d, q⟩ same
  simpa using same

end Labels

namespace Edges

variable {edges : Edges} {m n : Nat}

def shift (offset : Nat) : Edges → Edges
  | empty => empty
  | labelled labels => labelled (labels.shift offset)
  | epsilon targets => epsilon (targets.map (· + offset))

@[simp] theorem shift_zero (edges : Edges) : edges.shift 0 = edges := by
  cases edges <;> simp [shift]

@[simp] theorem shift_shift : (edges.shift m).shift n = edges.shift (m + n) := by
  cases edges with
  | empty => rfl
  | labelled labels => exact congrArg labelled (Labels.shift_shift ..)
  | epsilon targets => simp only [shift, List.map_map, Function.comp_def, Nat.add_assoc]

@[simp] theorem targets_shift : (edges.shift n).targets = edges.targets.map (· + n) := by
  cases edges <;> simp [shift, targets]

@[simp] theorem epsilons_shift : (edges.shift n).epsilons = edges.epsilons.map (· + n) := by
  cases edges <;> simp [shift, epsilons]

theorem shift_injective (n : Nat) : Function.Injective (shift n) := by
  intro edges other h
  cases edges with
  | empty => cases other <;> first | rfl | cases h
  | labelled labels =>
    cases other with
    | labelled labels' => exact congrArg labelled (Labels.shift_injective n (labelled.inj h))
    | empty | epsilon _ => cases h
  | epsilon targets =>
    cases other with
    | epsilon targets' =>
      have each : Function.Injective (· + n) := fun p q same => Nat.add_right_cancel same
      exact congrArg epsilon (List.map_injective_iff.mpr each (epsilon.inj h))
    | empty | labelled _ => cases h

end Edges

namespace State

variable {state : State} {m n : Nat}

def shift (offset : Nat) (state : State) : State :=
  { state with edges := state.edges.shift offset }

@[simp] theorem shift_zero (state : State) : state.shift 0 = state := by
  simp [shift]

@[simp] theorem shift_shift : (state.shift m).shift n = state.shift (m + n) := by
  simp [shift]

@[simp] theorem targets_shift : (state.shift n).targets = state.targets.map (· + n) :=
  Edges.targets_shift

@[simp] theorem epsilons_shift : (state.shift n).epsilons = state.epsilons.map (· + n) :=
  Edges.epsilons_shift

theorem shift_injective (n : Nat) : Function.Injective (shift n) := by
  rintro ⟨accepting, edges⟩ ⟨accepting', edges'⟩ h
  obtain ⟨rfl, same⟩ := State.mk.inj h
  exact congrArg (State.mk accepting) (Edges.shift_injective n same)

end State

def Fragment.shift (offset : Nat) (fragment : Fragment) : Fragment :=
  ⟨fragment.entry + offset, fragment.exit + offset⟩

@[simp] theorem Fragment.shift_shift {fragment : Fragment} {m n : Nat} :
    (fragment.shift m).shift n = fragment.shift (m + n) := by
  simp [shift, Nat.add_assoc]

theorem Rule.fragment_shift {rule : Rule Fragment} {size n : Nat} :
    (rule.map (Fragment.shift n)).fragment (n + size) = (rule.fragment size).shift n := by
  cases rule <;> simp only [map, fragment, Fragment.shift, Nat.add_comm n, Nat.add_right_comm]

namespace Arena

def beside (first second : Arena) : Arena :=
  ⟨first.states ++ second.states.map (State.shift first.size)⟩

variable {arena block other : Arena} {id : StateId} {state : State}

@[simp] theorem size_beside : (arena.beside block).size = arena.size + block.size := by
  simp [beside, size]

theorem lt_size_beside (h : id < arena.size) : id < (arena.beside block).size := by
  rw [size_beside]
  exact Nat.lt_add_right _ h

theorem add_lt_size_beside (h : id < block.size) :
    id + arena.size < (arena.beside block).size := by
  rw [size_beside, Nat.add_comm]
  exact Nat.add_lt_add_left h _

theorem state?_beside_of_lt (h : id < arena.size) :
    (arena.beside block).state? id = arena.state? id :=
  Array.getElem?_append_left h

/-- A state of the second arena is found behind the first one, with its edges moved. -/
theorem state?_beside_add :
    (arena.beside block).state? (id + arena.size) =
      (block.state? id).map (State.shift arena.size) := by
  change (arena.states ++ _)[id + arena.states.size]? = _
  rw [Array.getElem?_append_right (Nat.le_add_left _ _), Nat.add_sub_cancel, Array.getElem?_map]
  rfl

/-- An arena is known from its states below and from the place where the first one ends. -/
theorem eq_beside (below : ∀ id < arena.size, other.state? id = arena.state? id)
    (above : ∀ id, other.state? (id + arena.size) =
      (block.state? id).map (State.shift arena.size)) : other = arena.beside block := by
  refine ext_state? fun id => ?_
  by_cases h : id < arena.size
  · rw [below id h, state?_beside_of_lt h]
  · obtain ⟨n, rfl⟩ := Nat.exists_eq_add_of_le' (Nat.le_of_not_lt h)
    rw [above, state?_beside_add]

@[simp] theorem beside_empty : arena.beside {} = arena := by
  simp [beside]

@[simp] theorem empty_beside : ({} : Arena).beside block = block :=
  (eq_beside (fun _ h => absurd h (Nat.not_lt_zero _)) fun id => by
    change block.state? id = (block.state? id).map (State.shift 0)
    simp [funext State.shift_zero]).symm

/-- Three arenas in a row can be put together from either end. -/
theorem beside_assoc : (arena.beside block).beside other = arena.beside (block.beside other) := by
  apply eq_beside
  · intro id h
    rw [state?_beside_of_lt (lt_size_beside h), state?_beside_of_lt h]
  · intro id
    by_cases h : id < block.size
    · rw [state?_beside_of_lt (add_lt_size_beside h), state?_beside_add, state?_beside_of_lt h]
    · obtain ⟨n, rfl⟩ := Nat.exists_eq_add_of_le' (Nat.le_of_not_lt h)
      have place : n + block.size + arena.size = n + (arena.beside block).size := by
        rw [size_beside, Nat.add_comm arena.size, Nat.add_assoc]
      rw [place, state?_beside_add, state?_beside_add, Option.map_map]
      congr 1
      funext state
      simp [Nat.add_comm]

theorem put_beside_of_lt (h : id < arena.size) :
    (arena.beside block).put id state = (arena.put id state).beside block := by
  have inside : id < (arena.beside block).size := lt_size_beside h
  apply eq_beside
  · intro other below
    rw [size_put] at below
    rw [state?_put inside, state?_put h, state?_beside_of_lt below]
  · intro other
    have ne : id ≠ other + arena.size := Nat.ne_of_lt (Nat.lt_add_left _ h)
    rw [size_put, state?_put_of_ne inside ne, state?_beside_add]

theorem put_beside_add (h : id < block.size) :
    (arena.beside block).put (id + arena.size) (state.shift arena.size) =
      arena.beside (block.put id state) := by
  have inside : id + arena.size < (arena.beside block).size := add_lt_size_beside h
  apply eq_beside
  · intro other below
    have ne : id + arena.size ≠ other := (Nat.ne_of_lt (Nat.lt_add_left _ below)).symm
    rw [state?_put_of_ne inside ne, state?_beside_of_lt below]
  · intro other
    rw [state?_put inside, state?_put h, state?_beside_add]
    simp only [Nat.add_right_cancel_iff]
    split <;> rfl

theorem push_beside :
    (arena.beside block).push (state.shift arena.size) = arena.beside (block.push state) := by
  simp [beside, push]

/-- A rule for moved fragments does what it does without the arena in front, moved. -/
theorem extend_beside {rule : Rule Fragment} (ready : block.Ready rule) :
    (arena.beside block).extend (rule.map (Fragment.shift arena.size)) =
      arena.beside (block.extend rule) := by
  have inside (fragment : Fragment) (h : fragment ∈ rule.operands) : fragment.exit < block.size :=
    lt_of_state? (ready.opened fragment h)
  have place : (arena.beside block).size + 1 = block.size + 1 + arena.size := by
    rw [size_beside, Nat.add_comm arena.size, Nat.add_right_comm]
  cases rule with
  | empty =>
    simp only [Rule.map, extend, place, ← push_beside]
    rfl
  | symbol c =>
    simp only [Rule.map, extend, place, ← push_beside]
    rfl
  | concat first second =>
    simp only [Rule.map, extend, ← put_beside_add (inside first (by simp))]
    rfl
  | union first second =>
    have inside' : second.exit < (block.put first.exit ⟨false, .epsilon [block.size + 1]⟩).size := by
      rw [size_put]
      exact inside second (by simp)
    simp only [Rule.map, extend, place, ← push_beside, ← put_beside_add inside',
      ← put_beside_add (inside first (by simp))]
    rfl
  | closure operand =>
    simp only [Rule.map, extend, place, ← push_beside, ← put_beside_add (inside operand (by simp))]
    rfl

theorem Ready.beside {rule : Rule Fragment} (ready : block.Ready rule) :
    (arena.beside block).Ready (rule.map (Fragment.shift arena.size)) := by
  constructor
  · intro fragment hf
    rw [Rule.operands_map] at hf
    obtain ⟨operand, ho, rfl⟩ := List.mem_map.mp hf
    change (arena.beside block).state? (operand.exit + arena.size) = _
    rw [state?_beside_add, ready.opened operand ho]
    rfl
  · have moved : Fragment.exit ∘ Fragment.shift arena.size = (· + arena.size) ∘ Fragment.exit := rfl
    rw [Rule.operands_map, List.map_map, moved, ← List.map_map]
    exact List.Nodup.map (fun _ _ => Nat.add_right_cancel) ready.distinct

end Arena

end Thompson
