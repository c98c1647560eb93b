import Mathlib.Data.List.Perm.Lattice
import Thompson.Proofs.Block

namespace Thompson

def State.symbols (state : State) : List Char :=
  match state.edges with
  | .labelled labels => labels.entries.map Prod.fst
  | .empty | .epsilon _ => []

namespace Rule

def heads (size : Nat) : Rule Fragment → List StateId
  | empty | symbol _ => [size + 1]
  | concat _ second => [second.entry]
  | union first second => [size + 1, size + 1, first.entry, second.entry]
  | closure operand => [size + 1, operand.entry, size + 1, operand.entry]

def symbols {α : Type} : Rule α → List Char
  | symbol c => [c]
  | empty | concat _ _ | union _ _ | closure _ => []

variable {rule : Rule Fragment} {size : Nat} {q : StateId}

theorem eq_of_mem_heads (h : q ∈ rule.heads size) :
    q = size + 1 ∨ ∃ fragment ∈ rule.operands, q = fragment.entry := by
  cases rule <;> simp only [heads, List.mem_cons, List.not_mem_nil, or_false] at h <;>
    simp only [operands] <;> grind

/-- The new exit is none of the old entries, so that at most two of the edges meet. -/
theorem count_heads_le (entries : ∀ fragment ∈ rule.operands, fragment.entry < size)
    (q : StateId) : (rule.heads size).count q ≤ 2 := by
  cases rule with
  | union first second =>
    have below : first.entry < size := entries first (by simp)
    have below' : second.entry < size := entries second (by simp)
    simp only [heads, List.count_cons, List.count_nil, beq_iff_eq]
    grind
  | closure operand =>
    have below : operand.entry < size := entries operand (by simp)
    simp only [heads, List.count_cons, List.count_nil, beq_iff_eq]
    grind
  | empty | symbol _ | concat _ _ => exact List.count_le_length.trans (by simp [heads])

end Rule

namespace Arena

section List

variable {β : Type} {f : State → List β} {states : List State} {old new : State} {id : Nat}

/-- What an empty place comes to give is added to what the others give, in whatever order. -/
theorem flatMap_set_perm (found : states[id]? = some old) (none : f old = []) :
    ((states.set id new).flatMap f).Perm (states.flatMap f ++ f new) := by
  induction states generalizing id with
  | nil => simp at found
  | cons state rest ih =>
    cases id with
    | zero =>
      cases found
      rw [List.set_cons_zero, List.flatMap_cons, List.flatMap_cons, none]
      exact List.perm_append_comm
    | succ id =>
      rw [List.set_cons_succ, List.flatMap_cons, List.flatMap_cons, List.append_assoc]
      exact (ih found).append_left _

theorem flatMap_set_of_eq (found : states[id]? = some old) (same : f new = f old) :
    (states.set id new).flatMap f = states.flatMap f := by
  induction states generalizing id with
  | nil => simp at found
  | cons state rest ih =>
    cases id with
    | zero =>
      cases found
      rw [List.set_cons_zero, List.flatMap_cons, List.flatMap_cons, same]
    | succ id =>
      rw [List.set_cons_succ, List.flatMap_cons, List.flatMap_cons, ih found]

end List

def heads (arena : Arena) : List StateId :=
  arena.states.toList.flatMap State.targets

def symbols (arena : Arena) : List Char :=
  arena.states.toList.flatMap State.symbols

variable {arena block : Arena} {rule : Rule Fragment} {state : State} {id : StateId} {bound : Nat}

@[simp] theorem heads_push : (arena.push state).heads = arena.heads ++ state.targets := by
  simp [heads, push]

@[simp] theorem symbols_push : (arena.push state).symbols = arena.symbols ++ state.symbols := by
  simp [symbols, push]

theorem getElem?_toList_states (id : StateId) : arena.states.toList[id]? = arena.state? id :=
  Array.getElem?_toList

theorem mem_states_iff : state ∈ arena.states.toList ↔ ∃ id, arena.state? id = some state := by
  simp only [List.mem_iff_getElem?, getElem?_toList_states]

/-- An exit that is still open has no edges of its own, so that those of the new state come on top.
-/
theorem heads_put (opened : arena.state? id = some ⟨true, .empty⟩) (state : State) :
    (arena.put id state).heads.Perm (arena.heads ++ state.targets) := by
  simp only [heads, put, Array.toList_setIfInBounds]
  exact flatMap_set_perm ((getElem?_toList_states id).trans opened) rfl

theorem symbols_put (opened : arena.state? id = some ⟨true, .empty⟩) (silent : state.symbols = []) :
    (arena.put id state).symbols = arena.symbols := by
  simp only [symbols, put, Array.toList_setIfInBounds]
  exact flatMap_set_of_eq ((getElem?_toList_states id).trans opened) silent

theorem mem_heads_iff {q : StateId} : q ∈ arena.heads ↔ ∃ p, arena.Leads State.targets p q := by
  simp only [heads, List.mem_flatMap, mem_states_iff, Leads]
  constructor
  · rintro ⟨state, ⟨p, found⟩, target⟩
    exact ⟨p, state, found, target⟩
  · rintro ⟨p, state, found, target⟩
    exact ⟨state, ⟨p, found⟩, target⟩

theorem LeadsBelow.lt_of_mem_heads (h : arena.LeadsBelow bound) {q : StateId}
    (target : q ∈ arena.heads) : q < bound := by
  obtain ⟨p, state, found, target⟩ := mem_heads_iff.mp target
  exact h p state found q target

theorem heads_beside :
    (arena.beside block).heads = arena.heads ++ block.heads.map (· + arena.size) := by
  simp [heads, beside, List.flatMap_map, List.map_flatMap]

theorem symbols_beside : (arena.beside block).symbols = arena.symbols ++ block.symbols := by
  have same (state : State) : (state.shift arena.size).symbols = state.symbols := by
    obtain ⟨accepting, edges⟩ := state
    cases edges <;> simp [State.shift, Edges.shift, Labels.shift, State.symbols]
  simp [symbols, beside, List.flatMap_map, same]

theorem Ready.opened_second {first second : Fragment} (ready : arena.Ready (.union first second))
    (tied : State) : (arena.put first.exit tied).state? second.exit = some ⟨true, .empty⟩ := by
  have ne : first.exit ≠ second.exit := by simpa using ready.distinct
  exact (state?_put_of_ne (lt_of_state? (ready.opened first (by simp))) ne).trans
    (ready.opened second (by simp))

/-- A rule adds its own edges to those there are. -/
theorem heads_extend (ready : arena.Ready rule) :
    (arena.extend rule).heads.Perm (arena.heads ++ rule.heads arena.size) := by
  have none : State.targets ⟨true, .empty⟩ = [] := rfl
  cases rule with
  | empty => simp [extend, Rule.heads, targets_epsilon, none]
  | symbol c =>
    have one : State.targets ⟨false, .labelled (Labels.empty.insert c (arena.size + 1))⟩ =
        [arena.size + 1] := rfl
    simp [extend, Rule.heads, one, none]
  | concat first second => exact heads_put (ready.opened first (by simp)) _
  | union first second =>
    let tied : State := ⟨false, .epsilon [arena.size + 1]⟩
    have grown := (heads_put (ready.opened_second tied) tied).trans
      ((heads_put (ready.opened first (by simp)) tied).append_right _)
    simpa [extend, Rule.heads, targets_epsilon, none, tied] using grown.append_right _
  | closure operand =>
    have grown := heads_put (ready.opened operand (by simp))
      ⟨false, .epsilon [arena.size + 1, operand.entry]⟩
    simpa [extend, Rule.heads, targets_epsilon, none] using grown.append_right _

/-- Symbols come in the order in which the rules for them are carried out. -/
theorem symbols_extend (ready : arena.Ready rule) :
    (arena.extend rule).symbols = arena.symbols ++ rule.symbols := by
  cases rule with
  | empty => simp [extend, State.symbols, Rule.symbols]
  | symbol c =>
    simp [extend, State.symbols, Rule.symbols, Labels.insert, Labels.insertEntry, Labels.empty]
  | concat first second =>
    rw [Rule.symbols, List.append_nil]
    exact symbols_put (ready.opened first (by simp)) rfl
  | union first second =>
    let tied : State := ⟨false, .epsilon [arena.size + 1]⟩
    have kept : ((arena.put first.exit tied).put second.exit tied).symbols = arena.symbols :=
      (symbols_put (ready.opened_second tied) rfl).trans
        (symbols_put (ready.opened first (by simp)) rfl)
    simp [extend, State.symbols, Rule.symbols, kept, tied]
  | closure operand =>
    let onward : State := ⟨false, .epsilon [arena.size + 1, operand.entry]⟩
    have kept : (arena.put operand.exit onward).symbols = arena.symbols :=
      symbols_put (ready.opened operand (by simp)) rfl
    simp [extend, State.symbols, Rule.symbols, kept, onward]

/-- The places that a rule leads to were led to by nothing, so that no third edge comes to one. -/
theorem count_heads_extend_le (ready : arena.Ready rule) (inner : arena.LeadsBelow arena.size)
    (entries : ∀ fragment ∈ rule.operands, fragment.entry < arena.size ∧ fragment.entry ∉ arena.heads)
    (meet : ∀ q, arena.heads.count q ≤ 2) (q : StateId) : (arena.extend rule).heads.count q ≤ 2 := by
  rw [(heads_extend ready).count_eq, List.count_append]
  by_cases new : q ∈ rule.heads arena.size
  · have unmet : q ∉ arena.heads := by
      rcases Rule.eq_of_mem_heads new with rfl | ⟨fragment, hf, rfl⟩
      · exact fun old => Nat.not_succ_lt_self (inner.lt_of_mem_heads old)
      · exact (entries fragment hf).2
    rw [List.count_eq_zero_of_not_mem unmet, Nat.zero_add]
    exact Rule.count_heads_le (fun fragment hf => (entries fragment hf).1) q
  · rw [List.count_eq_zero_of_not_mem new]
    exact meet q

/-- An entry that the rule makes is new as well. -/
theorem size_not_mem_heads_extend (ready : arena.Ready rule) (inner : arena.LeadsBelow arena.size)
    (entries : ∀ fragment ∈ rule.operands, fragment.entry < arena.size) :
    arena.size ∉ (arena.extend rule).heads := by
  rw [(heads_extend ready).mem_iff, List.mem_append]
  rintro (old | new)
  · exact Nat.lt_irrefl _ (inner.lt_of_mem_heads old)
  · rcases Rule.eq_of_mem_heads new with same | ⟨fragment, hf, same⟩
    · exact Nat.ne_of_lt (Nat.lt_succ_self _) same
    · exact Nat.ne_of_gt (entries fragment hf) same

theorem not_mem_heads_moved {q : StateId} (low : q < arena.size) :
    q ∉ block.heads.map (· + arena.size) := by
  intro moved
  obtain ⟨r, _, rfl⟩ := List.mem_map.mp moved
  exact Nat.not_lt.mpr (Nat.le_add_left _ _) low

theorem mem_heads_beside_iff_of_lt {q : StateId} (low : q < arena.size) :
    q ∈ (arena.beside block).heads ↔ q ∈ arena.heads := by
  rw [heads_beside, List.mem_append, or_iff_left (not_mem_heads_moved low)]

theorem add_mem_heads_beside_iff (inner : arena.LeadsBelow arena.size) {q : StateId} :
    q + arena.size ∈ (arena.beside block).heads ↔ q ∈ block.heads := by
  rw [heads_beside, List.mem_append, or_iff_right, List.mem_map]
  · constructor
    · rintro ⟨r, found, same⟩
      exact Nat.add_right_cancel same ▸ found
    · exact fun found => ⟨q, found, rfl⟩
  · exact fun old => Nat.not_lt.mpr (Nat.le_add_left _ _) (inner.lt_of_mem_heads old)

/-- The edges of two blocks do not meet, so that no place has more of them than in its own block. -/
theorem count_heads_beside_le (inner : arena.LeadsBelow arena.size)
    (meet : ∀ q, arena.heads.count q ≤ 2) (meet' : ∀ q, block.heads.count q ≤ 2) (q : StateId) :
    (arena.beside block).heads.count q ≤ 2 := by
  rw [heads_beside, List.count_append]
  by_cases low : q < arena.size
  · rw [List.count_eq_zero_of_not_mem (not_mem_heads_moved low)]
    exact meet q
  · obtain ⟨r, rfl⟩ := Nat.exists_eq_add_of_le' (Nat.le_of_not_lt low)
    have apart : r + arena.size ∉ arena.heads := fun old => low (inner.lt_of_mem_heads old)
    have moved := List.count_map_of_injective block.heads (· + arena.size)
      (fun _ _ => Nat.add_right_cancel) r
    rw [List.count_eq_zero_of_not_mem apart, Nat.zero_add, moved]
    exact meet' r

end Arena

namespace Automaton

variable {first second operand : Automaton}

structure Sparse (automaton : Automaton) : Prop where
  source : automaton.entry ∉ automaton.arena.heads
  meet : ∀ q, automaton.arena.heads.count q ≤ 2

/-- Side by side, both blocks still have entries that nothing leads to. -/
theorem Sparse.entries_pair (h : first.Sparse) (h' : second.Sparse) (hf : first.Compact)
    (hs : second.Compact) {rule : Rule Fragment}
    (operands : rule.operands = [first.fragment, second.fragment.shift first.size]) :
    ∀ fragment ∈ rule.operands, fragment.entry < (first.arena.beside second.arena).size ∧
      fragment.entry ∉ (first.arena.beside second.arena).heads := by
  intro fragment found
  rw [operands] at found
  rcases List.mem_pair.mp found with rfl | rfl
  · exact ⟨Arena.lt_size_beside hf.entry_lt_size,
      fun led => h.source ((Arena.mem_heads_beside_iff_of_lt hf.entry_lt_size).mp led)⟩
  · exact ⟨Arena.add_lt_size_beside hs.entry_lt_size,
      fun led => h'.source ((Arena.add_mem_heads_beside_iff hf.inner).mp led)⟩

/-- A rule for two blocks leads to their entries and to its own exit, and to none of these does
anything lead so far. -/
theorem Sparse.meet_pair (h : first.Sparse) (h' : second.Sparse) (hf : first.Compact)
    (hs : second.Compact) {rule : Rule Fragment}
    (operands : rule.operands = [first.fragment, second.fragment.shift first.size]) (q : StateId) :
    ((first.arena.beside second.arena).extend rule).heads.count q ≤ 2 :=
  Arena.count_heads_extend_le (hf.exit.ready_pair hs.exit operands) (hf.inner.beside hs.inner)
    (h.entries_pair h' hf hs operands) (Arena.count_heads_beside_le hf.inner h.meet h'.meet) q

theorem sparse_symbol (c : Char) : (Expr.symbol c).automaton.Sparse := by
  have heads : (Expr.symbol c).automaton.arena.heads = [1] := rfl
  refine ⟨?_, fun q => ?_⟩
  · rw [heads]
    change (0 : StateId) ∉ [1]
    decide
  · rw [heads]
    exact List.count_le_length.trans (by simp)

/-- The tie leads to the entry of the second block, which nothing led to before. -/
theorem Sparse.join (h : first.Sparse) (h' : second.Sparse) (hf : first.Compact) (hs : second.Compact) :
    (first.join second).Sparse := by
  let rule : Rule Fragment := .concat first.fragment (second.fragment.shift first.size)
  have entries := h.entries_pair h' hf hs (Eq.refl rule.operands)
  refine ⟨?_, fun q => ?_⟩
  · rw [arena_join, (Arena.heads_extend (hf.exit.ready_concat hs.exit)).mem_iff, List.mem_append]
    rintro (old | new)
    · exact (entries first.fragment List.mem_cons_self).2 old
    · -- The one new edge leads to the second entry, which stands behind the first block.
      have same : first.entry = second.entry + first.size := List.mem_singleton.mp new
      exact Nat.ne_of_lt (Nat.lt_add_left _ hf.entry_lt_size) same
  · rw [arena_join]
    exact h.meet_pair h' hf hs rfl q

theorem Sparse.either (h : first.Sparse) (h' : second.Sparse) (hf : first.Compact)
    (hs : second.Compact) : (first.either second).Sparse := by
  let rule : Rule Fragment := .union first.fragment (second.fragment.shift first.size)
  have entries := h.entries_pair h' hf hs (Eq.refl rule.operands)
  refine ⟨?_, fun q => ?_⟩
  · have new := Arena.size_not_mem_heads_extend (hf.exit.ready_union hs.exit)
      (hf.inner.beside hs.inner) fun fragment found => (entries fragment found).1
    rwa [← arena_either, Arena.size_beside] at new
  · rw [arena_either]
    exact h.meet_pair h' hf hs rfl q

/-- The entry of the operand is led to twice, and the new entry not at all. -/
theorem Sparse.loop (h : operand.Sparse) (compact : operand.Compact) : operand.loop.Sparse := by
  have ready := compact.exit.ready_closure
  have entries (fragment : Fragment)
      (found : fragment ∈ (Rule.closure operand.fragment).operands) :
      fragment.entry < operand.arena.size ∧ fragment.entry ∉ operand.arena.heads := by
    cases List.mem_singleton.mp found
    exact ⟨compact.entry_lt_size, h.source⟩
  refine ⟨?_, fun q => ?_⟩
  · exact Arena.size_not_mem_heads_extend ready compact.inner
      fun fragment found => (entries fragment found).1
  · exact Arena.count_heads_extend_le ready compact.inner entries h.meet q

end Automaton

/-- By the expression: no block leads to its own entry, which leaves room for the two edges of a
rule. -/
theorem Expr.sparse_automaton (x : Expr) : x.automaton.Sparse := by
  induction x with
  | symbol c => exact Automaton.sparse_symbol c
  | concat left right ihl ihr =>
    exact ihl.join ihr left.compact_automaton right.compact_automaton
  | union left right ihl ihr =>
    exact ihl.either ihr left.compact_automaton right.compact_automaton
  | star operand ih => exact ih.loop operand.compact_automaton

end Thompson
