import Thompson.Proofs.Heads
import Thompson.Proofs.Placement
import Thompson.Proofs.Regrouping
import Thompson.Proofs.SizeLimit

namespace Thompson

namespace Token

def symbol? : Token → Option Char
  | symbol c => some c
  | closure | union | concat => none

def symbols (tokens : List Token) : List Char :=
  tokens.filterMap symbol?

@[simp] theorem symbols_append (tokens more : List Token) :
    symbols (tokens ++ more) = symbols tokens ++ symbols more :=
  List.filterMap_append

@[simp] theorem symbols_singleton (token : Token) : symbols [token] = token.symbol?.toList := by
  cases token <;> rfl

end Token

inductive State.Thin (id : StateId) : State → Prop where
  | reads (c : Char) : Thin id ⟨false, .labelled (Labels.empty.insert c (id + 1))⟩
  | one (q : StateId) : Thin id ⟨false, .epsilon [q]⟩
  | two (q r : StateId) : Thin id ⟨false, .epsilon [q, r]⟩

theorem State.Thin.not_accepting {id : StateId} {state : State} (h : state.Thin id) :
    state.accepting = false := by
  cases h <;> rfl

theorem State.Thin.targets_ne_nil {id : StateId} {state : State} (h : state.Thin id) :
    state.targets ≠ [] := by
  cases h <;> exact List.cons_ne_nil _ _

theorem State.Thin.length_symbols {id : StateId} {state : State} (h : state.Thin id) :
    state.symbols.length ≤ 1 := by
  cases h <;> simp [symbols, Labels.insert, Labels.insertEntry, Labels.empty]

namespace Automaton

variable {first second operand : Automaton} {arena : Arena} {offset : Nat}

def Thin (block : Automaton) (arena : Arena) (offset : Nat) : Prop :=
  ∀ id < block.size, id ≠ block.exit →
    ∃ state, arena.state? (id + offset) = some state ∧ state.Thin (id + offset)

theorem thin_symbol {c : Char} (h : (Expr.symbol c).automaton.Placed arena offset) :
    (Expr.symbol c).automaton.Thin arena offset := by
  intro id inside ne
  have found := h.symbol
  match id, inside with
  | 0, _ =>
    rw [Nat.add_comm] at found
    rw [Nat.zero_add]
    exact ⟨_, found, .reads c⟩
  | 1, _ => exact absurd rfl ne

/-- The exit of an operand is thin as soon as it is tied to something. -/
theorem Thin.of_tied (h : operand.Thin arena offset) {state : State}
    (tied : arena.state? (operand.exit + offset) = some state)
    (thin : state.Thin (operand.exit + offset)) {id : StateId} (inside : id < operand.size) :
    ∃ state, arena.state? (id + offset) = some state ∧ state.Thin (id + offset) := by
  by_cases last : id = operand.exit
  · exact last ▸ ⟨state, tied, thin⟩
  · exact h id inside last

theorem Thin.join (h : (first.join second).Placed arena offset) (hf : first.Open) (hs : second.Open)
    (left : first.Thin arena offset) (right : second.Thin arena (first.size + offset)) :
    (first.join second).Thin arena offset := by
  obtain ⟨_, _, tied⟩ := h.join hf hs
  intro id inside ne
  rcases lt_size_join_cases inside with low | ⟨n, high, rfl⟩
  · exact left.of_tied tied (.one _) low
  · rw [Nat.add_assoc]
    have inner : n ≠ second.exit := fun same => ne (same ▸ rfl)
    exact right n high inner

/-- The entry of a choice has two silent moves, and each exit of its ways one. -/
theorem Thin.either (h : (first.either second).Placed arena offset) (hf : first.Open)
    (hs : second.Open) (left : first.Thin arena offset)
    (right : second.Thin arena (first.size + offset)) : (first.either second).Thin arena offset := by
  obtain ⟨_, _, entry, tied, tied'⟩ := h.either hf hs
  intro id inside ne
  rcases lt_size_either_cases inside with low | ⟨n, high, rfl⟩ | rfl | last
  · exact left.of_tied tied (.one _) low
  · rw [Nat.add_assoc]
    exact right.of_tied tied' (.one _) high
  · exact ⟨_, entry, .two _ _⟩
  · exact absurd last ne

/-- The entry of a loop has two silent moves, and so has the exit of what it repeats. -/
theorem Thin.loop (h : operand.loop.Placed arena offset) (ho : operand.Open)
    (inner : operand.Thin arena offset) : operand.loop.Thin arena offset := by
  obtain ⟨_, entry, tied⟩ := h.loop ho
  intro id inside ne
  rcases lt_size_loop_cases inside with low | rfl | last
  · exact inner.of_tied tied (.two _ _) low
  · exact ⟨_, entry, .two _ _⟩
  · exact absurd last ne

end Automaton

namespace Expr

/-- By the expression: an operator ties the exits of its operands and adds a thin entry. -/
theorem thin_automaton (x : Expr) {arena : Arena} {offset : Nat}
    (h : x.automaton.Placed arena offset) : x.automaton.Thin arena offset := by
  induction x generalizing offset with
  | symbol c => exact Automaton.thin_symbol h
  | concat left right ihl ihr =>
    obtain ⟨first, second, _⟩ := h.join left.open_automaton right.open_automaton
    exact .join h left.open_automaton right.open_automaton (ihl first) (ihr second)
  | union left right ihl ihr =>
    obtain ⟨first, second, _⟩ := h.either left.open_automaton right.open_automaton
    exact .either h left.open_automaton right.open_automaton (ihl first) (ihr second)
  | star operand ih =>
    obtain ⟨inner, _⟩ := h.loop operand.open_automaton
    exact .loop h operand.open_automaton (ih inner)

/-- Two states for each symbol, union and star. A concatenation makes none. -/
theorem size_automaton (x : Expr) : x.automaton.size =
    2 * ((Token.symbols x.tokens).length + x.tokens.count .union + x.tokens.count .closure) := by
  induction x with
  | symbol c => rfl
  | concat left right ihl ihr =>
    rw [automaton, Automaton.size_join, ihl, ihr]
    simp [tokens, Token.symbol?]
    omega
  | union left right ihl ihr =>
    rw [automaton, Automaton.size_either, ihl, ihr]
    simp [tokens, Token.symbol?]
    omega
  | star operand ih =>
    rw [automaton, Automaton.size_loop, ih]
    simp [tokens, Token.symbol?]
    omega

/-- States come in pairs, an entry before its exit, and blocks are laid side by side. -/
theorem even_entry (x : Expr) : 2 ∣ x.automaton.entry := by
  have even (y : Expr) : 2 ∣ y.automaton.size := y.size_automaton ▸ Nat.dvd_mul_right ..
  induction x with
  | symbol c => exact Nat.dvd_zero _
  | concat left right ih _ => exact ih
  | union left right _ _ => exact Nat.dvd_add (even left) (even right)
  | star operand _ => exact even operand

/-- Reading the states in order gives the symbols in the order of the text. -/
theorem symbols_automaton (x : Expr) : x.automaton.arena.symbols = Token.symbols x.tokens := by
  induction x with
  | symbol c => rfl
  | concat left right ihl ihr =>
    have ready := left.open_automaton.ready_concat right.open_automaton
    rw [automaton, Automaton.arena_join, Arena.symbols_extend ready, Arena.symbols_beside, ihl, ihr]
    simp [tokens, Token.symbol?, Rule.symbols]
  | union left right ihl ihr =>
    have ready := left.open_automaton.ready_union right.open_automaton
    rw [automaton, Automaton.arena_either, Arena.symbols_extend ready, Arena.symbols_beside, ihl, ihr]
    simp [tokens, Token.symbol?, Rule.symbols]
  | star operand ih =>
    have ready := operand.open_automaton.ready_closure
    rw [automaton, Automaton.arena_loop, Arena.symbols_extend ready, ih]
    simp [tokens, Token.symbol?, Rule.symbols]

/-- One edge for each symbol and concatenation, four for each union and star. -/
theorem length_heads (x : Expr) : x.automaton.arena.heads.length =
    (Token.symbols x.tokens).length + x.tokens.count .concat +
      4 * (x.tokens.count .union + x.tokens.count .closure) := by
  induction x with
  | symbol c => rfl
  | concat left right ihl ihr =>
    have ready := left.open_automaton.ready_concat right.open_automaton
    rw [automaton, Automaton.arena_join, (Arena.heads_extend ready).length_eq, Arena.heads_beside]
    simp [tokens, Token.symbol?, Rule.heads, ihl, ihr]
    omega
  | union left right ihl ihr =>
    have ready := left.open_automaton.ready_union right.open_automaton
    rw [automaton, Automaton.arena_either, (Arena.heads_extend ready).length_eq, Arena.heads_beside]
    simp [tokens, Token.symbol?, Rule.heads, ihl, ihr]
    omega
  | star operand ih =>
    have ready := operand.open_automaton.ready_closure
    rw [automaton, Automaton.arena_loop, (Arena.heads_extend ready).length_eq]
    simp [tokens, Token.symbol?, Rule.heads, ih]
    omega

end Expr

/-- If no state reads two symbols, there are as many symbols as states that read one. -/
theorem Arena.length_symbols {arena : Arena}
    (slim : ∀ state ∈ arena.states.toList, state.symbols.length ≤ 1) :
    arena.symbols.length = arena.states.toList.countP (·.symbols ≠ []) := by
  simp only [symbols]
  generalize arena.states.toList = states at slim
  induction states with
  | nil => rfl
  | cons state rest ih =>
    have one : state.symbols.length = if state.symbols ≠ [] then 1 else 0 := by
      have at_most := slim state List.mem_cons_self
      cases shape : state.symbols with
      | nil => rfl
      | cons c more =>
        rw [shape] at at_most
        exact Nat.le_antisymm at_most (Nat.le_add_left _ _)
    rw [List.flatMap_cons, List.length_append, List.countP_cons, one,
      ih fun other later => slim other (List.mem_cons_of_mem _ later), Nat.add_comm]
    simp

namespace Automaton

structure Normal (automaton : Automaton) (tokens : List Token) : Prop where
  size : automaton.size =
    2 * ((Token.symbols tokens).length + tokens.count .union + tokens.count .closure)
  last : automaton.exit + 1 = automaton.size
  even : 2 ∣ automaton.entry
  accepting : ∀ id state, automaton.arena.state? id = some state →
    (state.accepting = true ↔ id = automaton.exit)
  final : ∀ id state, automaton.arena.state? id = some state →
    (state.targets = [] ↔ id = automaton.exit)
  source : ∀ p, ¬automaton.arena.Leads State.targets p automaton.entry
  thin : ∀ id state, automaton.arena.state? id = some state → id ≠ automaton.exit → state.Thin id
  readers : automaton.arena.states.toList.countP (·.symbols ≠ []) = (Token.symbols tokens).length
  symbols : automaton.arena.symbols = Token.symbols tokens
  meet : ∀ q, automaton.arena.heads.count q ≤ 2
  edges : automaton.arena.heads.length = (Token.symbols tokens).length + tokens.count .concat +
    4 * (tokens.count .union + tokens.count .closure)

end Automaton

namespace Expr

variable {x : Expr} {id : StateId} {state : State}

theorem exit_or_thin (found : x.automaton.arena.state? id = some state) :
    id = x.automaton.exit ∧ state = ⟨true, .empty⟩ ∨ id ≠ x.automaton.exit ∧ state.Thin id := by
  by_cases last : id = x.automaton.exit
  · subst last
    exact .inl ⟨rfl, Option.some.inj (found.symm.trans x.open_automaton)⟩
  · obtain ⟨state', found', thin⟩ :=
      x.thin_automaton (Automaton.placed_self _) id (Arena.lt_of_state? found) last
    cases found.symm.trans found'
    exact .inr ⟨last, thin⟩

theorem length_symbols_le (found : state ∈ x.automaton.arena.states.toList) :
    state.symbols.length ≤ 1 := by
  obtain ⟨id, found⟩ := Arena.mem_states_iff.mp found
  rcases exit_or_thin found with ⟨_, rfl⟩ | ⟨_, thin⟩
  · exact Nat.zero_le _
  · exact thin.length_symbols

theorem normal_automaton (x : Expr) : x.automaton.Normal x.tokens where
  size := x.size_automaton
  last := x.compact_automaton.last
  even := x.even_entry
  accepting id state found := by
    rcases exit_or_thin found with ⟨last, rfl⟩ | ⟨ne, thin⟩
    · simp [last]
    · simp [ne, thin.not_accepting]
  final id state found := by
    rcases exit_or_thin found with ⟨last, rfl⟩ | ⟨ne, thin⟩
    · simp [last, State.targets, Edges.targets]
    · simp [ne, thin.targets_ne_nil]
  source p led := x.sparse_automaton.source (Arena.mem_heads_iff.mpr ⟨p, led⟩)
  thin id state found ne := by
    rcases exit_or_thin found with ⟨last, _⟩ | ⟨_, thin⟩
    · exact absurd last ne
    · exact thin
  readers := by
    rw [← Arena.length_symbols fun _ found => length_symbols_le found, x.symbols_automaton]
  symbols := x.symbols_automaton
  meet := x.sparse_automaton.meet
  edges := x.length_heads

end Expr

namespace Compiler

/-- Whatever is compiled from tokens has the shape that they tell. -/
theorem compile_normal {compiler : Compiler} {tokens : List Token} {automaton : Automaton}
    (ne : tokens ≠ []) (h : compiler.compile tokens = .ok automaton) : automaton.Normal tokens := by
  rcases compile_eq_ok_iff.mp (compile_unlimited h) with ⟨empty, _⟩ | ⟨x, rfl, rfl⟩
  · exact absurd empty ne
  · exact x.normal_automaton

/-- A choice between two symbols in a row and a third one, under a star. -/
theorem compile_normal_choice :
    ∃ automaton, (⟨some 10⟩ : Compiler).compile
        [.symbol 'a', .symbol 'b', .concat, .symbol 'c', .union, .closure] = .ok automaton ∧
      automaton.Normal [.symbol 'a', .symbol 'b', .concat, .symbol 'c', .union, .closure] := by
  have room : (⟨some 10⟩ : Compiler).Allows 10 := exceeded?_eq_none_iff.mp rfl
  have compiled := compile_tokens
    (.star (.union (.concat (.symbol 'a') (.symbol 'b')) (.symbol 'c'))) room
  exact ⟨_, compiled, compile_normal (by simp) compiled⟩

end Compiler

end Thompson
