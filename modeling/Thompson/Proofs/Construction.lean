import Thompson.Proofs.Compilation
import Thompson.Proofs.Relocation

namespace Thompson

namespace Automaton

def fragment (automaton : Automaton) : Fragment :=
  ⟨automaton.entry, automaton.exit⟩

def join (first second : Automaton) : Automaton where
  arena := (first.arena.beside second.arena).put first.exit
    ⟨false, .epsilon [second.entry + first.size]⟩
  entry := first.entry
  exit := second.exit + first.size

def either (first second : Automaton) : Automaton :=
  let size := first.size + second.size
  let tied : State := ⟨false, .epsilon [size + 1]⟩
  let blocks := ((first.arena.beside second.arena).put first.exit tied).put
    (second.exit + first.size) tied
  let entry : State := ⟨false, .epsilon [first.entry, second.entry + first.size]⟩
  ⟨(blocks.push entry).push ⟨true, .empty⟩, size, size + 1⟩

/-- The entry and the exit of the block lead out first and into the block second. -/
def loop (operand : Automaton) : Automaton :=
  let size := operand.size
  let onward : State := ⟨false, .epsilon [size + 1, operand.entry]⟩
  ⟨((operand.arena.put operand.exit onward).push onward).push ⟨true, .empty⟩, size, size + 1⟩

end Automaton

def Expr.automaton : Expr → Automaton
  | symbol c => ⟨⟨#[⟨false, .labelled (Labels.empty.insert c 1)⟩, ⟨true, .empty⟩]⟩, 0, 1⟩
  | concat left right => left.automaton.join right.automaton
  | union left right => left.automaton.either right.automaton
  | star operand => operand.automaton.loop

namespace Automaton

variable {first second operand : Automaton}

def Open (automaton : Automaton) : Prop :=
  automaton.arena.state? automaton.exit = some ⟨true, .empty⟩

theorem Open.exit_lt (h : first.Open) : first.exit < first.size :=
  Arena.lt_of_state? h

/-- The exit of the second block, where it has moved to. -/
theorem Open.beside (h : second.Open) :
    (first.arena.beside second.arena).state? (second.exit + first.size) = some ⟨true, .empty⟩ := by
  have moved : (first.arena.beside second.arena).state? (second.exit + first.arena.size) =
      (second.arena.state? second.exit).map (State.shift first.arena.size) :=
    Arena.state?_beside_add
  rw [h] at moved
  exact moved

theorem Open.exit_ne (h : first.Open) (second : Automaton) :
    first.exit ≠ second.exit + first.size :=
  Nat.ne_of_lt (Nat.lt_add_left _ h.exit_lt)

/-- Two open blocks in a row are ready for any rule that takes the pair of them. -/
theorem Open.ready_pair (h : first.Open) (h' : second.Open) {rule : Rule Fragment}
    (operands : rule.operands = [first.fragment, second.fragment.shift first.size]) :
    (first.arena.beside second.arena).Ready rule := by
  constructor
  · intro fragment hf
    rw [operands] at hf
    rcases List.mem_pair.mp hf with rfl | rfl
    · exact (Arena.state?_beside_of_lt h.exit_lt).trans h
    · exact h'.beside
  · rw [operands]
    simpa [fragment, Fragment.shift] using h.exit_ne second

theorem Open.ready_concat (h : first.Open) (h' : second.Open) :
    (first.arena.beside second.arena).Ready
      (.concat first.fragment (second.fragment.shift first.size)) :=
  h.ready_pair h' rfl

theorem Open.ready_union (h : first.Open) (h' : second.Open) :
    (first.arena.beside second.arena).Ready
      (.union first.fragment (second.fragment.shift first.size)) :=
  h.ready_pair h' rfl

theorem Open.ready_closure (h : operand.Open) :
    operand.arena.Ready (.closure operand.fragment) := by
  refine ⟨fun fragment hf => ?_, by simp⟩
  cases List.mem_singleton.mp hf
  exact h

/-- Joining is the rule of concatenation, carried out on the two blocks in one arena. -/
theorem arena_join (first second : Automaton) :
    (first.join second).arena = (first.arena.beside second.arena).extend
      (.concat first.fragment (second.fragment.shift first.size)) :=
  rfl

theorem arena_either (first second : Automaton) :
    (first.either second).arena = (first.arena.beside second.arena).extend
      (.union first.fragment (second.fragment.shift first.size)) := by
  simp only [Arena.extend, Arena.size_beside]
  rfl

theorem fragment_either (first second : Automaton) :
    (first.either second).fragment =
      (Rule.union first.fragment (second.fragment.shift first.size)).fragment
        (first.arena.beside second.arena).size := by
  simp only [Rule.fragment, Arena.size_beside]
  rfl

theorem arena_loop (operand : Automaton) :
    operand.loop.arena = operand.arena.extend (.closure operand.fragment) :=
  rfl

theorem Open.join (h : first.Open) (h' : second.Open) : (first.join second).Open := by
  have inside : first.exit < (first.arena.beside second.arena).size :=
    Arena.lt_size_beside h.exit_lt
  exact (Arena.state?_put_of_ne inside (h.exit_ne second)).trans h'.beside

theorem open_either (first second : Automaton) : (first.either second).Open := by
  have last : ((first.arena.beside second.arena).extend
      (.union first.fragment (second.fragment.shift first.size))).state?
        ((first.arena.beside second.arena).size + 1) = some ⟨true, .empty⟩ :=
    Arena.state?_extend_exit rfl
  rw [← arena_either, Arena.size_beside] at last
  exact last

theorem open_loop (operand : Automaton) : operand.loop.Open := by
  have last : (operand.arena.extend (.closure operand.fragment)).state? (operand.arena.size + 1) =
      some ⟨true, .empty⟩ := Arena.state?_extend_exit rfl
  exact last

end Automaton

/-- The automaton of an expression can be an operand again. -/
theorem Expr.open_automaton (expr : Expr) : expr.automaton.Open := by
  induction expr with
  | symbol c => rfl
  | concat left right ihl ihr => exact ihl.join ihr
  | union left right => exact Automaton.open_either _ _
  | star operand => exact Automaton.open_loop _

/-- A token does to a block behind other states what it does to the block alone. -/
theorem Machine.apply_beside {arena block : Arena} {token : Token} {stack rest : List Fragment}
    {rule : Rule Fragment} (ready : block.Ready rule)
    (taken : token.rule? stack = some (rule.map (Fragment.shift arena.size), rest))
    (position : Nat) :
    (⟨arena.beside block, stack⟩ : Machine).apply position token =
      .ok ⟨arena.beside (block.extend rule),
        (rule.fragment block.size).shift arena.size :: rest⟩ := by
  simp only [apply, taken, Arena.build_eq ready.beside, Arena.extend_beside ready,
    Arena.size_beside, Rule.fragment_shift]

theorem Machine.eq_of_conclude {arena : Arena} {fragment : Fragment} {automaton : Automaton}
    (h : (⟨arena, [fragment]⟩ : Machine).conclude = .ok automaton) :
    automaton = ⟨arena, fragment.entry, fragment.exit⟩ := by
  change (arena.finish fragment).mapError Failure.fault = .ok automaton at h
  cases finished : arena.finish fragment with
  | error fault =>
    rw [finished] at h
    cases h
  | ok whole =>
    rw [finished] at h
    cases h
    exact (Arena.finish_eq_ok_iff.mp finished).2

namespace Compiler

variable {compiler : Compiler} {arena : Arena} {stack : List Fragment} {tokens : List Token}
  {first second : Automaton}

def Lays (compiler : Compiler) (tokens : List Token) (block : Automaton) : Prop :=
  ∀ (arena : Arena) (stack : List Fragment) (position : Nat),
    compiler.Allows (arena.size + Token.states tokens) →
      compiler.Passes ⟨arena, stack⟩ position tokens
        ⟨arena.beside block.arena, block.fragment.shift arena.size :: stack⟩

theorem Lays.append {more : List Token} (lays : compiler.Lays tokens first)
    (lays' : compiler.Lays more second) (arena : Arena) (stack : List Fragment) (position : Nat)
    (allowed : compiler.Allows (arena.size + Token.states (tokens ++ more))) :
    compiler.Passes ⟨arena, stack⟩ position (tokens ++ more)
      ⟨arena.beside (first.arena.beside second.arena),
        (second.fragment.shift first.size).shift arena.size :: first.fragment.shift arena.size ::
          stack⟩ := by
  have passed := lays arena stack position allowed.of_append
  rw [Token.states_append, ← Nat.add_assoc, ← passed.size] at allowed
  have passed' := lays' (arena.beside first.arena) (first.fragment.shift arena.size :: stack)
    (position + tokens.length) allowed
  rw [Arena.beside_assoc, Arena.size_beside, Nat.add_comm arena.size, ← Fragment.shift_shift]
    at passed'
  exact passed.append passed'

theorem Passes.apply_beside {machine : Machine} {position : Nat} {block : Arena} {token : Token}
    {rest : List Fragment} {rule : Rule Fragment}
    (passed : compiler.Passes machine position tokens ⟨arena.beside block, stack⟩)
    (ready : block.Ready rule)
    (taken : token.rule? stack = some (rule.map (Fragment.shift arena.size), rest))
    (allowed : compiler.Allows (machine.arena.size + Token.states (tokens ++ [token]))) :
    compiler.Passes machine position (tokens ++ [token])
      ⟨arena.beside (block.extend rule), (rule.fragment block.size).shift arena.size :: rest⟩ := by
  refine passed.apply (Machine.apply_beside ready taken _) ?_ allowed
  have created := Token.created_of_rule? taken
  rw [Rule.created_map] at created
  simp only [Arena.size_beside, Arena.size_extend, created, Nat.add_assoc]

/-- By the expression: the operands lay their blocks one behind the other, and the operator ties
them. -/
theorem lays_tokens (compiler : Compiler) (expr : Expr) :
    compiler.Lays expr.tokens expr.automaton := by
  induction expr with
  | symbol c =>
    intro arena stack position allowed
    have start : compiler.Passes ⟨arena, stack⟩ position [] ⟨arena.beside {}, stack⟩ := by
      rw [Arena.beside_empty]
      exact Passes.nil
    have ready : ({} : Arena).Ready (.symbol c) := ⟨by simp, .nil⟩
    exact start.apply_beside ready rfl allowed
  | concat left right ihl ihr =>
    intro arena stack position allowed
    have operands := ihl.append ihr arena stack position allowed.of_append
    have passed := operands.apply_beside
      (left.open_automaton.ready_concat right.open_automaton) rfl allowed
    rw [← Automaton.arena_join] at passed
    exact passed
  | union left right ihl ihr =>
    intro arena stack position allowed
    have operands := ihl.append ihr arena stack position allowed.of_append
    have passed := operands.apply_beside
      (left.open_automaton.ready_union right.open_automaton) rfl allowed
    rw [← Automaton.arena_either, ← Automaton.fragment_either] at passed
    exact passed
  | star operand ih =>
    intro arena stack position allowed
    have operands := ih arena stack position allowed.of_append
    have passed := operands.apply_beside operand.open_automaton.ready_closure rfl allowed
    rw [← Automaton.arena_loop] at passed
    exact passed

/-- Within the limit the stack machine makes the automaton of the expression, state for state. -/
theorem compile_tokens (expr : Expr) (allowed : compiler.Allows (Token.states expr.tokens)) :
    compiler.compile expr.tokens = .ok expr.automaton := by
  have start : compiler.Allows (({} : Arena).size + Token.states expr.tokens) :=
    allowed.mono (Nat.le_of_eq (Nat.zero_add _))
  have result := (lays_tokens compiler expr {} [] 0 start).result []
  rw [List.append_nil, Arena.empty_beside, result_run_nil] at result
  obtain ⟨automaton, compiled, _⟩ := exists_compile expr allowed
  rw [compile_eq_run (tokens_ne_nil expr)] at compiled ⊢
  rw [compiled]
  exact congrArg Except.ok (Machine.eq_of_conclude (result.symm.trans compiled))

theorem allows_unlimited (states : Nat) : ({} : Compiler).Allows states :=
  fun _ limited => nomatch limited

/-- Without a limit every expression has its automaton made, state for state. -/
theorem compile_eq_automaton (expr : Expr) :
    ({} : Compiler).compile expr.tokens = .ok expr.automaton :=
  compile_tokens expr (allows_unlimited _)

end Compiler

end Thompson
