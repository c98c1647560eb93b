import Thompson.Proofs.NormalForm
import Thompson.Proofs.Preference
import Thompson.Proofs.Trim

namespace Thompson

namespace Arena

variable {arena : Arena} {p : StateId}

def OnCycle (arena : Arena) (p : StateId) : Prop :=
  Relation.TransGen (arena.Leads State.epsilons) p p

/-- A cycle goes on over one of the edges, and comes back from there. -/
theorem OnCycle.onward (h : arena.OnCycle p) {state : State} (found : arena.state? p = some state) :
    ∃ q ∈ state.epsilons, arena.OnCycle q ∧ arena.Reaches State.epsilons q p := by
  obtain ⟨q, ⟨state', found', target⟩, back⟩ := Relation.TransGen.head'_iff.mp h
  cases found.symm.trans found'
  exact ⟨q, target, .tail' back ⟨state, found, target⟩, back⟩

theorem OnCycle.lt_size (h : arena.OnCycle p) : p < arena.size := by
  obtain ⟨_, ⟨_, found, _⟩, _⟩ := Relation.TransGen.head'_iff.mp h
  exact lt_of_state? found

end Arena

namespace Automaton

variable {first second operand block : Automaton} {arena : Arena} {offset : Nat}

/-- Away from the exit, the silent edges where the block stands are those of the block. -/
theorem Placed.leads_iff (h : block.Placed arena offset) {p q : StateId} (inside : p < block.size)
    (ne : p ≠ block.exit) : arena.Leads State.epsilons (p + offset) q ↔
      ∃ r, block.arena.Leads State.epsilons p r ∧ r + offset = q := by
  simp only [Arena.Leads, h p inside ne, Arena.state?_of_lt inside, Option.map_some,
    Option.some.injEq, exists_eq_left', State.epsilons_shift, List.mem_map]

theorem Compact.lt_of_silent (h : block.Compact) {p q : StateId}
    (step : block.arena.Leads State.epsilons p q) : q < block.size := by
  obtain ⟨state, found, target⟩ := step
  exact h.inner p state found q (Edges.mem_targets_of_epsilons target)

theorem Open.ne_exit_of_silent (h : block.Open) {p q : StateId}
    (step : block.arena.Leads State.epsilons p q) : p ≠ block.exit := by
  rintro rfl
  obtain ⟨state, found, target⟩ := step
  cases found.symm.trans h
  cases target

/-- The exit is come to inside the block, since there is no other way out of it. -/
theorem Placed.reaches_exit_iff (h : block.Placed arena offset) (compact : block.Compact)
    {p : StateId} (inside : p < block.size) :
    arena.Reaches State.epsilons (p + offset) (block.exit + offset) ↔
      block.arena.Reaches State.epsilons p block.exit := by
  constructor
  · intro reached
    generalize start : p + offset = here at reached
    induction reached using Relation.ReflTransGen.head_induction_on generalizing p with
    | refl => cases Nat.add_right_cancel start; exact .refl
    | head step _ ih =>
      subst start
      by_cases last : p = block.exit
      · exact last ▸ .refl
      · obtain ⟨r, inner, same⟩ := (h.leads_iff inside last).mp step
        exact .head inner (ih (compact.lt_of_silent inner) same)
  · intro reached
    induction reached using Relation.ReflTransGen.head_induction_on with
    | refl => exact .refl
    | head step _ ih =>
      have moved := (h.leads_iff inside (compact.exit.ne_exit_of_silent step)).mpr ⟨_, step, rfl⟩
      exact .head moved (ih (compact.lt_of_silent step))

def Releases (block : Automaton) (arena : Arena) (offset : Nat) : Prop :=
  ∀ id < block.size, arena.OnCycle (id + offset) → arena.OnCycle (block.exit + offset)

/-- A symbol makes no silent move, so that its entry is on no cycle. -/
theorem releases_symbol {c : Char} (h : (Expr.symbol c).automaton.Placed arena offset) :
    (Expr.symbol c).automaton.Releases arena offset := by
  intro id inside cycle
  match id, inside with
  | 0, _ =>
    rw [Nat.zero_add] at cycle
    obtain ⟨_, target, _⟩ := cycle.onward h.symbol
    cases target
  | 1, _ => exact cycle

/-- A cycle through the first part comes to its exit, and from there on through the second. -/
theorem Releases.join (h : (first.join second).Placed arena offset) (hf : first.Compact)
    (hs : second.Compact) (left : first.Releases arena offset)
    (right : second.Releases arena (first.size + offset)) :
    (first.join second).Releases arena offset := by
  obtain ⟨_, _, tied⟩ := h.join hf.exit hs.exit
  have exit : (first.join second).exit + offset = second.exit + (first.size + offset) :=
    Nat.add_assoc ..
  intro id inside cycle
  rw [exit]
  rcases lt_size_join_cases inside with low | ⟨n, high, rfl⟩
  · obtain ⟨q, target, cycle, _⟩ := (left id low cycle).onward tied
    cases List.mem_singleton.mp target
    exact right second.entry hs.entry_lt_size cycle
  · rw [Nat.add_assoc] at cycle
    exact right n high cycle

/-- A cycle through one way comes to its exit, and from there to the exit of the choice. -/
theorem Releases.either (h : (first.either second).Placed arena offset) (hf : first.Compact)
    (hs : second.Compact) (left : first.Releases arena offset)
    (right : second.Releases arena (first.size + offset)) :
    (first.either second).Releases arena offset := by
  obtain ⟨_, _, entry, tied, tied'⟩ := h.either hf.exit hs.exit
  have low {id : Nat} (inside : id < first.size) (cycle : arena.OnCycle (id + offset)) :
      arena.OnCycle ((first.either second).exit + offset) := by
    obtain ⟨q, target, cycle, _⟩ := (left id inside cycle).onward tied
    exact List.mem_singleton.mp target ▸ cycle
  have high {id : Nat} (inside : id < second.size)
      (cycle : arena.OnCycle (id + (first.size + offset))) :
      arena.OnCycle ((first.either second).exit + offset) := by
    obtain ⟨q, target, cycle, _⟩ := (right id inside cycle).onward tied'
    exact List.mem_singleton.mp target ▸ cycle
  intro id inside cycle
  rcases lt_size_either_cases inside with below | ⟨n, between, rfl⟩ | rfl | rfl
  · exact low below cycle
  · rw [Nat.add_assoc] at cycle
    exact high between cycle
  · obtain ⟨q, target, cycle, _⟩ := cycle.onward entry
    rcases List.mem_pair.mp target with rfl | rfl
    · exact low hf.entry_lt_size cycle
    · exact high hs.entry_lt_size cycle
  · exact cycle

/-- A cycle can only turn round at the end of the operand if it can come there from its entry. -/
theorem Releases.loop (h : operand.loop.Placed arena offset) (compact : operand.Compact)
    (inner : operand.Releases arena offset)
    (apart : ¬arena.Reaches State.epsilons (operand.entry + offset) (operand.exit + offset)) :
    operand.loop.Releases arena offset := by
  obtain ⟨_, entry, tied⟩ := h.loop compact.exit
  have low {id : Nat} (inside : id < operand.size) (cycle : arena.OnCycle (id + offset)) :
      arena.OnCycle (operand.loop.exit + offset) := by
    obtain ⟨q, target, cycle, back⟩ := (inner id inside cycle).onward tied
    rcases List.mem_pair.mp target with rfl | rfl
    · exact cycle
    · exact absurd back apart
  intro id inside cycle
  rcases lt_size_loop_cases inside with below | rfl | rfl
  · exact low below cycle
  · obtain ⟨q, target, cycle, _⟩ := cycle.onward entry
    rcases List.mem_pair.mp target with rfl | rfl
    · exact cycle
    · exact low compact.entry_lt_size cycle
  · exact cycle

end Automaton

namespace Expr

variable {arena : Arena} {offset : Nat}

/-- The exit is come to from the entry without reading if the empty text is matched, and only then.
-/
theorem reaches_exit_iff (x : Expr) : x.automaton.arena.Reaches State.epsilons x.automaton.entry
    x.automaton.exit ↔ x.Matches [] := by
  obtain ⟨automaton, compiled, recognizes⟩ :=
    Compiler.exists_compile x (Compiler.allows_unlimited _)
  cases compiled.symm.trans (Compiler.compile_tokens x (Compiler.allows_unlimited _))
  obtain ⟨answer, given, matched⟩ := recognizes []
  obtain ⟨answer', given', ended⟩ := Automaton.accepts_spec x.compact_automaton.encloses_entry []
  cases Except.ok.inj (given.symm.trans given')
  rw [← Arena.path_nil_iff]
  refine Iff.trans ⟨fun path => ended.mpr ⟨_, path, ?_⟩, fun accepted => ?_⟩ matched
  · rw [Automaton.isAccepting, x.open_automaton]
    rfl
  · obtain ⟨q, path, accepting⟩ := ended.mp accepted
    obtain ⟨state, found, accepting⟩ := (Option.any_eq_true _ _).mp accepting
    rcases exit_or_thin found with ⟨rfl, _⟩ | ⟨_, thin⟩
    · exact path
    · cases accepting.symm.trans thin.not_accepting

theorem reaches_exit_iff_of_placed {x : Expr} (h : x.automaton.Placed arena offset) :
    arena.Reaches State.epsilons (x.automaton.entry + offset) (x.automaton.exit + offset) ↔
      x.Matches [] :=
  (h.reaches_exit_iff x.compact_automaton x.compact_automaton.entry_lt_size).trans
    x.reaches_exit_iff

/-- By the expression: where nothing that can stand for no symbol is repeated, no loop holds a
cycle. -/
theorem releases_automaton (x : Expr) (h : x.automaton.Placed arena offset)
    (steady : ¬x.RepeatsEmpty) : x.automaton.Releases arena offset := by
  induction x generalizing offset with
  | symbol c => exact Automaton.releases_symbol h
  | concat left right ihl ihr =>
    obtain ⟨first, second, _⟩ := h.join left.open_automaton right.open_automaton
    obtain ⟨steadyLeft, steadyRight⟩ := not_or.mp steady
    exact .join h left.compact_automaton right.compact_automaton (ihl first steadyLeft)
      (ihr second steadyRight)
  | union left right ihl ihr =>
    obtain ⟨first, second, _⟩ := h.either left.open_automaton right.open_automaton
    obtain ⟨steadyLeft, steadyRight⟩ := not_or.mp steady
    exact .either h left.compact_automaton right.compact_automaton (ihl first steadyLeft)
      (ihr second steadyRight)
  | star operand ih =>
    obtain ⟨inner, _⟩ := h.loop operand.open_automaton
    obtain ⟨reads, steady⟩ := not_or.mp steady
    exact .loop h operand.compact_automaton (ih inner steady)
      fun through => reads ((reaches_exit_iff_of_placed inner).mp through)

/-- By the expression: a repetition of what can stand for no symbol goes round silently. -/
theorem exists_onCycle (x : Expr) (h : x.automaton.Placed arena offset) (idle : x.RepeatsEmpty) :
    ∃ p, arena.OnCycle p := by
  induction x generalizing offset with
  | symbol c => cases idle
  | concat left right ihl ihr =>
    obtain ⟨first, second, _⟩ := h.join left.open_automaton right.open_automaton
    rcases idle with idle | idle
    · exact ihl first idle
    · exact ihr second idle
  | union left right ihl ihr =>
    obtain ⟨first, second, _⟩ := h.either left.open_automaton right.open_automaton
    rcases idle with idle | idle
    · exact ihl first idle
    · exact ihr second idle
  | star operand ih =>
    obtain ⟨inner, _, tied⟩ := h.loop operand.open_automaton
    rcases idle with empty | idle
    · -- From its exit back to its entry and silently through the operand.
      have back : arena.Leads State.epsilons (operand.automaton.exit + offset)
          (operand.automaton.entry + offset) :=
        ⟨_, tied, List.mem_cons_of_mem _ List.mem_cons_self⟩
      exact ⟨_, .head' back ((reaches_exit_iff_of_placed inner).mpr empty)⟩
    · exact ih inner idle

/-- Without such a repetition a cycle would come to the exit, which nothing leaves. -/
theorem exists_onCycle_iff (x : Expr) :
    (∃ p, x.automaton.arena.OnCycle p) ↔ x.RepeatsEmpty := by
  have placed := Automaton.placed_self x.automaton
  refine ⟨fun ⟨p, cycle⟩ => by_contra fun steady => ?_, x.exists_onCycle placed⟩
  have last := x.releases_automaton placed steady p cycle.lt_size cycle
  obtain ⟨_, target, _⟩ := last.onward x.open_automaton
  cases target

end Expr

namespace Compiler

/-- An expression is compiled to an automaton with a silent cycle if something in it is repeated
that can stand for no symbol at all, and only then. -/
theorem compile_cycles_iff (compiler : Compiler) (x : Expr)
    (allowed : compiler.Allows (Token.states x.tokens)) :
    ∃ automaton, compiler.compile x.tokens = .ok automaton ∧
      ((∃ p, automaton.arena.OnCycle p) ↔ x.RepeatsEmpty) :=
  ⟨x.automaton, compile_tokens x allowed, x.exists_onCycle_iff⟩

/-- A star under a star makes a cycle, unless a symbol stands beside the inner one. -/
theorem compile_cycles_iff_stars :
    (∃ automaton, (⟨some 6⟩ : Compiler).compile [.symbol 'a', .closure, .closure] = .ok automaton ∧
      ∃ p, automaton.arena.OnCycle p) ∧
    ∃ automaton, (⟨some 8⟩ : Compiler).compile
        [.symbol 'a', .closure, .symbol 'b', .concat, .closure] = .ok automaton ∧
      ∀ p, ¬automaton.arena.OnCycle p := by
  have idle : (Expr.star (.star (.symbol 'a'))).RepeatsEmpty := .inl .starNil
  have steady : ¬(Expr.star (.concat (.star (.symbol 'a')) (.symbol 'b'))).RepeatsEmpty := by
    simp [Expr.RepeatsEmpty, Expr.matches_concat_iff, Expr.matches_symbol_iff]
  obtain ⟨automaton, compiled, hiff⟩ :=
    compile_cycles_iff ⟨some 6⟩ (.star (.star (.symbol 'a'))) (exceeded?_eq_none_iff.mp rfl)
  obtain ⟨automaton', compiled', hiff'⟩ := compile_cycles_iff ⟨some 8⟩
    (.star (.concat (.star (.symbol 'a')) (.symbol 'b'))) (exceeded?_eq_none_iff.mp rfl)
  exact ⟨⟨automaton, compiled, hiff.mpr idle⟩,
    ⟨automaton', compiled', not_exists.mp (hiff'.not.mpr steady)⟩⟩

end Compiler

end Thompson
