import Thompson.Proofs.Block
import Thompson.Proofs.Outcome

namespace Thompson

namespace Machine

variable {machine next : Machine} {position : Nat} {token : Token} {automaton : Automaton}

/-- The arenas after each of the tokens, as far as they are applied. -/
def arenas (machine : Machine) (position : Nat) : List Token → List Arena
  | [] => []
  | token :: rest =>
    match machine.apply position token with
    | .error _ => []
    | .ok next => next.arena :: next.arenas (position + 1) rest

theorem arenas_cons (applied : machine.apply position token = .ok next) (rest : List Token) :
    machine.arenas position (token :: rest) = next.arena :: next.arenas (position + 1) rest := by
  simp only [arenas, applied]

theorem arenas_cons_of_error {failure : Failure}
    (failed : machine.apply position token = .error failure) (rest : List Token) :
    machine.arenas position (token :: rest) = [] := by
  simp only [arenas, failed]

/-- No token takes states away. -/
theorem size_le_of_apply (applied : machine.apply position token = .ok next) :
    machine.arena.size ≤ next.arena.size := by
  obtain ⟨arena, stack⟩ := machine
  unfold apply at applied
  cases taken : token.rule? stack with
  | none => simp [taken] at applied
  | some result =>
    obtain ⟨rule, rest⟩ := result
    have grown := arena.size_le_size_editAll (rule.edits arena.size)
    simp only [taken, Arena.build] at applied
    cases edited : arena.editAll (rule.edits arena.size) with
    | mk after refused =>
      rw [edited] at applied grown
      cases refused with
      | none => cases applied; exact grown
      | some fault => cases applied

theorem arena_of_conclude (concluded : machine.conclude = .ok automaton) :
    automaton.arena = machine.arena := by
  obtain ⟨arena, stack⟩ := machine
  match stack with
  | [fragment] => rw [eq_of_conclude concluded]
  | [] | _ :: _ :: _ => cases concluded

end Machine

namespace Compiler

variable {compiler : Compiler} {machine : Machine} {position limit : Nat} {tokens : List Token}
  {automaton : Automaton}

/-- A run is cut off after the first token that leaves too many states, and is the same run before.
-/
theorem result_run_limited (limit : Nat) (machine : Machine) (position : Nat)
    (tokens : List Token) :
    ((⟨some limit⟩ : Compiler).run machine position tokens).result =
      if ∃ arena ∈ machine.arenas position tokens, limit < arena.size then
        .error (.rejected (.tooBig limit))
      else (({} : Compiler).run machine position tokens).result := by
  induction tokens generalizing machine position with
  | nil => simp [Machine.arenas, result_run_nil]
  | cons token rest ih =>
    cases applied : machine.apply position token with
    | error failure =>
      simp [Machine.arenas_cons_of_error applied, result_run_cons_of_error applied]
    | ok next =>
      rw [Machine.arenas_cons applied, result_run_cons applied (allows_unlimited _)]
      by_cases beyond : limit < next.arena.size
      · have exceeded : (⟨some limit⟩ : Compiler).exceeded? next.arena.size = some limit :=
          exceeded?_eq_some_iff.mpr ⟨rfl, beyond⟩
        simp [result_run_cons_of_exceeded applied exceeded, beyond]
      · have allowed : (⟨some limit⟩ : Compiler).Allows next.arena.size := by
          simpa [Allows] using beyond
        simp [result_run_cons applied allowed, ih, beyond]

/-- The arena of the result is the last and the largest one. -/
theorem arenas_of_run (h : (compiler.run machine position tokens).result = .ok automaton) :
    automaton.arena ∈ machine.arena :: machine.arenas position tokens ∧
      ∀ arena ∈ machine.arena :: machine.arenas position tokens, arena.size ≤ automaton.size := by
  induction tokens generalizing machine position with
  | nil =>
    rw [result_run_nil] at h
    simp [Machine.arenas, Automaton.size, Machine.arena_of_conclude h]
  | cons token rest ih =>
    simp only [run] at h
    split at h
    · cases h
    · rename_i next applied
      simp only [Trace.cons] at h
      split at h
      · cases h
      · obtain ⟨last, largest⟩ := ih h
        rw [Machine.arenas_cons applied]
        refine ⟨List.mem_cons_of_mem _ last, fun arena ha => ?_⟩
        rcases List.mem_cons.mp ha with rfl | ha
        · exact (Machine.size_le_of_apply applied).trans (largest _ List.mem_cons_self)
        · exact largest arena ha

/-- The arenas that a compilation without a limit goes through. The empty text has one as well. -/
def arenas : List Token → List Arena
  | [] => [(({} : Arena).build .empty).1]
  | tokens => ({} : Machine).arenas 0 tokens

theorem arenas_of_ne_nil (ne : tokens ≠ []) : arenas tokens = ({} : Machine).arenas 0 tokens := by
  cases tokens with
  | nil => exact absurd rfl ne
  | cons token rest => rfl

def Exceeds (limit : Nat) (tokens : List Token) : Prop :=
  ∃ arena ∈ arenas tokens, limit < arena.size

theorem Exceeds.mono {wider : Nat} (h : Exceeds wider tokens) (le : limit ≤ wider) :
    Exceeds limit tokens := by
  obtain ⟨arena, ha, beyond⟩ := h
  exact ⟨arena, ha, Nat.lt_of_le_of_lt le beyond⟩

theorem arenas_nil : arenas [] = [({} : Arena).extend .empty] := by
  rw [arenas, build_empty]

theorem exceeds_nil_iff : Exceeds limit [] ↔ limit < 2 := by
  have two : (({} : Arena).extend .empty).size = 2 := Arena.size_extend .empty
  simp only [Exceeds, arenas_nil, List.mem_singleton, exists_eq_left, two]

/-- Too many states at any point end the run, whatever would have come later. -/
theorem compile_of_exceeds (h : Exceeds limit tokens) :
    (⟨some limit⟩ : Compiler).compile tokens = .error (.rejected (.tooBig limit)) := by
  by_cases empty : tokens = []
  · subst empty
    exact compile_nil_of_lt rfl (exceeds_nil_iff.mp h)
  · rw [Exceeds, arenas_of_ne_nil empty] at h
    rw [compile_eq_run empty, result_run_limited, if_pos h]

/-- A limit that is never passed has no part in the result. -/
theorem compile_of_not_exceeds (h : ¬Exceeds limit tokens) :
    (⟨some limit⟩ : Compiler).compile tokens = ({} : Compiler).compile tokens := by
  by_cases empty : tokens = []
  · subst empty
    have room : 2 ≤ limit := Nat.le_of_not_lt fun few => h (exceeds_nil_iff.mpr few)
    have allowed : (⟨some limit⟩ : Compiler).Allows 2 := by simpa [Allows] using room
    rw [compile_nil_of_allows allowed, compile_nil_of_allows (allows_unlimited _)]
  · rw [Exceeds, arenas_of_ne_nil empty] at h
    rw [compile_eq_run empty, compile_eq_run empty, result_run_limited, if_neg h]

/-- The automaton has all states of the run, so that it is enough to count its own. -/
theorem size_le_iff_of_compile (h : ({} : Compiler).compile tokens = .ok automaton) :
    automaton.size ≤ limit ↔ ¬Exceeds limit tokens := by
  by_cases empty : tokens = []
  · subst empty
    rw [compile_nil_of_allows (allows_unlimited _)] at h
    cases h
    exact (exceeds_nil_iff.trans Nat.not_le.symm).not_left.symm
  · rw [compile_eq_run empty] at h
    obtain ⟨last, largest⟩ := arenas_of_run h
    rw [Exceeds, arenas_of_ne_nil empty]
    constructor
    · rintro within ⟨arena, ha, beyond⟩
      exact Nat.not_lt.mpr ((largest arena (List.mem_cons_of_mem _ ha)).trans within) beyond
    · intro never
      rcases List.mem_cons.mp last with start | later
      · rw [Automaton.size, start]
        exact Nat.zero_le _
      · exact Nat.le_of_not_lt fun beyond => never ⟨_, later, beyond⟩

/-- Whatever the limit, an automaton is the one that is made without it. -/
theorem compile_unlimited (h : compiler.compile tokens = .ok automaton) :
    ({} : Compiler).compile tokens = .ok automaton := by
  obtain ⟨sizeLimit⟩ := compiler
  cases sizeLimit with
  | none => exact h
  | some limit =>
    by_cases beyond : Exceeds limit tokens
    · rw [compile_of_exceeds beyond] at h
      cases h
    · rwa [compile_of_not_exceeds beyond] at h

theorem compile_unlimited_ne_tooBig (bound : Nat) :
    ({} : Compiler).compile tokens ≠ .error (.rejected (.tooBig bound)) := by
  intro h
  rcases ok_or_malformed tokens with ⟨automaton, compiled⟩ | ⟨error, rejected, malformed⟩
  · cases compiled.symm.trans h
  · cases rejected.symm.trans h
    cases malformed

theorem compile_limited_ok_iff : (⟨some limit⟩ : Compiler).compile tokens = .ok automaton ↔
    ({} : Compiler).compile tokens = .ok automaton ∧ automaton.size ≤ limit := by
  constructor
  · intro h
    have unlimited := compile_unlimited h
    refine ⟨unlimited, (size_le_iff_of_compile unlimited).mpr fun beyond => ?_⟩
    cases (compile_of_exceeds beyond).symm.trans h
  · rintro ⟨h, within⟩
    rw [compile_of_not_exceeds ((size_le_iff_of_compile h).mp within), h]

theorem compile_limited_tooBig_iff {bound : Nat} :
    (⟨some limit⟩ : Compiler).compile tokens = .error (.rejected (.tooBig bound)) ↔
      bound = limit ∧ Exceeds limit tokens := by
  by_cases beyond : Exceeds limit tokens
  · simp [compile_of_exceeds beyond, beyond, eq_comm]
  · simp [compile_of_not_exceeds beyond, beyond, compile_unlimited_ne_tooBig]

theorem compile_eq_of_wider {wider : Compiler} (allowed : wider.Allows limit)
    (h : ¬Exceeds limit tokens) :
    wider.compile tokens = (⟨some limit⟩ : Compiler).compile tokens := by
  rw [compile_of_not_exceeds h]
  obtain ⟨sizeLimit⟩ := wider
  cases sizeLimit with
  | none => rfl
  | some bound => exact compile_of_not_exceeds fun more => h (more.mono (allowed bound rfl))

/-- The limit lets those automata through that are not larger and ends all else as too big. A result
that is not ended by it stays under wider limits and without one, and a fault of the input that is
found there is found under it as well, unless it ends the run before. -/
theorem compile_limit_filters (limit : Nat) (tokens : List Token) :
    (∀ automaton, (⟨some limit⟩ : Compiler).compile tokens = .ok automaton ↔
      ({} : Compiler).compile tokens = .ok automaton ∧ automaton.size ≤ limit) ∧
    (∀ bound, (⟨some limit⟩ : Compiler).compile tokens = .error (.rejected (.tooBig bound)) ↔
      bound = limit ∧ Exceeds limit tokens) ∧
    ∀ wider : Compiler, wider.Allows limit →
      ((∀ bound, (⟨some limit⟩ : Compiler).compile tokens ≠ .error (.rejected (.tooBig bound))) →
        wider.compile tokens = (⟨some limit⟩ : Compiler).compile tokens) ∧
      ∀ error, wider.compile tokens = .error (.rejected error) → error.isMalformed →
        (⟨some limit⟩ : Compiler).compile tokens = .error (.rejected error) ∨
          (⟨some limit⟩ : Compiler).compile tokens = .error (.rejected (.tooBig limit)) := by
  refine ⟨fun _ => compile_limited_ok_iff, fun _ => compile_limited_tooBig_iff,
    fun wider allowed => ?_⟩
  by_cases beyond : Exceeds limit tokens
  · have ended := compile_of_exceeds beyond
    exact ⟨fun other => absurd ended (other limit), fun _ _ _ => .inr ended⟩
  · have same := compile_eq_of_wider allowed beyond
    exact ⟨fun _ => same, fun _ found _ => .inl (same.symm.trans found)⟩

/-- Six states are too many for four and just right for six. A missing operand that comes after two
states is found with room for two or more, and not with room for one. -/
theorem compile_limit_filters_six :
    Exceeds 4 [.symbol 'a', .symbol 'b', .union] ∧
    (∃ automaton, (⟨some 6⟩ : Compiler).compile [.symbol 'a', .symbol 'b', .union] = .ok automaton) ∧
    (⟨some 9⟩ : Compiler).compile [.symbol 'a', .concat] =
      .error (.rejected (.missingOperand '.' 1 2 1)) ∧
    (⟨some 1⟩ : Compiler).compile [.symbol 'a', .concat] = .error (.rejected (.tooBig 1)) := by
  have ended : (⟨some 4⟩ : Compiler).compile [.symbol 'a', .symbol 'b', .union] =
      .error (.rejected (.tooBig 4)) := by rfl
  have made := compile_tokens (.union (.symbol 'a') (.symbol 'b')) (allows_unlimited _)
  have six : (Expr.union (.symbol 'a') (.symbol 'b')).automaton.size = 6 :=
    Automaton.size_either _ _
  have room {limit : Nat} (le : limit ≤ 9) : (⟨some 9⟩ : Compiler).Allows limit := by
    simpa [Allows] using le
  have missing : (⟨some 2⟩ : Compiler).compile [.symbol 'a', .concat] =
      .error (.rejected (.missingOperand '.' 1 2 1)) := by rfl
  have wide : (⟨some 9⟩ : Compiler).compile [.symbol 'a', .concat] =
      .error (.rejected (.missingOperand '.' 1 2 1)) := by
    have kept := ((compile_limit_filters 2 [.symbol 'a', .concat]).2.2 _ (room (by decide))).1
    refine (kept fun bound ended => ?_).trans missing
    cases missing.symm.trans ended
  refine ⟨(((compile_limit_filters 4 _).2.1 4).mp ended).2,
    ⟨_, ((compile_limit_filters 6 _).1 _).mpr ⟨made, Nat.le_of_eq six⟩⟩, wide, ?_⟩
  rcases ((compile_limit_filters 1 _).2.2 _ (room (by decide))).2 _ wide rfl with found | ended
  · cases found
  · exact ended

end Compiler

end Thompson
