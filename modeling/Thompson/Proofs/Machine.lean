import Thompson.Compiler.Run
import Thompson.Proofs.Part

namespace Thompson

namespace Token

def states (tokens : List Token) : Nat :=
  2 * tokens.countP (· ≠ concat)

theorem states_append (first second : List Token) :
    states (first ++ second) = states first + states second := by
  simp only [states, List.countP_append]
  omega

section Rules

variable {α β : Type} {token : Token} {stack rest : List α} {rule : Rule α}

theorem rule?_map (f : α → β) (token : Token) (stack : List α) :
    token.rule? (stack.map f) =
      (token.rule? stack).map fun taken => (taken.1.map f, taken.2.map f) := by
  cases token <;> rcases stack with _ | ⟨_, _ | ⟨_, _⟩⟩ <;> rfl

/-- Operands stand on the stack from the last one to the first. -/
theorem eq_of_rule? (h : token.rule? stack = some (rule, rest)) :
    stack = rule.operands.reverse ++ rest := by
  cases token <;> rcases stack with _ | ⟨_, _ | ⟨_, _⟩⟩ <;> cases h <;> rfl

/-- The states of a rule are counted by its token. -/
theorem created_of_rule? (h : token.rule? stack = some (rule, rest)) :
    rule.created = states [token] := by
  cases token <;> rcases stack with _ | ⟨_, _ | ⟨_, _⟩⟩ <;> cases h <;> rfl

end Rules

end Token

namespace Machine

structure Holds (machine : Machine) (parts : List Part) : Prop where
  stack : machine.stack = parts.map Part.fragment
  intact : ∀ part ∈ parts, part.Intact machine.arena
  apart : parts.Pairwise Part.Apart

variable {machine : Machine} {parts rest : List Part} {token : Token} {rule : Rule Part}

theorem holds_empty : ({} : Machine).Holds [] :=
  ⟨rfl, by simp, .nil⟩

def after (machine : Machine) (rule : Rule Part) (rest : List Part) : Machine :=
  ⟨machine.arena.extend (rule.map Part.fragment),
    (Part.ofRule machine.arena.size rule :: rest).map Part.fragment⟩

/-- The operands that a token takes are apart from what it leaves on the stack. -/
theorem Holds.split (holds : machine.Holds parts) (h : token.rule? parts = some (rule, rest)) :
    Part.Composable machine.arena rule ∧ (∀ part ∈ rest, part.Intact machine.arena) ∧
      rest.Pairwise Part.Apart ∧ ∀ part ∈ rest, ∀ operand ∈ rule.operands, part.Apart operand := by
  obtain ⟨_, intact, apart⟩ := holds
  rw [Token.eq_of_rule? h] at intact apart
  obtain ⟨operands, others, between⟩ := List.pairwise_append.mp apart
  refine ⟨⟨?_, ?_⟩, ?_, others, ?_⟩
  · intro operand ho
    exact intact operand (List.mem_append_left _ (List.mem_reverse.mpr ho))
  · exact (List.pairwise_reverse.mp operands).imp fun h => Std.Symm.symm _ _ h
  · intro part hp
    exact intact part (List.mem_append_right _ hp)
  · intro part hp operand ho
    exact Std.Symm.symm _ _ (between operand (List.mem_reverse.mpr ho) part hp)

/-- A token that finds its operands is applied, and the stack holds intact parts again. -/
theorem Holds.apply (holds : machine.Holds parts) (h : token.rule? parts = some (rule, rest))
    (position : Nat) :
    machine.apply position token = .ok (machine.after rule rest) ∧
      (machine.after rule rest).Holds (.ofRule machine.arena.size rule :: rest) := by
  obtain ⟨composable, intact, others, between⟩ := holds.split h
  refine ⟨?_, rfl, ?_, ?_⟩
  · have taken : token.rule? machine.stack =
        some (rule.map Part.fragment, rest.map Part.fragment) := by
      rw [holds.stack, Token.rule?_map, h]
      rfl
    simp only [Machine.apply, taken, Arena.build_eq composable.ready]
    rfl
  · intro part hp
    rcases List.mem_cons.mp hp with rfl | hp
    · exact composable.intact_extend
    · exact composable.intact_of_apart (intact part hp) (between part hp)
  · refine List.pairwise_cons.mpr ⟨fun part hp => ?_, others⟩
    exact Std.Symm.symm _ _ (Part.apart_ofRule (intact part hp) (between part hp))

theorem size_after (h : token.rule? parts = some (rule, rest)) :
    (machine.after rule rest).arena.size = machine.arena.size + Token.states [token] := by
  rw [← Token.created_of_rule? h, ← Rule.created_map Part.fragment]
  exact Arena.size_extend _

/-- A single part that is left makes an automaton. -/
theorem Holds.conclude {part : Part} (holds : machine.Holds [part]) :
    ∃ automaton, machine.conclude = .ok automaton ∧ automaton.Recognizes part.language := by
  have intact := holds.intact part (by simp)
  refine ⟨_, ?_, intact.recognizes⟩
  have finished := Arena.finish_eq_ok_iff.mpr ⟨intact.sealed, rfl⟩
  simp only [Machine.conclude, holds.stack, List.map_cons, List.map_nil, finished]
  rfl

end Machine

namespace Compiler

variable {compiler : Compiler} {size : Nat}

def Allows (compiler : Compiler) (size : Nat) : Prop :=
  ∀ limit ∈ compiler.sizeLimit, size ≤ limit

theorem Allows.mono {smaller : Nat} (h : compiler.Allows size) (le : smaller ≤ size) :
    compiler.Allows smaller :=
  fun limit hl => Nat.le_trans le (h limit hl)

theorem exceeded?_eq_none_iff : compiler.exceeded? size = none ↔ compiler.Allows size := by
  simp [exceeded?, Allows, Option.filter_eq_none_iff]

variable {machine next : Machine} {position limit : Nat} {token : Token} {rest : List Token}
  {failure : Failure}

theorem run_cons_of_error (failed : machine.apply position token = .error failure) :
    compiler.run machine position (token :: rest) = ⟨[], .error failure⟩ := by
  simp only [run, failed]

theorem run_cons_of_exceeded (applied : machine.apply position token = .ok next)
    (beyond : compiler.exceeded? next.arena.size = some limit) :
    compiler.run machine position (token :: rest) =
      .cons (.applied token position next.arena.size) ⟨[], .error (.rejected (.tooBig limit))⟩ := by
  simp only [run, applied, beyond]

theorem run_cons (applied : machine.apply position token = .ok next)
    (allowed : compiler.Allows next.arena.size) :
    compiler.run machine position (token :: rest) =
      .cons (.applied token position next.arena.size) (compiler.run next (position + 1) rest) := by
  simp only [run, applied, exceeded?_eq_none_iff.mpr allowed]

theorem result_run_nil :
    (compiler.run machine position []).result = machine.conclude := by
  unfold run
  cases machine.conclude <;> rfl

theorem result_run_cons_of_error (failed : machine.apply position token = .error failure) :
    (compiler.run machine position (token :: rest)).result = .error failure :=
  congrArg Trace.result (run_cons_of_error failed)

theorem result_run_cons_of_exceeded (applied : machine.apply position token = .ok next)
    (beyond : compiler.exceeded? next.arena.size = some limit) :
    (compiler.run machine position (token :: rest)).result = .error (.rejected (.tooBig limit)) :=
  congrArg Trace.result (run_cons_of_exceeded applied beyond)

/-- The records have no part in the result. -/
theorem result_run_cons (applied : machine.apply position token = .ok next)
    (allowed : compiler.Allows next.arena.size) :
    (compiler.run machine position (token :: rest)).result =
      (compiler.run next (position + 1) rest).result := by
  rw [run_cons applied allowed]
  rfl

end Compiler

end Thompson
