import Thompson.Proofs.Machine

namespace Thompson

namespace Token

def gain : List Token → Int
  | [] => 0
  | token :: rest => 1 - token.arity + gain rest

theorem length_of_rule? {α : Type} {token : Token} {stack rest : List α} {rule : Rule α}
    (h : token.rule? stack = some (rule, rest)) : stack.length = token.arity + rest.length := by
  cases token <;> rcases stack with _ | ⟨_, _ | ⟨_, _⟩⟩ <;> cases h <;>
    simp only [arity, List.length_cons] <;> omega

end Token

namespace Machine

variable {machine next : Machine} {parts : List Part} {position : Nat} {token : Token}

theorem length_of_apply (h : machine.apply position token = .ok next) :
    machine.stack.length + 1 = token.arity + next.stack.length := by
  obtain ⟨arena, stack⟩ := machine
  unfold apply at h
  cases taken : token.rule? stack with
  | none => simp [taken] at h
  | some result =>
    obtain ⟨rule, rest⟩ := result
    simp only [taken] at h
    split at h
    · cases h
    · cases h
      simp [Token.length_of_rule? taken, Nat.add_assoc]

theorem length_of_conclude {automaton : Automaton} (h : machine.conclude = .ok automaton) :
    machine.stack.length = 1 := by
  unfold conclude at h
  split at h
  · rename_i fragment single
    simp [single]
  · cases h

/-- A token without its operands is the fault of the input. -/
theorem Holds.apply_missing (holds : machine.Holds parts) (h : token.rule? parts = none)
    (position : Nat) : machine.apply position token =
      .error (.rejected (.missingOperand token.toChar position token.arity parts.length)) := by
  have missing : token.rule? machine.stack = none := by
    rw [holds.stack, Token.rule?_map, h]
    rfl
  simp only [Machine.apply, missing]
  rw [holds.stack, List.length_map]

/-- All but a single fragment in the end is the fault of the input. -/
theorem Holds.conclude_dangling (holds : machine.Holds parts) (h : parts.length ≠ 1) :
    machine.conclude = .error (.rejected (.danglingOperands parts.length)) := by
  unfold Machine.conclude
  rw [holds.stack]
  match parts with
  | [] => rfl
  | [_] => exact absurd rfl h
  | _ :: _ :: others => simp

end Machine

namespace Compiler

variable {compiler : Compiler} {machine : Machine} {parts : List Part} {position : Nat}
  {tokens : List Token} {automaton : Automaton}

/-- A run that ends with an automaton has brought the stack to one fragment. -/
theorem gain_of_run (h : (compiler.run machine position tokens).result = .ok automaton) :
    (machine.stack.length : Int) + Token.gain tokens = 1 := by
  induction tokens generalizing machine position with
  | nil =>
    rw [result_run_nil] at h
    simp [Machine.length_of_conclude h, Token.gain]
  | cons token rest ih =>
    simp only [run] at h
    split at h
    · cases h
    · rename_i next applied
      simp only [Trace.cons] at h
      split at h
      · cases h
      · have counted := Machine.length_of_apply applied
        have := ih h
        rw [Token.gain]
        omega

def Decides (compiler : Compiler) (result : Except Failure Automaton) : Prop :=
  (∃ automaton, result = .ok automaton) ∨
    ∃ error, result = .error (.rejected error) ∧
      (error.isMalformed ∨ ∃ limit ∈ compiler.sizeLimit, error = .tooBig limit)

theorem decides_of_malformed {result : Except Failure Automaton} {error : CompileError}
    (h : result = .error (.rejected error)) (malformed : error.isMalformed) :
    compiler.Decides result :=
  .inr ⟨error, h, .inl malformed⟩

/-- By the tokens: each is applied, or misses operands, or goes beyond the limit. -/
theorem decides_run (holds : machine.Holds parts) (position : Nat) (tokens : List Token) :
    compiler.Decides (compiler.run machine position tokens).result := by
  induction tokens generalizing machine parts position with
  | nil =>
    match parts with
    | [part] =>
      obtain ⟨automaton, concluded, _⟩ := holds.conclude
      exact .inl ⟨automaton, result_run_nil.trans concluded⟩
    | [] | _ :: _ :: _ =>
      have concluded := holds.conclude_dangling (by simp)
      exact decides_of_malformed (result_run_nil.trans concluded) rfl
  | cons token rest ih =>
    cases taken : token.rule? parts with
    | none =>
      have missing := holds.apply_missing taken position
      exact decides_of_malformed (result_run_cons_of_error missing) rfl
    | some result =>
      obtain ⟨rule, others⟩ := result
      obtain ⟨applied, held⟩ := holds.apply taken position
      cases within : compiler.exceeded? (machine.after rule others).arena.size with
      | none =>
        rw [result_run_cons applied (exceeded?_eq_none_iff.mp within)]
        exact ih held (position + 1)
      | some limit =>
        have limited := (exceeded?_eq_some_iff.mp within).1
        refine .inr ⟨.tooBig limit, ?_, .inr ⟨limit, limited, rfl⟩⟩
        simp only [run, applied, within]
        rfl

end Compiler

end Thompson
