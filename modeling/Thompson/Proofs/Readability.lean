import Thompson.Proofs.Compilation
import Thompson.Proofs.Verdict

namespace Thompson

namespace Token

variable {tokens : List Token} {token : Token}

theorem gain_append (first second : List Token) :
    gain (first ++ second) = gain first + gain second := by
  induction first with
  | nil => simp [gain]
  | cons token rest ih =>
    rw [List.cons_append, gain, gain, ih]
    omega

inductive Fed : List Token → Prop where
  | nil : Fed []
  | snoc {tokens : List Token} {token : Token} (before : Fed tokens)
      (enough : token.arity ≤ gain tokens) : Fed (tokens ++ [token])

/-- Tokens that find their operands leave at least one, since an operator gives back one for what it
takes. -/
theorem Fed.gain_pos (fed : Fed tokens) (ne : tokens ≠ []) : 1 ≤ gain tokens := by
  cases fed with
  | nil => exact absurd rfl ne
  | snoc before enough =>
    simp only [gain_append, gain]
    omega

/-- A stack as high as the gain of the tokens before has the operands of a token that is fed. -/
theorem exists_rule? {α : Type} {stack : List α} (height : (stack.length : Int) = gain tokens)
    (enough : token.arity ≤ gain tokens) :
    ∃ rule rest, token.rule? stack = some (rule, rest) ∧
      (rest.length : Int) + 1 = gain (tokens ++ [token]) := by
  have found : (token.rule? stack).isSome := by
    rw [rule?_isSome_iff]
    omega
  obtain ⟨⟨rule, rest⟩, taken⟩ := Option.isSome_iff_exists.mp found
  have spent := length_of_rule? taken
  refine ⟨rule, rest, taken, ?_⟩
  simp only [gain_append, gain]
  omega

end Token

namespace Expr

variable {x y : Expr} {u v : List Token}

def written : List Expr → List Token
  | [] => []
  | last :: earlier => written earlier ++ last.tokens

/-- The operands that a token takes are written right before it. -/
theorem exists_written_of_rule? {token : Token} {stack rest : List Expr} {rule : Rule Expr}
    (taken : token.rule? stack = some (rule, rest)) :
    ∃ expr, written (expr :: rest) = written stack ++ [token] := by
  cases token with
  | symbol c =>
    cases taken
    exact ⟨symbol c, rfl⟩
  | closure =>
    rcases stack with _ | ⟨operand, _⟩ <;> cases taken
    exact ⟨star operand, by simp [written, tokens]⟩
  | union =>
    rcases stack with _ | ⟨right, _ | ⟨left, _⟩⟩ <;> cases taken
    exact ⟨union left right, by simp [written, tokens]⟩
  | concat =>
    rcases stack with _ | ⟨right, _ | ⟨left, _⟩⟩ <;> cases taken
    exact ⟨concat left right, by simp [written, tokens]⟩

/-- Tokens that are fed write down a stack of expressions as high as their gain. -/
theorem exists_written {tokens : List Token} (fed : Token.Fed tokens) :
    ∃ stack, written stack = tokens ∧ (stack.length : Int) = Token.gain tokens := by
  induction fed with
  | nil => exact ⟨[], rfl, rfl⟩
  | snoc before enough ih =>
    obtain ⟨stack, same, height⟩ := ih
    obtain ⟨rule, rest, taken, height'⟩ := Token.exists_rule? height enough
    obtain ⟨expr, grown⟩ := exists_written_of_rule? taken
    rw [same] at grown
    exact ⟨expr :: rest, grown, height'⟩

theorem exists_tokens_of_fed {tokens : List Token} (fed : Token.Fed tokens)
    (one : Token.gain tokens = 1) : ∃ expr : Expr, expr.tokens = tokens := by
  obtain ⟨stack, same, height⟩ := exists_written fed
  match stack with
  | [expr] => exact ⟨expr, same⟩
  | [] | _ :: _ :: _ =>
    rw [one] at height
    simp only [List.length_cons, List.length_nil] at height
    omega

/-- The last token tells the outermost operator, and then where the last operand starts. -/
theorem append_tokens_inj (h : u ++ x.tokens = v ++ y.tokens) : u = v ∧ x = y := by
  induction x generalizing y u v with
  | symbol c =>
    cases y <;> simp only [tokens, ← List.append_assoc] at h <;>
      obtain ⟨same, last⟩ := List.append_singleton_inj.mp h <;> cases last
    exact ⟨same, rfl⟩
  | concat left right ihl ihr =>
    cases y <;> simp only [tokens, ← List.append_assoc] at h <;>
      obtain ⟨operands, last⟩ := List.append_singleton_inj.mp h <;> cases last
    obtain ⟨earlier, rfl⟩ := ihr operands
    obtain ⟨same, rfl⟩ := ihl earlier
    exact ⟨same, rfl⟩
  | union left right ihl ihr =>
    cases y <;> simp only [tokens, ← List.append_assoc] at h <;>
      obtain ⟨operands, last⟩ := List.append_singleton_inj.mp h <;> cases last
    obtain ⟨earlier, rfl⟩ := ihr operands
    obtain ⟨same, rfl⟩ := ihl earlier
    exact ⟨same, rfl⟩
  | star operand ih =>
    cases y <;> simp only [tokens, ← List.append_assoc] at h <;>
      obtain ⟨operands, last⟩ := List.append_singleton_inj.mp h <;> cases last
    obtain ⟨same, rfl⟩ := ih operands
    exact ⟨same, rfl⟩

theorem tokens_injective : Function.Injective tokens := by
  intro x y h
  exact (append_tokens_inj (u := []) (v := []) h).2

end Expr

namespace Machine

theorem arity_le_of_apply {machine next : Machine} {position : Nat} {token : Token}
    (h : machine.apply position token = .ok next) : token.arity ≤ machine.stack.length := by
  obtain ⟨arena, stack⟩ := machine
  rw [← Token.rule?_isSome_iff]
  cases taken : token.rule? stack with
  | none => simp [apply, taken] at h
  | some _ => rfl

end Machine

namespace Compiler

variable {compiler : Compiler} {machine : Machine} {position : Nat} {before tokens : List Token}
  {automaton : Automaton}

/-- A run that ends with an automaton has found the operands of each token. -/
theorem fed_of_run (fed : Token.Fed before)
    (height : (machine.stack.length : Int) = Token.gain before)
    (h : (compiler.run machine position tokens).result = .ok automaton) :
    Token.Fed (before ++ tokens) := by
  induction tokens generalizing machine position before with
  | nil => rwa [List.append_nil]
  | cons token rest ih =>
    simp only [run] at h
    split at h
    · cases h
    · rename_i next applied
      simp only [Trace.cons] at h
      split at h
      · cases h
      · have enough := Machine.arity_le_of_apply applied
        have counted := Machine.length_of_apply applied
        have fed' : Token.Fed (before ++ [token]) := fed.snoc (by omega)
        have height' : (next.stack.length : Int) = Token.gain (before ++ [token]) := by
          simp only [Token.gain_append, Token.gain]
          omega
        simpa using ih fed' height' h

/-- What is compiled is an expression, unless there are no tokens. -/
theorem exists_tokens_of_compile (ne : tokens ≠ []) (h : compiler.compile tokens = .ok automaton) :
    ∃ expr : Expr, expr.tokens = tokens := by
  rw [compile_eq_run ne] at h
  have one := gain_of_run h
  have fed := fed_of_run .nil rfl h
  refine Expr.exists_tokens_of_fed (by simpa using fed) ?_
  simpa using one

end Compiler

end Thompson
