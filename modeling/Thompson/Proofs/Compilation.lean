import Thompson.Expr.Language
import Thompson.Proofs.Machine

namespace Thompson

open scoped Computability

namespace Expr

def language (expr : Expr) : Language Char :=
  {text | expr.Matches text}

theorem language_symbol (c : Char) : (symbol c).language = Rule.language (.symbol c) :=
  Language.ext fun _ => matches_symbol_iff

theorem language_concat (left right : Expr) :
    (concat left right).language = Rule.language (.concat left.language right.language) := by
  refine Language.ext fun text => matches_concat_iff.trans ?_
  simp only [Rule.language, Language.mem_mul]
  exact ⟨fun ⟨u, v, hu, hv, he⟩ => ⟨u, hu, v, hv, he⟩, fun ⟨u, hu, v, hv, he⟩ => ⟨u, v, hu, hv, he⟩⟩

theorem language_union (left right : Expr) :
    (union left right).language = Rule.language (.union left.language right.language) :=
  Language.ext fun _ => matches_union_iff

theorem matches_flatten {operand : Expr} {texts : List (List Char)}
    (h : ∀ text ∈ texts, operand.Matches text) : (star operand).Matches texts.flatten := by
  induction texts with
  | nil => exact .starNil
  | cons text others ih =>
    exact .starCons (h text (by simp)) (ih fun other hother => h other (by simp [hother]))

theorem mem_kstar_of_matches {operand : Expr} {text : List Char} (h : (star operand).Matches text) :
    text ∈ operand.language∗ := by
  generalize he : star operand = expr at h
  induction h with
  | starNil => exact Language.nil_mem_kstar _
  | starCons first others _ ih =>
    cases he
    rw [← Language.one_add_self_mul_kstar_eq_kstar]
    exact .inr (Language.append_mem_mul first (ih rfl))
  | _ => cases he

/-- The texts of a star are the runs of texts of its operand. -/
theorem language_star (operand : Expr) :
    (star operand).language = Rule.language (.closure operand.language) := by
  refine Language.ext fun text => ⟨mem_kstar_of_matches, fun h => ?_⟩
  obtain ⟨texts, rfl, hall⟩ := Language.mem_kstar.mp h
  exact matches_flatten hall

end Expr

namespace Compiler

variable {compiler : Compiler} {machine next last : Machine} {parts others : List Part}
  {position : Nat} {tokens : List Token}

/-- A run that comes through the tokens goes on with the next machine, at the position behind
them. -/
structure Passes (compiler : Compiler) (machine : Machine) (position : Nat) (tokens : List Token)
    (next : Machine) : Prop where
  size : next.arena.size = machine.arena.size + Token.states tokens
  result : ∀ rest, (compiler.run machine position (tokens ++ rest)).result =
    (compiler.run next (position + tokens.length) rest).result

theorem Passes.nil : compiler.Passes machine position [] machine :=
  ⟨rfl, fun _ => rfl⟩

theorem Passes.append {more : List Token} (first : compiler.Passes machine position tokens next)
    (second : compiler.Passes next (position + tokens.length) more last) :
    compiler.Passes machine position (tokens ++ more) last := by
  refine ⟨?_, fun rest => ?_⟩
  · rw [second.size, first.size, Token.states_append, Nat.add_assoc]
  · rw [List.append_assoc, first.result, second.result, List.length_append, Nat.add_assoc]

/-- One more token passes if it is applied and the states that it makes are allowed. -/
theorem Passes.apply {token : Token} (passed : compiler.Passes machine position tokens next)
    (applied : next.apply (position + tokens.length) token = .ok last)
    (grown : last.arena.size = next.arena.size + Token.states [token])
    (allowed : compiler.Allows (machine.arena.size + Token.states (tokens ++ [token]))) :
    compiler.Passes machine position (tokens ++ [token]) last := by
  refine passed.append ⟨grown, fun rest => result_run_cons applied ?_⟩
  rw [grown, passed.size, Nat.add_assoc, ← Token.states_append]
  exact allowed

/-- A token that finds its operands passes, with the part for them in their place. -/
theorem Passes.token {token : Token} {rule : Rule Part}
    (passed : compiler.Passes machine position tokens next) (holds : next.Holds parts)
    (taken : token.rule? parts = some (rule, others))
    (allowed : compiler.Allows (machine.arena.size + Token.states (tokens ++ [token]))) :
    compiler.Passes machine position (tokens ++ [token]) (next.after rule others) :=
  passed.apply (holds.apply taken _).1 (Machine.size_after taken) allowed

theorem Allows.of_append {size : Nat} {more : List Token}
    (allowed : compiler.Allows (size + Token.states (tokens ++ more))) :
    compiler.Allows (size + Token.states tokens) :=
  allowed.mono (by simp only [Token.states_append]; omega)

/-- Wherever they come, the tokens leave one more part on the stack, which reads the language. -/
def Leaves (compiler : Compiler) (tokens : List Token) (language : Language Char) : Prop :=
  ∀ {machine : Machine} {parts : List Part} (position : Nat), machine.Holds parts →
    compiler.Allows (machine.arena.size + Token.states tokens) →
      ∃ next part, compiler.Passes machine position tokens next ∧ next.Holds (part :: parts) ∧
        part.language = language

theorem Leaves.append {more : List Token} {first second : Language Char}
    (leaves : compiler.Leaves tokens first) (leaves' : compiler.Leaves more second)
    (position : Nat) (holds : machine.Holds parts)
    (allowed : compiler.Allows (machine.arena.size + Token.states (tokens ++ more))) :
    ∃ next left right, compiler.Passes machine position (tokens ++ more) next ∧
      next.Holds (right :: left :: parts) ∧ left.language = first ∧ right.language = second := by
  rw [Token.states_append, ← Nat.add_assoc] at allowed
  obtain ⟨between, left, passed, holds, hleft⟩ :=
    leaves position holds (allowed.mono (Nat.le_add_right _ _))
  rw [← passed.size] at allowed
  obtain ⟨next, right, passed', holds, hright⟩ :=
    leaves' (position + tokens.length) holds allowed
  exact ⟨next, left, right, passed.append passed', holds, hleft, hright⟩

/-- By the expression: the operator takes the parts that its operands have left, and the rule for
their languages gives the language of the whole. -/
theorem leaves_tokens (compiler : Compiler) (expr : Expr) :
    compiler.Leaves expr.tokens expr.language := by
  induction expr with
  | symbol c =>
    intro machine parts position holds allowed
    have taken : (Token.symbol c).rule? parts = some (.symbol c, parts) := rfl
    refine ⟨_, _, Passes.nil.token holds taken allowed, (holds.apply taken position).2, ?_⟩
    exact (Expr.language_symbol c).symm
  | concat left right ihl ihr =>
    intro machine parts position holds allowed
    obtain ⟨next, first, second, passed, holds, hfirst, hsecond⟩ :=
      ihl.append ihr position holds allowed.of_append
    have taken : Token.concat.rule? (second :: first :: parts) =
        some (.concat first second, parts) := rfl
    refine ⟨_, _, passed.token holds taken allowed, (holds.apply taken position).2, ?_⟩
    rw [Expr.language_concat, ← hfirst, ← hsecond]
    rfl
  | union left right ihl ihr =>
    intro machine parts position holds allowed
    obtain ⟨next, first, second, passed, holds, hfirst, hsecond⟩ :=
      ihl.append ihr position holds allowed.of_append
    have taken : Token.union.rule? (second :: first :: parts) =
        some (.union first second, parts) := rfl
    refine ⟨_, _, passed.token holds taken allowed, (holds.apply taken position).2, ?_⟩
    rw [Expr.language_union, ← hfirst, ← hsecond]
    rfl
  | star operand ih =>
    intro machine parts position holds allowed
    obtain ⟨next, part, passed, holds, hpart⟩ := ih position holds allowed.of_append
    have taken : Token.closure.rule? (part :: parts) = some (.closure part, parts) := rfl
    refine ⟨_, _, passed.token holds taken allowed, (holds.apply taken position).2, ?_⟩
    rw [Expr.language_star, ← hpart]
    rfl

theorem tokens_ne_nil (expr : Expr) : expr.tokens ≠ [] := by
  cases expr <;> simp [Expr.tokens]

theorem compile_eq_run (h : tokens ≠ []) :
    compiler.compile tokens = (compiler.run {} 0 tokens).result := by
  cases tokens with
  | nil => exact absurd rfl h
  | cons token rest => rfl

/-- The last part on the stack is the whole, and it is finished since its exit is still open. -/
theorem exists_compile (expr : Expr) (allowed : compiler.Allows (Token.states expr.tokens)) :
    ∃ automaton, compiler.compile expr.tokens = .ok automaton ∧
      automaton.Recognizes expr.language := by
  have start : compiler.Allows (({} : Machine).arena.size + Token.states expr.tokens) :=
    allowed.mono (Nat.le_of_eq (Nat.zero_add _))
  obtain ⟨next, part, passed, holds, hpart⟩ := leaves_tokens compiler expr 0 Machine.holds_empty start
  obtain ⟨automaton, concluded, recognizes⟩ := holds.conclude
  refine ⟨automaton, ?_, hpart ▸ recognizes⟩
  have result := passed.result []
  rw [List.append_nil] at result
  rw [compile_eq_run (tokens_ne_nil expr), result, result_run_nil, concluded]

theorem composable_empty : Part.Composable {} .empty :=
  ⟨by simp, .nil⟩

theorem build_empty : ({} : Arena).build .empty = (({} : Arena).extend .empty, .ok ⟨0, 1⟩) :=
  Arena.build_eq composable_empty.ready

theorem compile_nil_of_allows (allowed : compiler.Allows 2) :
    compiler.compile [] = .ok ⟨({} : Arena).extend .empty, 0, 1⟩ := by
  have intact := composable_empty.intact_extend
  have finished := Arena.finish_eq_ok_iff.mpr ⟨intact.sealed, rfl⟩
  have within : compiler.exceeded? (({} : Arena).extend .empty).size = none :=
    exceeded?_eq_none_iff.mpr allowed
  change compiler.compileEmpty = _
  simp only [compileEmpty, build_empty, within]
  exact congrArg (Except.mapError Failure.fault) finished

theorem exists_compile_nil (allowed : compiler.Allows 2) :
    ∃ automaton, compiler.compile [] = .ok automaton ∧ automaton.Recognizes {[]} :=
  ⟨_, compile_nil_of_allows allowed, composable_empty.intact_extend.recognizes⟩

/-- Every expression is compiled, unless its states are too many, and accepts what it matches. -/
theorem compile_recognizes (compiler : Compiler) :
    (∀ expr : Expr, compiler.Allows (Token.states expr.tokens) →
      ∃ automaton, compiler.compile expr.tokens = .ok automaton ∧
        automaton.Recognizes expr.language) ∧
    (compiler.Allows 2 →
      ∃ automaton, compiler.compile [] = .ok automaton ∧ automaton.Recognizes {[]}) :=
  ⟨fun expr allowed => exists_compile expr allowed, exists_compile_nil⟩

/-- A repeated choice, one of its symbols a star itself, that just fits into eight states. -/
theorem compile_recognizes_eight :
    (∃ automaton, (⟨some 8⟩ : Compiler).compile
        (Expr.star (.union (.symbol 'a') (.symbol '*'))).tokens = .ok automaton ∧
      automaton.Recognizes (Expr.star (.union (.symbol 'a') (.symbol '*'))).language) ∧
    ∃ automaton, (⟨some 8⟩ : Compiler).compile [] = .ok automaton ∧ automaton.Recognizes {[]} :=
  ⟨(compile_recognizes ⟨some 8⟩).1 _ (exceeded?_eq_none_iff.mp rfl),
    (compile_recognizes ⟨some 8⟩).2 (exceeded?_eq_none_iff.mp rfl)⟩

end Compiler

end Thompson
