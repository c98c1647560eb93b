import Thompson.Proofs.Construction
import Thompson.Proofs.Outcome
import Thompson.Proofs.Spelling

namespace Thompson

/-- Only a symbol that is written like an operator is read as another token. -/
theorem Token.ofChar_toChar_iff {token : Token} :
    ofChar token.toChar = token ↔
      ∀ c, token = symbol c → c ≠ '*' ∧ c ≠ '|' ∧ c ≠ '.' := by
  cases token with
  | symbol c =>
    simp only [toChar, symbol.injEq, forall_eq']
    unfold ofChar
    split <;> simp_all
  | closure => simp [toChar, ofChar]
  | union => simp [toChar, ofChar]
  | concat => simp [toChar, ofChar]

namespace Expr

variable {x : Expr} {text : List Char}

theorem mem_symbols_iff {c : Char} : c ∈ x.symbols ↔ .symbol c ∈ x.tokens := by
  induction x with
  | symbol d => simp [symbols, tokens]
  | concat left right ihl ihr => simp [symbols, tokens, ihl, ihr]
  | union left right ihl ihr => simp [symbols, tokens, ihl, ihr]
  | star operand ih => simp [symbols, tokens, ih]

def OperatorFree (x : Expr) : Prop :=
  ∀ c ∈ x.symbols, c ≠ '*' ∧ c ≠ '|' ∧ c ≠ '.'

/-- Only then the characters of an expression are read as its tokens. -/
theorem operatorFree_iff : x.OperatorFree ↔ x.reversePolish.map Token.ofChar = x.tokens := by
  have each : x.reversePolish.map Token.ofChar = x.tokens ↔
      ∀ token ∈ x.tokens, Token.ofChar token.toChar = token := by
    rw [reversePolish, List.map_map]
    simpa using List.map_eq_map_iff (f := Token.ofChar ∘ Token.toChar) (g := id)
  rw [each]
  constructor
  · intro free token ht
    refine Token.ofChar_toChar_iff.mpr fun c same => free c ?_
    exact mem_symbols_iff.mpr (same ▸ ht)
  · intro read c hc
    exact Token.ofChar_toChar_iff.mp (read _ (mem_symbols_iff.mp hc)) c rfl

/-- A text is the reverse Polish form of an expression if its characters are the tokens of it. -/
theorem tokens_eq_map_ofChar_iff :
    x.tokens = text.map Token.ofChar ↔ x.OperatorFree ∧ x.reversePolish = text := by
  rw [operatorFree_iff]
  constructor
  · intro same
    have written : x.reversePolish = text := by
      rw [reversePolish, same, List.map_map]
      exact List.map_id'' Token.toChar_ofChar text
    exact ⟨by rw [written, same], written⟩
  · rintro ⟨read, rfl⟩
    exact read.symm

end Expr

namespace Compiler

variable {tokens : List Token}

/-- Without a limit, just the token sequences of expressions are compiled, and the empty one. -/
theorem compile_ok_iff : (∃ automaton, ({} : Compiler).compile tokens = .ok automaton) ↔
    tokens = [] ∨ ∃ x : Expr, x.tokens = tokens := by
  constructor
  · intro compiled
    obtain ⟨automaton, h⟩ := compiled
    by_cases empty : tokens = []
    · exact .inl empty
    · exact .inr (exists_tokens_of_compile empty h)
  · rintro (rfl | ⟨x, rfl⟩)
    · exact ⟨_, compile_nil_of_allows (allows_unlimited _)⟩
    · exact ⟨_, compile_tokens x (allows_unlimited _)⟩

/-- A text that is not empty is compiled if it is the reverse Polish form of an expression without
operators among its symbols, which it tells then, and is malformed otherwise. -/
theorem compile_reversePolish_iff (text : List Char) :
    ((∃ automaton, ({} : Compiler).compile (text.map Token.ofChar) = .ok automaton) ↔
      text = [] ∨ ∃ x : Expr, x.OperatorFree ∧ x.reversePolish = text) ∧
    {x : Expr | x.OperatorFree ∧ x.reversePolish = text}.Subsingleton ∧
    ((∃ automaton, ({} : Compiler).compile (text.map Token.ofChar) = .ok automaton) ∨
      ∃ error, ({} : Compiler).compile (text.map Token.ofChar) = .error (.rejected error) ∧
        error.isMalformed) := by
  refine ⟨?_, fun x hx y hy => Expr.tokens_injective ?_, ok_or_malformed _⟩
  · simp only [compile_ok_iff, List.map_eq_nil_iff, Expr.tokens_eq_map_ofChar_iff]
  · exact (Expr.tokens_eq_map_ofChar_iff.mpr hx).trans (Expr.tokens_eq_map_ofChar_iff.mpr hy).symm

/-- A star as a symbol and a star as an operator are written alike. -/
example : (Expr.concat (.star (.symbol 'a')) (.symbol '*')).reversePolish =
    (Expr.concat (.symbol 'a') (.star (.symbol '*'))).reversePolish := by
  rfl

end Compiler

end Thompson
