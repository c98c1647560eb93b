import Mathlib.Order.Bounds.Basic
import Thompson.Proofs.Readability

namespace Thompson

namespace Machine

variable {machine : Machine}

end Machine

namespace Compiler

variable {compiler : Compiler} {limit : Nat}

/-- The empty text has two states as well, which are counted once they are made. -/
theorem compile_nil_of_lt (limited : compiler.sizeLimit = some limit) (small : limit < 2) :
    compiler.compile [] = .error (.rejected (.tooBig limit)) := by
  have beyond : compiler.exceeded? (({} : Arena).extend .empty).size = some limit :=
    exceeded?_eq_some_iff.mpr ⟨limited, small⟩
  change compiler.compileEmpty = _
  simp only [compileEmpty, build_empty, beyond]

theorem compile_nil (compiler : Compiler) :
    (∃ limit, compiler.sizeLimit = some limit ∧ limit < 2 ∧
      compiler.compile [] = .error (.rejected (.tooBig limit))) ∨
    compiler.Allows 2 ∧ ∃ automaton, compiler.compile [] = .ok automaton := by
  cases within : compiler.exceeded? 2 with
  | none =>
    have allowed := exceeded?_eq_none_iff.mp within
    obtain ⟨automaton, compiled, _⟩ := exists_compile_nil allowed
    exact .inr ⟨allowed, automaton, compiled⟩
  | some limit =>
    obtain ⟨limited, small⟩ := exceeded?_eq_some_iff.mp within
    exact .inl ⟨limit, limited, small, compile_nil_of_lt limited small⟩

/-- Without a limit nothing but the input itself is at fault. -/
theorem ok_or_malformed (tokens : List Token) :
    (∃ automaton, ({} : Compiler).compile tokens = .ok automaton) ∨
      ∃ error, ({} : Compiler).compile tokens = .error (.rejected error) ∧ error.isMalformed := by
  by_cases empty : tokens = []
  · subst empty
    rcases ({} : Compiler).compile_nil with ⟨_, limited, _⟩ | ⟨_, compiled⟩
    · cases limited
    · exact .inl compiled
  · rw [compile_eq_run empty]
    rcases decides_run Machine.holds_empty 0 tokens with
      compiled | ⟨error, rejected, malformed | ⟨_, limited, _⟩⟩
    · exact .inl compiled
    · exact .inr ⟨error, rejected, malformed⟩
    · cases limited

end Compiler

namespace Token

def depth (tokens : List Token) (i : Nat) : Int :=
  gain (tokens.take i)

def Starved (tokens : List Token) (i : Nat) : Prop :=
  ∃ token, tokens[i]? = some token ∧ depth tokens i < token.arity

def Outgrown (tokens : List Token) (limit i : Nat) : Prop :=
  i < tokens.length ∧ limit < states (tokens.take (i + 1))

variable {tokens : List Token} {token : Token} {limit p q : Nat}

theorem take_succ_of_getElem? (found : tokens[p]? = some token) :
    tokens.take (p + 1) = tokens.take p ++ [token] := by
  rw [List.take_add_one, found]
  rfl

@[simp] theorem depth_length (tokens : List Token) : depth tokens tokens.length = gain tokens := by
  rw [depth, List.take_length]

theorem states_take_le (early : ∀ i < p, ¬Outgrown tokens limit i) :
    states (tokens.take p) ≤ limit := by
  induction p with
  | zero => exact Nat.zero_le _
  | succ p ih =>
    by_cases inside : p < tokens.length
    · exact Nat.le_of_not_lt fun more => early p (Nat.lt_succ_self _) ⟨inside, more⟩
    · have short := Nat.le_of_not_lt inside
      rw [List.take_of_length_le (Nat.le_succ_of_le short)]
      rw [List.take_of_length_le short] at ih
      exact ih fun i lt => early i (Nat.lt_succ_of_lt lt)

theorem fed_take (early : ∀ i < p, ¬Starved tokens i) : Fed (tokens.take p) := by
  induction p with
  | zero => exact .nil
  | succ p ih =>
    have before := ih fun i lt => early i (Nat.lt_succ_of_lt lt)
    cases found : tokens[p]? with
    | none =>
      rw [List.take_add_one, found]
      simpa using before
    | some token =>
      rw [take_succ_of_getElem? found]
      refine .snoc before (Int.not_lt.mp fun short => ?_)
      exact early p (Nat.lt_succ_self _) ⟨token, found, short⟩

theorem fed_of_forall (never : ∀ i, ¬Starved tokens i) : Fed tokens := by
  rw [← List.take_length (l := tokens)]
  exact fed_take fun i _ => never i

theorem eq_take_cons_drop (found : tokens[p]? = some token) :
    tokens = tokens.take p ++ token :: tokens.drop (p + 1) := by
  obtain ⟨lt, rfl⟩ := List.getElem?_eq_some_iff.mp found
  rw [List.getElem_cons_drop, List.take_append_drop]

end Token

/-- If no place before the bound is the first one with a property, none there has it. -/
theorem not_of_first_le {P : Nat → Prop} {p i : Nat} (bound : ∀ q, IsLeast {i | P i} q → p ≤ q)
    (lt : i < p) : ¬P i := by
  classical
  intro h
  have first : IsLeast {i | P i} (Nat.find ⟨i, h⟩) :=
    ⟨Nat.find_spec _, fun _ other => Nat.find_min' _ other⟩
  exact Nat.not_le_of_lt lt (Nat.le_trans (bound _ first) (first.2 h))

namespace Compiler

variable {compiler : Compiler} {tokens : List Token} {token : Token} {limit p q : Nat}

/-- Tokens that find their operands within the limit pass, and the stack is as high as their
gain. -/
theorem exists_passes (fed : Token.Fed tokens) (allowed : compiler.Allows (Token.states tokens)) :
    ∃ next parts, compiler.Passes {} 0 tokens next ∧ next.Holds parts ∧
      (parts.length : Int) = Token.gain tokens := by
  induction fed with
  | nil => exact ⟨{}, [], Passes.nil, Machine.holds_empty, rfl⟩
  | @snoc tokens token before enough ih =>
    have room : compiler.Allows (({} : Machine).arena.size + Token.states (tokens ++ [token])) :=
      allowed.mono (Nat.le_of_eq (Nat.zero_add _))
    obtain ⟨next, parts, passed, holds, counted⟩ :=
      ih (room.of_append.mono (Nat.le_of_eq (Nat.zero_add _).symm))
    obtain ⟨rule, rest, taken, counted'⟩ := Token.exists_rule? counted enough
    exact ⟨_, _, passed.token holds taken room, (holds.apply taken tokens.length).2, counted'⟩

/-- The tokens before a position pass, if none of them is starved or takes the arena past a limit. -/
theorem exists_passes_take (fed : ∀ i < p, ¬Token.Starved tokens i)
    (within : ∀ limit, compiler.sizeLimit = some limit → ∀ i < p, ¬Token.Outgrown tokens limit i) :
    ∃ next parts, compiler.Passes {} 0 (tokens.take p) next ∧ next.Holds parts ∧
      (parts.length : Int) = Token.depth tokens p :=
  exists_passes (Token.fed_take fed) fun limit limited => Token.states_take_le (within limit limited)

/-- When the tokens before a position have passed, the result is decided from there on. -/
theorem compile_eq_of_passes {next : Machine} (found : tokens[p]? = some token)
    (passed : compiler.Passes {} 0 (tokens.take p) next) :
    compiler.compile tokens =
      (compiler.run next p (token :: tokens.drop (p + 1))).result := by
  have split := Token.eq_take_cons_drop found
  have ne : tokens ≠ [] := by
    intro empty
    rw [empty] at found
    cases found
  have count : (tokens.take p).length = p :=
    List.length_take_of_le (Nat.le_of_lt (List.getElem?_eq_some_iff.mp found).1)
  have result := passed.result (token :: tokens.drop (p + 1))
  rw [← split, count, Nat.zero_add] at result
  rw [compile_eq_run ne, result]

/-- The first starved token decides, if the limit has not been passed before it. -/
theorem compile_of_starved (found : tokens[p]? = some token)
    (starved : Token.depth tokens p < token.arity) (fed : ∀ i < p, ¬Token.Starved tokens i)
    (within : ∀ limit, compiler.sizeLimit = some limit → ∀ i < p, ¬Token.Outgrown tokens limit i) :
    ∃ found : Nat, (found : Int) = Token.depth tokens p ∧ compiler.compile tokens =
      .error (.rejected (.missingOperand token.toChar p token.arity found)) := by
  obtain ⟨next, parts, passed, holds, counted⟩ := exists_passes_take fed within
  have missing : token.rule? parts = none := by
    rw [← Option.not_isSome_iff_eq_none, Token.rule?_isSome_iff]
    omega
  refine ⟨parts.length, counted, ?_⟩
  rw [compile_eq_of_passes found passed]
  exact result_run_cons_of_error (holds.apply_missing missing p)

/-- The first token beyond the limit decides, if all tokens up to it found their operands. -/
theorem compile_of_outgrown (limited : compiler.sizeLimit = some limit)
    (outgrown : Token.Outgrown tokens limit q) (within : ∀ i < q, ¬Token.Outgrown tokens limit i)
    (fed : ∀ i ≤ q, ¬Token.Starved tokens i) :
    compiler.compile tokens = .error (.rejected (.tooBig limit)) := by
  obtain ⟨inside, more⟩ := outgrown
  have found : tokens[q]? = some tokens[q] := List.getElem?_eq_getElem inside
  have before : ∀ other, compiler.sizeLimit = some other → ∀ i < q, ¬Token.Outgrown tokens other i := by
    intro other limited'
    cases limited.symm.trans limited'
    exact within
  obtain ⟨next, parts, passed, holds, counted⟩ :=
    exists_passes_take (fun i lt => fed i (Nat.le_of_lt lt)) before
  have enough : (tokens[q].rule? parts).isSome := by
    rw [Token.rule?_isSome_iff]
    by_contra short
    exact fed q (Nat.le_refl q) ⟨_, found, by omega⟩
  obtain ⟨⟨rule, rest⟩, taken⟩ := Option.isSome_iff_exists.mp enough
  have size : (next.after rule rest).arena.size = Token.states (tokens.take (q + 1)) := by
    rw [Machine.size_after taken, passed.size, Token.take_succ_of_getElem? found, Token.states_append]
    exact congrArg (· + _) (Nat.zero_add _)
  rw [compile_eq_of_passes found passed]
  apply result_run_cons_of_exceeded (holds.apply taken q).1
  rw [size]
  exact exceeded?_eq_some_iff.mpr ⟨limited, more⟩

/-- Where every token passes, the height of the stack decides. -/
theorem compile_of_fed (ne : tokens ≠ []) (fed : ∀ i, ¬Token.Starved tokens i)
    (within : ∀ limit i, compiler.sizeLimit = some limit → ¬Token.Outgrown tokens limit i) :
    if Token.depth tokens tokens.length = 1 then ∃ automaton, compiler.compile tokens = .ok automaton
    else ∃ remaining : Nat, (remaining : Int) = Token.depth tokens tokens.length ∧ 2 ≤ remaining ∧
      compiler.compile tokens = .error (.rejected (.danglingOperands remaining)) := by
  obtain ⟨next, parts, passed, holds, counted⟩ := exists_passes_take (p := tokens.length)
    (fun i _ => fed i) fun limit limited i _ => within limit i limited
  have result := passed.result []
  rw [List.take_length, List.append_nil, result_run_nil] at result
  rw [compile_eq_run ne, result]
  have waiting := (Token.fed_of_forall fed).gain_pos ne
  rw [← Token.depth_length] at waiting
  split
  · match parts with
    | [part] =>
      obtain ⟨automaton, concluded, _⟩ := holds.conclude
      exact ⟨automaton, concluded⟩
    | [] | _ :: _ :: _ => simp only [List.length_cons, List.length_nil] at counted; omega
  · have several : 2 ≤ parts.length := by omega
    exact ⟨parts.length, counted, several, holds.conclude_dangling (by omega)⟩

/-- The result that the counts call for. The first token at fault decides, and at one token a missing
operand is seen before the states are counted. -/
structure Outcome (compiler : Compiler) (tokens : List Token)
    (result : Except Failure Automaton) : Prop where
  missing : ∀ p token, IsLeast {i | Token.Starved tokens i} p → tokens[p]? = some token →
    (∀ limit q, compiler.sizeLimit = some limit → IsLeast {i | Token.Outgrown tokens limit i} q →
      p ≤ q) →
    ∃ found : Nat, (found : Int) = Token.depth tokens p ∧
      result = .error (.rejected (.missingOperand token.toChar p token.arity found))
  tooBig : ∀ limit q, compiler.sizeLimit = some limit →
    IsLeast {i | Token.Outgrown tokens limit i} q →
    (∀ p, IsLeast {i | Token.Starved tokens i} p → q < p) →
    result = .error (.rejected (.tooBig limit))
  passed : (∀ i, ¬Token.Starved tokens i) →
    (∀ limit i, compiler.sizeLimit = some limit → ¬Token.Outgrown tokens limit i) →
    if tokens = [] then
      (∀ limit, compiler.sizeLimit = some limit → limit < 2 →
        result = .error (.rejected (.tooBig limit))) ∧
      (compiler.Allows 2 → ∃ automaton, result = .ok automaton)
    else if Token.depth tokens tokens.length = 1 then ∃ automaton, result = .ok automaton
    else ∃ remaining : Nat, (remaining : Int) = Token.depth tokens tokens.length ∧ 2 ≤ remaining ∧
      result = .error (.rejected (.danglingOperands remaining))

/-- The outcome is the one that the counts call for, whatever the tokens and the limit. -/
theorem compile_outcome (compiler : Compiler) (tokens : List Token) :
    compiler.Outcome tokens (compiler.compile tokens) := by
  refine ⟨?_, ?_, ?_⟩
  · intro p token first found bound
    obtain ⟨other, found', starved⟩ := first.1
    cases found.symm.trans found'
    apply compile_of_starved found starved
    · exact fun i lt early => Nat.not_le_of_lt lt (first.2 early)
    · exact fun limit limited i => not_of_first_le (bound limit · limited)
  · intro limit q limited first bound
    apply compile_of_outgrown limited first.1
    · exact fun i lt early => Nat.not_le_of_lt lt (first.2 early)
    · exact fun i le => not_of_first_le bound (Nat.lt_succ_of_le le)
  · intro fed within
    split
    · rename_i empty
      subst empty
      refine ⟨fun limit => compile_nil_of_lt, fun allowed => ?_⟩
      obtain ⟨automaton, compiled, _⟩ := exists_compile_nil allowed
      exact ⟨automaton, compiled⟩
    · rename_i ne
      exact compile_of_fed ne fed within

example : (⟨some 0⟩ : Compiler).compile [.closure] =
    .error (.rejected (.missingOperand '*' 0 1 0)) := by
  rfl

end Compiler

end Thompson
