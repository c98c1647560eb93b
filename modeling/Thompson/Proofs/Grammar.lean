import Thompson.Proofs.Brackets
import Thompson.Proofs.Compilation
import Thompson.Proofs.Verdict

namespace Thompson

namespace Surface

variable {s t : List Char}

/-- The texts that spell some expression: choices between chains of starred atoms, an atom being a
plain symbol or such a text in brackets. -/
def Spelled (s : List Char) : Prop :=
  ∃ expr, Spells .choice expr s

theorem Spells.spelled_atom {expr : Expr} {atom : List Char} (last : Spells .atom expr atom)
    (h : Spelled s) : Spelled (s ++ atom) := by
  obtain ⟨whole, spells⟩ := h
  cases spells with
  | chain same => exact ⟨_, (same.concat last.atom).chain⟩
  | union first second =>
    rw [List.append_assoc]
    exact ⟨_, first.union (second.concat last.atom)⟩

/-- A star goes to the last atom of a chain and leaves the chain before it alone. -/
theorem Spells.append_star {expr : Expr} (h : Spells .chain expr s) :
    ∃ starred, Spells .chain starred (s ++ ['*']) := by
  cases h with
  | starred same => exact ⟨_, same.star.starred⟩
  | concat first second =>
    rw [List.append_assoc]
    exact ⟨_, first.concat second.star⟩

theorem Spelled.append_star (h : Spelled s) : Spelled (s ++ ['*']) := by
  obtain ⟨whole, spells⟩ := h
  cases spells with
  | chain same =>
    obtain ⟨starred, spells⟩ := same.append_star
    exact ⟨_, spells.chain⟩
  | union first second =>
    obtain ⟨starred, spells⟩ := second.append_star
    rw [List.append_assoc]
    exact ⟨_, first.union spells⟩

theorem Spelled.append_union (first : Spelled s) (second : Spelled t) :
    Spelled (s ++ ['|'] ++ t) := by
  obtain ⟨left, first⟩ := first
  obtain ⟨right, second⟩ := second
  generalize hshape : Shape.choice = shape at second
  induction second with
  | chain same => exact ⟨_, first.union same⟩
  | @union _ _ u v hu hv ih =>
    obtain ⟨whole, spells⟩ := ih rfl
    exact ⟨_, by simpa using spells.union hv⟩
  | _ => cases hshape

def worth (c : Char) : Int :=
  if c = '(' ∨ c = ')' then 0 else 1 - ((Token.ofChar c).arity : Int)

def weight (s : List Char) : Int :=
  ((mark s).map worth).sum

def cost (s : List Char) : Int :=
  if s.head?.any startsOperand then weight s - 1 else weight s

/-- Behind the end of an operand, the text that follows costs one less where a dot joins it on. -/
theorem weight_append (ends : s.getLast?.any endsOperand) (t : List Char) :
    weight (s ++ t) = weight s + cost t := by
  unfold weight cost
  rw [mark_append, joins, ends, Bool.true_and]
  cases t.head?.any startsOperand with
  | false => simp [weight]
  | true => simp [weight, worth, Token.ofChar, Token.arity]; omega

theorem weight_group (s : List Char) : weight (['('] ++ s ++ [')']) = weight s := by
  rw [weight, mark_group]
  simp [weight, worth]

theorem ofChar_of_plain {c : Char} (plain : isPlain c) : Token.ofChar c = .symbol c := by
  simp only [isPlain, Bool.and_eq_true, bne_iff_ne] at plain
  simp [Token.ofChar, plain]

theorem worth_of_plain {c : Char} (plain : isPlain c) : worth c = 1 := by
  have ordinary : ¬(c = '(' ∨ c = ')') := by simp_all [isPlain]
  simp [worth, ordinary, ofChar_of_plain plain, Token.arity]

/-- No text leaves more than one operand, or more than it finds after an operand, and those that
leave so much are spelled right. -/
structure Weighed (s : List Char) : Prop where
  weight_le : weight s ≤ 1
  spelled : weight s = 1 → Spelled s
  cost_le : cost s ≤ 0
  continues : cost s = 0 → ∀ t, Spelled t → Spelled (t ++ s)

theorem Weighed.nil : Weighed [] := by
  refine ⟨by simp [weight, mark], by simp [weight, mark], by simp [cost, weight, mark], ?_⟩
  intro _ t h
  rwa [List.append_nil]

/-- A piece with the ends of an operand, which is one if it leaves one. -/
theorem Weighed.operand {piece : List Char} (bounds : piece.head?.any startsOperand ∧
    piece.getLast?.any endsOperand) (le : weight piece ≤ 1)
    (atom : weight piece = 1 → ∃ expr, Spells .atom expr piece) (rest : Weighed s) :
    Weighed (piece ++ s) := by
  obtain ⟨starts, ends⟩ := bounds
  have total : weight (piece ++ s) = weight piece + cost s := weight_append ends s
  have after : cost (piece ++ s) = weight (piece ++ s) - 1 :=
    if_pos (any_head?_append starts s)
  have bound := rest.cost_le
  have spelled (full : weight (piece ++ s) = 1) : weight piece = 1 ∧ cost s = 0 := by omega
  refine ⟨by omega, fun full => ?_, by omega, fun full t ht => ?_⟩
  · obtain ⟨one, zero⟩ := spelled full
    obtain ⟨expr, spells⟩ := atom one
    exact rest.continues zero piece ⟨expr, spells.atom.starred.chain⟩
  · obtain ⟨one, zero⟩ := spelled (by omega)
    obtain ⟨expr, spells⟩ := atom one
    rw [← List.append_assoc]
    exact rest.continues zero (t ++ piece) (spells.spelled_atom ht)

/-- A star needs an operand before it and leaves one, so that it can only continue a spelling. -/
theorem Weighed.star (rest : Weighed s) : Weighed ('*' :: s) := by
  have total : weight ('*' :: s) = 0 + cost s := weight_append (s := ['*']) rfl s
  have after : cost ('*' :: s) = weight ('*' :: s) := rfl
  have bound := rest.cost_le
  refine ⟨by omega, fun full => by omega, by omega, fun full t ht => ?_⟩
  have := rest.continues (by omega) (t ++ ['*']) ht.append_star
  simpa using this

/-- A bar takes one operand before it and one behind, and only a spelling leaves the second. -/
theorem Weighed.bar (rest : Weighed s) : Weighed ('|' :: s) := by
  have apart : joins ['|'] s = false := rfl
  have total : weight ('|' :: s) = -1 + weight s := by
    rw [weight, mark_cons, apart]
    rfl
  have after : cost ('|' :: s) = weight ('|' :: s) := rfl
  have bound := rest.weight_le
  refine ⟨by omega, fun full => by omega, by omega, fun full t ht => ?_⟩
  have := ht.append_union (rest.spelled (by omega))
  simpa using this

/-- By the groups: each is an operand or leaves too little, and what comes behind it is weighed
already. -/
theorem Nested.weighed (h : Nested s) : Weighed s := by
  induction h with
  | nil => exact Weighed.nil
  | @other c s start stop rest ih =>
    by_cases star : c = '*'
    · exact star ▸ ih.star
    · by_cases bar : c = '|'
      · exact bar ▸ ih.bar
      · have bounds : [c].head?.any startsOperand ∧ [c].getLast?.any endsOperand := by
          simp [startsOperand, endsOperand, *]
        have single : weight [c] = worth c := by simp [weight, mark]
        rw [← List.singleton_append]
        by_cases dot : c = '.'
        · -- Marking joins a typed dot to its neighbours, but it takes operands as well.
          subst dot
          exact Weighed.operand bounds (by decide) (fun full => absurd full (by decide)) ih
        · have plain : isPlain c := by simp [isPlain, *]
          refine Weighed.operand bounds ?_ (fun _ => ⟨_, .symbol plain⟩) ih
          rw [single, worth_of_plain plain]
  | @group inner s within rest ih ih' =>
    have bounds : (['('] ++ inner ++ [')']).head?.any startsOperand ∧
        (['('] ++ inner ++ [')']).getLast?.any endsOperand :=
      ⟨rfl, any_getLast?_append _ rfl⟩
    refine Weighed.operand bounds ?_ (fun full => ?_) ih'
    · rw [weight_group]
      exact ih.weight_le
    · rw [weight_group] at full
      obtain ⟨expr, spells⟩ := ih.spelled full
      exact ⟨expr, spells.group⟩

end Surface

/-- What the compiler makes of an expression as it is typed. -/
def Compiler.compileTyped (compiler : Compiler) (s : List Char) : Except Failure Automaton :=
  compiler.compile ((Surface.reversePolish (Surface.mark s)).map Token.ofChar)

theorem Token.gain_eq_sum (tokens : List Token) :
    gain tokens = (tokens.map fun token => 1 - (token.arity : Int)).sum := by
  induction tokens with
  | nil => rfl
  | cons token rest ih => rw [gain, ih, List.map_cons, List.sum_cons]

namespace Surface

/-- A plain symbol is no operator, so that the written tokens are read back as they were. -/
theorem Spells.map_ofChar {shape : Shape} {expr : Expr} (h : Spells shape expr s) :
    expr.reversePolish.map Token.ofChar = expr.tokens := by
  unfold Expr.reversePolish
  induction h with
  | symbol plain => simp [Expr.tokens, Token.toChar, ofChar_of_plain plain]
  | group inner ih => exact ih
  | atom same ih | starred same ih | chain same ih => exact ih
  | star same ih => simp only [Expr.tokens, List.map_append, ih]; rfl
  | concat first second ih ih' => simp only [Expr.tokens, List.map_append, ih, ih']; rfl
  | union first second ih ih' => simp only [Expr.tokens, List.map_append, ih, ih']; rfl

/-- With all groups closed, the tokens leave what the text is worth. -/
theorem gain_eq_weight (h : Balanced s) :
    Token.gain ((reversePolish (mark s)).map Token.ofChar) = weight s := by
  have start : '(' ∉ reversePolish (mark s) := h.closes.mark.not_mem_shunt rfl
  have stop : ')' ∉ reversePolish (mark s) := stop_not_mem_shunt (by simp) (mark s)
  have written (c : Char) (hc : c ∈ reversePolish (mark s)) :
      1 - ((Token.ofChar c).arity : Int) = worth c := by
    have ordinary : ¬(c = '(' ∨ c = ')') := by
      intro bracket
      rcases bracket with rfl | rfl
      · exact start hc
      · exact stop hc
    rw [worth, if_neg ordinary]
  calc Token.gain ((reversePolish (mark s)).map Token.ofChar)
      = ((reversePolish (mark s)).map worth).sum := by
        rw [Token.gain_eq_sum, List.map_map]
        exact congrArg List.sum (List.map_congr_left written)
    _ = weight s := by
        rw [reversePolish, sum_shunt rfl rfl]
        simp [weight]

/-- A spelling comes out as the tokens of its tree, and from empty groups nothing comes out at
all. -/
theorem exists_compileTyped {compiler : Compiler} (unlimited : compiler.sizeLimit = none)
    (h : Spelled s ∨ Hollow s) : ∃ automaton, compiler.compileTyped s = .ok automaton := by
  have allowed (size : Nat) : compiler.Allows size := by simp [Compiler.Allows, unlimited]
  unfold Compiler.compileTyped
  rcases h with spelled | hollow
  · obtain ⟨expr, spells⟩ := spelled
    rw [spells.reversePolish_mark, spells.map_ofChar]
    obtain ⟨automaton, compiled, _⟩ := Compiler.exists_compile expr (allowed _)
    exact ⟨automaton, compiled⟩
  · rw [reversePolish_hollow hollow]
    obtain ⟨automaton, compiled, _⟩ := Compiler.exists_compile_nil (allowed _)
    exact ⟨automaton, compiled⟩

/-- What is compiled leaves one operand, or it is the empty text. -/
theorem spelled_of_compileTyped {compiler : Compiler} {automaton : Automaton} (h : Balanced s)
    (compiled : compiler.compileTyped s = .ok automaton) : Spelled s ∨ Hollow s := by
  by_cases silent : reversePolish (mark s) = []
  · exact .inr (hollow_of_reversePolish h silent)
  · rw [Compiler.compileTyped, Compiler.compile_eq_run (by simpa using silent)] at compiled
    have gain := Compiler.gain_of_run compiled
    rw [gain_eq_weight h] at gain
    exact .inl (h.closes.nested.weighed.spelled (by simpa using gain))

/-- On balanced text, nothing but the spellings and empty groups is compiled, and anything else is
rejected as malformed. -/
theorem compileTyped_iff (h : Balanced s) :
    ((∃ automaton, ({} : Compiler).compileTyped s = .ok automaton) ↔ Spelled s ∨ Hollow s) ∧
    (¬(Spelled s ∨ Hollow s) →
      ∃ error, ({} : Compiler).compileTyped s = .error (.rejected error) ∧ error.isMalformed) := by
  refine ⟨⟨fun ⟨_, compiled⟩ => spelled_of_compileTyped h compiled, exists_compileTyped rfl⟩, ?_⟩
  intro wrong
  have spoken : reversePolish (mark s) ≠ [] :=
    fun silent => wrong (.inr (hollow_of_reversePolish h silent))
  have decided : ({} : Compiler).Decides _ := Compiler.decides_run Machine.holds_empty 0
    ((reversePolish (mark s)).map Token.ofChar)
  rw [← Compiler.compile_eq_run (by simpa using spoken)] at decided
  rcases decided with ⟨automaton, compiled⟩ | ⟨error, rejected, malformed | ⟨limit, limited, _⟩⟩
  · exact absurd (spelled_of_compileTyped h compiled) wrong
  · exact ⟨error, rejected, malformed⟩
  · cases limited

theorem compileTyped_iff_group :
    (∃ automaton, ({} : Compiler).compileTyped ['(', 'a', ')', '*'] = .ok automaton) ∧
    ∃ error, ({} : Compiler).compileTyped ['a', '(', ')'] = .error (.rejected error) ∧
      error.isMalformed := by
  obtain ⟨compiled, _⟩ := compileTyped_iff (s := ['(', 'a', ')', '*']) (by decide)
  obtain ⟨accepted, rejected⟩ := compileTyped_iff (s := ['a', '(', ')']) (by decide)
  have letter : Spells .choice (.symbol 'a') ['a'] := (Spells.symbol rfl).atom.starred.chain
  refine ⟨compiled.mpr (.inl ⟨_, letter.group.atom.star.starred.chain⟩), rejected fun right => ?_⟩
  obtain ⟨automaton, found⟩ := accepted.mpr right
  have missing : ({} : Compiler).compileTyped ['a', '(', ')'] =
      .error (.rejected (.missingOperand '.' 1 2 1)) := by rfl
  rw [missing] at found
  cases found

end Surface

end Thompson
