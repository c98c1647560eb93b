import Thompson.Expr
import Thompson.Surface.Markers
import Thompson.Surface.Operators

namespace Thompson

def Expr.symbols : Expr → List Char
  | symbol c => [c]
  | concat left right | union left right => left.symbols ++ right.symbols
  | star operand => operand.symbols

namespace Surface

def isPlain (c : Char) : Bool :=
  c != '(' && c != ')' && c != '*' && c != '|' && c != '.'

inductive Shape where
  | atom
  | starred
  | chain
  | choice

/-- The ways to write an expression. An operand has a shape that is closer than its operator, but a
chain and a choice are continued on the right. -/
inductive Spells : Shape → Expr → List Char → Prop where
  | symbol {c : Char} (plain : isPlain c) : Spells .atom (.symbol c) [c]
  | group {expr : Expr} {s : List Char} (inner : Spells .choice expr s) :
      Spells .atom expr (['('] ++ s ++ [')'])
  | atom {expr : Expr} {s : List Char} (same : Spells .atom expr s) : Spells .starred expr s
  | star {operand : Expr} {s : List Char} (same : Spells .starred operand s) :
      Spells .starred (.star operand) (s ++ ['*'])
  | starred {expr : Expr} {s : List Char} (same : Spells .starred expr s) : Spells .chain expr s
  | concat {left right : Expr} {s t : List Char} (first : Spells .chain left s)
      (second : Spells .starred right t) : Spells .chain (.concat left right) (s ++ t)
  | chain {expr : Expr} {s : List Char} (same : Spells .chain expr s) : Spells .choice expr s
  | union {left right : Expr} {s t : List Char} (first : Spells .choice left s)
      (second : Spells .chain right t) : Spells .choice (.union left right) (s ++ ['|'] ++ t)

section Marks

variable {s t : List Char}

def joins (s t : List Char) : Bool :=
  s.getLast?.any endsOperand && t.head?.any startsOperand

theorem any_head?_append {p : Char → Bool} (h : s.head?.any p) (t : List Char) :
    (s ++ t).head?.any p := by
  cases s with
  | nil => cases h
  | cons c s => exact h

theorem any_getLast?_append {p : Char → Bool} (s : List Char) (h : t.getLast?.any p) :
    (s ++ t).getLast?.any p := by
  rw [List.getLast?_append]
  cases last : t.getLast? with
  | none => simp [last] at h
  | some c => simpa [last] using h

/-- Pieces are marked each on its own, with a dot between them where an operand ends and another
starts. -/
theorem mark_append (s t : List Char) :
    mark (s ++ t) = mark s ++ if joins s t then '.' :: mark t else mark t := by
  induction s with
  | nil => simp [joins, mark]
  | cons c s ih =>
    cases s with
    | cons d s =>
      have last : joins (c :: d :: s) t = joins (d :: s) t := by simp [joins]
      rw [last]
      simp only [List.cons_append] at ih ⊢
      simp only [mark, ih]
      split <;> rfl
    | nil =>
      cases t with
      | nil => simp [joins, mark]
      | cons d t =>
        have at_seam : joins [c] (d :: t) = (endsOperand c && startsOperand d) := rfl
        rw [at_seam]
        simp only [List.cons_append, List.nil_append, mark]
        exact (apply_ite (List.cons c) _ _ _).symm

theorem mark_cons (c : Char) (s : List Char) :
    mark (c :: s) = c :: if joins [c] s then '.' :: mark s else mark s :=
  mark_append [c] s

theorem mark_group (s : List Char) : mark (['('] ++ s ++ [')']) = ['('] ++ mark s ++ [')'] := by
  rw [mark_append, mark_append]
  simp [joins, endsOperand, startsOperand, mark]

theorem mark_star (s : List Char) : mark (s ++ ['*']) = mark s ++ ['*'] := by
  rw [mark_append]
  simp [joins, startsOperand, mark]

theorem mark_union (s t : List Char) : mark (s ++ ['|'] ++ t) = mark s ++ ['|'] ++ mark t := by
  rw [mark_append, mark_append]
  simp [joins, startsOperand, endsOperand, mark]

end Marks

section Waiting

variable {stack rest : List Char} {c operator : Char}

theorem shunt_of_ne (start : c ≠ '(') (stop : c ≠ ')') :
    shunt stack (c :: rest) =
      if c = '.' ∨ c = '|' then
        stack.takeWhile (goesBefore c) ++ shunt (c :: stack.dropWhile (goesBefore c)) rest
      else c :: shunt stack rest := by
  simp only [shunt]

/-- Those that bind as closely go out before a new operator waits. -/
theorem shunt_operator (h : operator = '.' ∨ operator = '|') :
    shunt stack (operator :: rest) =
      stack.takeWhile (goesBefore operator) ++
        shunt (operator :: stack.dropWhile (goesBefore operator)) rest := by
  rcases h with rfl | rfl <;> simp [shunt]

theorem shunt_other (h : isPlain c ∨ c = '*') : shunt stack (c :: rest) = c :: shunt stack rest := by
  have ordinary : c ≠ '(' ∧ c ≠ ')' ∧ c ≠ '.' ∧ c ≠ '|' := by
    rcases h with h | h
    · simp_all [isPlain]
    · simp [h]
  obtain ⟨start, stop, dot, bar⟩ := ordinary
  rw [shunt_of_ne start stop, if_neg (not_or.mpr ⟨dot, bar⟩)]

/-- An operator waits on top of what does not go out before it. -/
theorem shunt_operator_of_waits (h : operator = '.' ∨ operator = '|')
    (waits : stack.takeWhile (goesBefore operator) = []) :
    shunt stack (operator :: rest) = shunt (operator :: stack) rest := by
  have kept : stack.dropWhile (goesBefore operator) = stack := by
    simpa [waits] using stack.takeWhile_append_dropWhile (p := goesBefore operator)
  rw [shunt_operator h, waits, kept, List.nil_append]

/-- What comes next takes the operator off the stack before it does anything else. -/
def Flushes (operator : Char) (rest : List Char) : Prop :=
  ∀ stack, shunt (operator :: stack) rest = operator :: shunt stack rest

theorem flushes_nil (operator : Char) : Flushes operator [] :=
  fun _ => by simp [shunt]

theorem flushes_close (h : operator ≠ '(') (rest : List Char) : Flushes operator (')' :: rest) :=
  fun _ => by simp [shunt, h]

/-- An operator that binds less closely, or as closely, takes the waiting one off. -/
theorem flushes_operator (h : c = '.' ∨ c = '|') (before : goesBefore c operator) (rest : List Char) :
    Flushes operator (c :: rest) :=
  fun _ => by simp [shunt_operator h, before]

/-- The operator waits for its second operand and goes out after it. -/
theorem shunt_infix {first second firstOut secondOut : List Char}
    (h : operator = '.' ∨ operator = '|') (waits : stack.takeWhile (goesBefore operator) = [])
    (flushes : Flushes operator rest)
    (before : shunt stack (first ++ operator :: (second ++ rest)) =
      firstOut ++ shunt stack (operator :: (second ++ rest)))
    (after : shunt (operator :: stack) (second ++ rest) =
      secondOut ++ shunt (operator :: stack) rest) :
    shunt stack (first ++ [operator] ++ second ++ rest) =
      firstOut ++ secondOut ++ [operator] ++ shunt stack rest := by
  calc shunt stack (first ++ [operator] ++ second ++ rest)
      = firstOut ++ shunt stack (operator :: (second ++ rest)) := by
        rw [← before]
        simp
    _ = firstOut ++ (secondOut ++ operator :: shunt stack rest) := by
        rw [shunt_operator_of_waits h waits, after, flushes]
    _ = firstOut ++ secondOut ++ [operator] ++ shunt stack rest := by simp

end Waiting

def Shape.operators : Shape → List Char
  | atom | starred => []
  | chain => ['.']
  | choice => ['|', '.']

def Shape.Fits (shape : Shape) (stack rest : List Char) : Prop :=
  ∀ operator ∈ shape.operators,
    stack.takeWhile (goesBefore operator) = [] ∧ Flushes operator rest

namespace Spells

variable {shape : Shape} {expr left right : Expr} {s t stack rest : List Char}

/-- A spelling meets its neighbours with characters that belong to operands. -/
theorem bounds (h : Spells shape expr s) :
    s.head?.any startsOperand ∧ s.getLast?.any endsOperand := by
  induction h with
  | symbol plain => simp_all [isPlain, startsOperand, endsOperand]
  | group inner ih => exact ⟨rfl, any_getLast?_append _ rfl⟩
  | star same ih => exact ⟨any_head?_append ih.1 _, any_getLast?_append _ rfl⟩
  | atom same ih | starred same ih | chain same ih => exact ih
  | concat first second ih ih' => exact ⟨any_head?_append ih.1 _, any_getLast?_append _ ih'.2⟩
  | union first second ih ih' =>
    rw [List.append_assoc]
    exact ⟨any_head?_append ih.1 _, any_getLast?_append _ (any_getLast?_append _ ih'.2)⟩

theorem mark_concat (first : Spells .chain left s) (second : Spells .starred right t) :
    mark (s ++ t) = mark s ++ ['.'] ++ mark t := by
  simp [mark_append, joins, first.bounds.2, second.bounds.1]

theorem fits_starred (stack rest : List Char) : Shape.starred.Fits stack rest := by
  intro operator ho
  cases ho

theorem fits_chain_iff : Shape.chain.Fits stack rest ↔
    stack.takeWhile (goesBefore '.') = [] ∧ Flushes '.' rest := by
  simp only [Shape.Fits, Shape.operators, List.mem_singleton, forall_eq]

/-- Inside of brackets every shape fits, since the open bracket holds back what waits before it. -/
theorem fits_group (stack rest : List Char) : shape.Fits ('(' :: stack) (')' :: rest) := by
  intro operator ho
  have ordinary : operator ≠ '(' := by
    intro start
    subst start
    cases shape <;> simp [Shape.operators] at ho
  exact ⟨by simp [goesBefore], flushes_close ordinary rest⟩

/-- The yard puts out the reverse Polish form of a spelling and leaves the stack as it was. -/
theorem shunt_mark (h : Spells shape expr s) (fits : shape.Fits stack rest) :
    shunt stack (mark s ++ rest) = expr.reversePolish ++ shunt stack rest := by
  -- Atoms and stars need nothing of what follows. A chain or a choice leaves its last operator
  -- waiting, so that what follows has to flush it.
  induction h generalizing stack rest with
  | symbol plain => exact shunt_other (.inl plain)
  | group inner ih =>
    rw [mark_group]
    have := ih (fits_group stack rest)
    simp [shunt, this]
  | @star operand s same ih =>
    have := @ih stack ('*' :: rest) (fits_starred _ _)
    simp [mark_star, this, shunt_other, Expr.reversePolish, Expr.tokens, Token.toChar]
  | atom same ih => exact ih fits
  | starred same ih => exact ih (fits_starred _ _)
  | chain same ih => exact ih fun operator ho => fits operator (List.mem_cons_of_mem _ ho)
  | @concat left right s t first second ih ih' =>
    obtain ⟨waits, flushes⟩ := fits_chain_iff.mp fits
    have first_out : Flushes '.' ('.' :: (mark t ++ rest)) := flushes_operator (.inl rfl) rfl _
    have between := ih (fits_chain_iff.mpr ⟨waits, first_out⟩)
    have after := @ih' ('.' :: stack) rest (fits_starred _ _)
    rw [mark_concat first second, shunt_infix (.inl rfl) waits flushes between after]
    simp [Expr.reversePolish, Expr.tokens, Token.toChar]
  | @union left right s t first second ih ih' =>
    obtain ⟨waits, flushes⟩ := fits '|' (by simp [Shape.operators])
    have first_out : Shape.choice.Fits stack ('|' :: (mark t ++ rest)) := by
      intro operator ho
      refine ⟨(fits operator ho).1, flushes_operator (.inr rfl) ?_ _⟩
      simp only [Shape.operators, List.mem_cons, List.not_mem_nil, or_false] at ho
      rcases ho with rfl | rfl <;> decide
    have dots : Flushes '.' rest := (fits '.' (by simp [Shape.operators])).2
    have between := ih first_out
    have after := @ih' ('|' :: stack) rest (fits_chain_iff.mpr ⟨rfl, dots⟩)
    rw [mark_union, shunt_infix (.inr rfl) waits flushes between after]
    simp [Expr.reversePolish, Expr.tokens, Token.toChar]

/-- With nothing waiting and nothing behind it, a spelling comes out whole. -/
theorem reversePolish_mark (h : Spells shape expr s) :
    reversePolish (mark s) = expr.reversePolish := by
  have fits : shape.Fits [] [] := fun operator _ => ⟨rfl, flushes_nil operator⟩
  simpa [reversePolish, shunt] using h.shunt_mark fits

/-- Operands side by side are taken in from the left. -/
theorem foldl_concat {others : List (Expr × List Char)} (first : Spells .chain expr s)
    (h : ∀ next ∈ others, Spells .starred next.1 next.2) :
    Spells .chain (others.foldl (fun left next => .concat left next.1) expr)
      (s ++ others.flatMap Prod.snd) := by
  induction others generalizing expr s with
  | nil => simpa using first
  | cons next others ih =>
    obtain ⟨hnext, hothers⟩ := List.forall_mem_cons.mp h
    simpa using ih (first.concat hnext) hothers

/-- Alternatives are taken in from the left. -/
theorem foldl_union {others : List (Expr × List Char)} (first : Spells .choice expr s)
    (h : ∀ next ∈ others, Spells .chain next.1 next.2) :
    Spells .choice (others.foldl (fun left next => .union left next.1) expr)
      (s ++ others.flatMap fun next => '|' :: next.2) := by
  induction others generalizing expr s with
  | nil => simpa using first
  | cons next others ih =>
    obtain ⟨hnext, hothers⟩ := List.forall_mem_cons.mp h
    simpa using ih (first.union hnext) hothers

/-- Brackets around every operand make a spelling. -/
theorem bracketed (plain : ∀ c ∈ expr.symbols, isPlain c) : Spells .chain expr expr.bracketed := by
  induction expr with
  | symbol c => exact (symbol (plain c (by simp [Expr.symbols]))).atom.starred
  | concat left right ihl ihr =>
    simp only [Expr.symbols, List.mem_append] at plain
    have first := (ihl fun c hc => plain c (.inl hc)).chain.group.atom.starred
    have second := (ihr fun c hc => plain c (.inr hc)).chain.group.atom
    simpa [Expr.bracketed] using first.concat second
  | union left right ihl ihr =>
    simp only [Expr.symbols, List.mem_append] at plain
    have first := (ihl fun c hc => plain c (.inl hc)).chain
    have second := ihr fun c hc => plain c (.inr hc)
    simpa [Expr.bracketed] using (first.union second).group.atom.starred
  | star operand ih =>
    simpa [Expr.bracketed] using (ih plain).chain.group.atom.star.starred

end Spells

/-- Every spelling comes to the reverse Polish form of its expression, the one with brackets
everywhere as well as those that leave the order to the operators. -/
theorem reversePolish_mark_spelling :
    (∀ expr s, Spells .choice expr s → reversePolish (mark s) = expr.reversePolish) ∧
    (∀ expr : Expr, (∀ c ∈ expr.symbols, isPlain c) →
      Spells .choice expr expr.bracketed ∧
        reversePolish (mark expr.bracketed) = expr.reversePolish) ∧
    (∀ expr s (others : List (Expr × List Char)), Spells .starred expr s →
      (∀ next ∈ others, Spells .starred next.1 next.2) →
        reversePolish (mark (s ++ others.flatMap Prod.snd)) =
          (others.foldl (fun left next => .concat left next.1) expr).reversePolish) ∧
    (∀ expr s (others : List (Expr × List Char)), Spells .chain expr s →
      (∀ next ∈ others, Spells .chain next.1 next.2) →
        reversePolish (mark (s ++ others.flatMap fun next => '|' :: next.2)) =
          (others.foldl (fun left next => .union left next.1) expr).reversePolish) := by
  refine ⟨fun expr s h => h.reversePolish_mark, ?_, ?_, ?_⟩
  · intro expr plain
    exact ⟨(Spells.bracketed plain).chain, (Spells.bracketed plain).reversePolish_mark⟩
  · intro expr s others first h
    exact (first.starred.foldl_concat h).reversePolish_mark
  · intro expr s others first h
    exact (first.chain.foldl_union h).reversePolish_mark

theorem spells_loop : Spells .choice (.concat (.star (.union (.symbol 'a') (.symbol 'b')))
    (.symbol 'c')) ['(', 'a', '|', 'b', ')', '*', 'c'] := by
  have a : Spells .choice (.symbol 'a') ['a'] := (Spells.symbol rfl).atom.starred.chain
  have b : Spells .chain (.symbol 'b') ['b'] := (Spells.symbol rfl).atom.starred
  exact ((a.union b).group.atom.star.starred.concat (Spells.symbol rfl).atom).chain

theorem reversePolish_mark_spelling_abc :
    reversePolish (mark ['(', 'a', '|', 'b', ')', '*', 'c']) = ['a', 'b', '|', '*', 'c', '.'] ∧
    reversePolish (mark (Expr.star (.symbol 'a')).bracketed) = ['a', '*'] ∧
    reversePolish (mark ['a', 'b', 'c']) = ['a', 'b', '.', 'c', '.'] ∧
    reversePolish (mark ['a', '|', 'b', '|', 'c']) = ['a', 'b', '|', 'c', '|'] := by
  obtain ⟨spelled, bracketed, chains, choices⟩ := reversePolish_mark_spelling
  have letter (c : Char) (plain : isPlain c) : Spells .starred (.symbol c) [c] :=
    (Spells.symbol plain).atom
  refine ⟨spelled _ _ spells_loop, (bracketed _ (by simp [Expr.symbols, isPlain])).2, ?_, ?_⟩
  · refine chains (.symbol 'a') ['a'] [(.symbol 'b', ['b']), (.symbol 'c', ['c'])] (letter _ rfl) ?_
    simp [letter, isPlain]
  · refine choices (.symbol 'a') ['a'] [(.symbol 'b', ['b']), (.symbol 'c', ['c'])]
      (letter _ rfl).starred ?_
    simp [(letter _ _).starred, isPlain]

end Surface

end Thompson
