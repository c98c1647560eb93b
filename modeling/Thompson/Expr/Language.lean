import Thompson.Expr

namespace Thompson.Expr

inductive Matches : Expr → List Char → Prop where
  | symbol (c : Char) : Matches (symbol c) [c]
  | concat {left right : Expr} {u v : List Char} (first : Matches left u)
      (second : Matches right v) : Matches (concat left right) (u ++ v)
  | unionLeft {left right : Expr} {u : List Char} (taken : Matches left u) :
      Matches (union left right) u
  | unionRight {left right : Expr} {u : List Char} (taken : Matches right u) :
      Matches (union left right) u
  | starNil {operand : Expr} : Matches (star operand) []
  | starCons {operand : Expr} {u v : List Char} (first : Matches operand u)
      (others : Matches (star operand) v) : Matches (star operand) (u ++ v)

theorem matches_symbol_iff {c : Char} {w : List Char} : Matches (symbol c) w ↔ w = [c] :=
  ⟨fun h => by cases h; rfl, fun h => h ▸ .symbol c⟩

theorem matches_concat_iff {left right : Expr} {w : List Char} :
    Matches (concat left right) w ↔ ∃ u v, Matches left u ∧ Matches right v ∧ u ++ v = w := by
  constructor
  · intro h
    cases h with
    | concat first second => exact ⟨_, _, first, second, rfl⟩
  · rintro ⟨u, v, first, second, rfl⟩
    exact .concat first second

theorem matches_union_iff {left right : Expr} {w : List Char} :
    Matches (union left right) w ↔ Matches left w ∨ Matches right w := by
  constructor
  · intro h
    cases h with
    | unionLeft taken => exact .inl taken
    | unionRight taken => exact .inr taken
  · rintro (taken | taken)
    · exact .unionLeft taken
    · exact .unionRight taken

/-- A text of a star is empty or begins with a text of the operand, which may be empty itself. -/
theorem matches_star_iff {operand : Expr} {w : List Char} :
    Matches (star operand) w ↔
      w = [] ∨ ∃ u v, Matches operand u ∧ Matches (star operand) v ∧ u ++ v = w := by
  constructor
  · intro h
    cases h with
    | starNil => exact .inl rfl
    | starCons first others => exact .inr ⟨_, _, first, others, rfl⟩
  · rintro (rfl | ⟨u, v, first, others, rfl⟩)
    · exact .starNil
    · exact .starCons first others

end Thompson.Expr
