import Thompson.Proofs.Decoding
import Thompson.Proofs.Readability

namespace Thompson

inductive Root where
  | symbol
  | concat
  | union
  | star
deriving DecidableEq

namespace Expr

def root : Expr → Root
  | symbol _ => .symbol
  | concat _ _ => .concat
  | union _ _ => .union
  | star _ => .star

def chain : Expr → Expr → Expr
  | concat left right, last => concat left (right.chain last)
  | symbol c, last => concat (symbol c) last
  | union left right, last => concat (union left right) last
  | star operand, last => concat (star operand) last

def rightNested : Expr → Expr
  | symbol c => symbol c
  | concat left right => left.rightNested.chain right.rightNested
  | union left right => union left.rightNested right.rightNested
  | star operand => star operand.rightNested

def IsNested : Expr → Prop
  | symbol _ => True
  | concat left right => left.root ≠ .concat ∧ left.IsNested ∧ right.IsNested
  | union left right => left.IsNested ∧ right.IsNested
  | star operand => operand.IsNested

/-- Expressions that become the same if concatenations are grouped anew, anywhere inside. -/
inductive Regroups : Expr → Expr → Prop where
  | refl (x : Expr) : Regroups x x
  | symm {x y : Expr} (h : Regroups x y) : Regroups y x
  | trans {x y z : Expr} (h : Regroups x y) (h' : Regroups y z) : Regroups x z
  | assoc (x y z : Expr) : Regroups (concat (concat x y) z) (concat x (concat y z))
  | concat {x x' y y' : Expr} (h : Regroups x x') (h' : Regroups y y') :
      Regroups (concat x y) (concat x' y')
  | union {x x' y y' : Expr} (h : Regroups x x') (h' : Regroups y y') :
      Regroups (union x y) (union x' y')
  | star {x x' : Expr} (h : Regroups x x') : Regroups (star x) (star x')

variable {x y : Expr}

theorem IsNested.chain (h : x.IsNested) (h' : y.IsNested) : (x.chain y).IsNested := by
  induction x with
  | concat left right _ ih => exact ⟨h.1, h.2.1, ih h.2.2⟩
  | symbol c => exact ⟨nofun, h, h'⟩
  | union left right => exact ⟨nofun, h, h'⟩
  | star operand => exact ⟨nofun, h, h'⟩

theorem isNested_rightNested (x : Expr) : x.rightNested.IsNested := by
  induction x with
  | symbol c => trivial
  | concat left right ihl ihr => exact ihl.chain ihr
  | union left right ihl ihr => exact ⟨ihl, ihr⟩
  | star operand ih => exact ih

/-- Moving the links of a chain to the right only groups it anew. -/
theorem regroups_chain (x y : Expr) : Regroups (concat x y) (x.chain y) := by
  induction x with
  | concat left right _ ih => exact (Regroups.assoc left right y).trans (.concat (.refl left) ih)
  | symbol c => exact .refl _
  | union left right => exact .refl _
  | star operand => exact .refl _

theorem regroups_rightNested (x : Expr) : Regroups x x.rightNested := by
  induction x with
  | symbol c => exact .refl _
  | concat left right ihl ihr => exact (Regroups.concat ihl ihr).trans (regroups_chain _ _)
  | union left right ihl ihr => exact .union ihl ihr
  | star operand ih => exact .star ih

/-- By the derivation: blocks are joined alike however the joins are grouped. -/
theorem Regroups.automaton_eq (h : Regroups x y) : x.automaton = y.automaton := by
  induction h with
  | refl x => rfl
  | symm _ ih => exact ih.symm
  | trans _ _ ih ih' => exact ih.trans ih'
  | assoc x y z => exact Automaton.join_assoc x.open_automaton y.open_automaton z.automaton
  | concat _ _ ih ih' => simp only [automaton, ih, ih']
  | union _ _ ih ih' => simp only [automaton, ih, ih']
  | star _ ih => simp only [automaton, ih]

end Expr

namespace Automaton

/-- The root of the expression that an automaton comes from. A chain starts before its last part, and
of the operators that make an entry of their own only a star leads from there to the exit first. -/
def root (automaton : Automaton) : Root :=
  if automaton.entry + 2 = automaton.size then
    match automaton.arena.state? automaton.entry with
    | some ⟨_, .epsilon (target :: _)⟩ => if target = automaton.exit then .star else .union
    | _ => .symbol
  else .concat

variable {first second : Automaton}

/-- The entry of a chain is that of its first part, and behind that part there is more. -/
theorem root_join (h : first.Compact) (h' : second.Compact) : (first.join second).root = .concat := by
  have bound : first.entry + 2 ≤ first.size := by
    rw [← h.last]
    exact Nat.succ_le_succ h.entry_lt
  have early : first.entry + 2 < (first.join second).size := by
    rw [size_join]
    exact Nat.lt_of_le_of_lt bound (Nat.lt_add_of_pos_right (Nat.zero_lt_of_lt h'.entry_lt_size))
  exact if_neg (Nat.ne_of_lt early)

/-- A choice leads to its ways first, and not to the exit. -/
theorem root_either (h : first.Compact) (second : Automaton) :
    (first.either second).root = .union := by
  have last : (first.either second).entry + 2 = (first.either second).size :=
    (size_either first second).symm
  have found : (first.either second).arena.state? (first.either second).entry =
      some ⟨false, .epsilon [first.entry, second.entry + first.size]⟩ :=
    state?_either_entry first second
  have inside : first.entry < first.size + second.size + 1 :=
    Nat.lt_succ_of_lt (Nat.lt_add_right _ h.entry_lt_size)
  rw [root, if_pos last, found]
  exact if_neg (Nat.ne_of_lt inside)

theorem root_loop (operand : Automaton) : operand.loop.root = .star := by
  have last : operand.loop.entry + 2 = operand.loop.size := (size_loop operand).symm
  have found : operand.loop.arena.state? operand.loop.entry =
      some ⟨false, .epsilon [operand.size + 1, operand.entry]⟩ := state?_loop_entry operand
  rw [root, if_pos last, found]
  exact if_pos rfl

end Automaton

namespace Expr

variable {x y : Expr}

/-- All but a chain start at the last state but one. -/
theorem entry_of_root (h : x.root ≠ .concat) : x.automaton.entry + 2 = x.automaton.size := by
  cases x with
  | symbol c => rfl
  | concat left right => exact absurd rfl h
  | union left right => exact (Automaton.size_either ..).symm
  | star operand => exact (Automaton.size_loop ..).symm

/-- The root is read off the entry and the size alone. -/
theorem root_automaton (x : Expr) : x.automaton.root = x.root := by
  cases x with
  | symbol c => rfl
  | concat left right =>
    exact Automaton.root_join left.compact_automaton right.compact_automaton
  | union left right => exact Automaton.root_either left.compact_automaton right.automaton
  | star operand => exact Automaton.root_loop operand.automaton

theorem symbol_inj_of_automaton {c d : Char} (same : (symbol c).automaton = (symbol d).automaton) :
    c = d := by
  have first : (symbol c).automaton.arena.state? 0 = (symbol d).automaton.arena.state? 0 := by
    rw [same]
  cases first
  rfl

theorem root_eq_of_automaton (same : x.automaton = y.automaton) : x.root = y.root := by
  rw [← root_automaton, ← root_automaton, same]

/-- Where concatenations are grouped to the right, the automaton tells the expression. -/
theorem IsNested.eq_of_automaton (h : x.IsNested) (h' : y.IsNested)
    (same : x.automaton = y.automaton) : x = y := by
  -- The automaton has one root, so that only the like cases of both are left, and there it tells the
  -- automata of the operands. The left one of a concatenation is no chain and ends behind its entry.
  induction x generalizing y with
  | symbol c =>
    cases y with
    | symbol d => rw [symbol_inj_of_automaton same]
    | _ => cases root_eq_of_automaton same
  | concat left right ihl ihr =>
    cases y with
    | concat left' right' =>
      obtain ⟨first, second⟩ := left.compact_automaton.join_inj right.compact_automaton
        left'.compact_automaton right'.compact_automaton (entry_of_root h.1) (entry_of_root h'.1)
        same
      rw [ihl h.2.1 h'.2.1 first, ihr h.2.2 h'.2.2 second]
    | _ => cases root_eq_of_automaton same
  | union left right ihl ihr =>
    cases y with
    | union left' right' =>
      obtain ⟨first, second⟩ := left.compact_automaton.either_inj right.compact_automaton
        left'.compact_automaton right'.compact_automaton same
      rw [ihl h.1 h'.1 first, ihr h.2 h'.2 second]
    | _ => cases root_eq_of_automaton same
  | star operand ih =>
    cases y with
    | star operand' =>
      have nested : operand'.IsNested := h'
      have inner := operand.compact_automaton.loop_inj operand'.compact_automaton same
      rw [ih h nested inner]
    | _ => cases root_eq_of_automaton same

/-- An automaton tells its expression up to the grouping of concatenations. -/
theorem automaton_eq_iff : x.automaton = y.automaton ↔ x.rightNested = y.rightNested := by
  have grouped (z : Expr) : z.automaton = z.rightNested.automaton :=
    (regroups_rightNested z).automaton_eq
  constructor
  · intro same
    rw [grouped x, grouped y] at same
    exact (isNested_rightNested x).eq_of_automaton (isNested_rightNested y) same
  · intro same
    rw [grouped x, grouped y, same]

/-- Grouping all concatenations to the right is a normal form. -/
theorem regroups_iff : Regroups x y ↔ x.rightNested = y.rightNested := by
  refine ⟨fun h => automaton_eq_iff.mp h.automaton_eq, fun same => ?_⟩
  have back := (regroups_rightNested y).symm
  rw [← same] at back
  exact (regroups_rightNested x).trans back

end Expr

namespace Compiler

/-- The automaton of the empty text goes from its entry to its exit, as a star does, but has no room
for what is repeated. -/
theorem automaton_ne_empty (x : Expr) : x.automaton ≠ ⟨({} : Arena).extend .empty, 0, 1⟩ := by
  intro same
  have root : x.root = .star := by
    rw [← Expr.root_automaton, same]
    rfl
  cases x with
  | star operand =>
    have size := congrArg Automaton.size same
    change operand.automaton.loop.size = 0 + 2 at size
    rw [Automaton.size_loop] at size
    have room := Nat.zero_lt_of_lt operand.compact_automaton.entry_lt_size
    exact Nat.ne_of_gt room (Nat.add_right_cancel size)
  | _ => cases root

/-- Either there are no tokens or they write an expression, and the automaton is the one of it. -/
theorem compile_eq_ok_iff {tokens : List Token} {automaton : Automaton} :
    ({} : Compiler).compile tokens = .ok automaton ↔
      tokens = [] ∧ automaton = ⟨({} : Arena).extend .empty, 0, 1⟩ ∨
        ∃ x : Expr, x.tokens = tokens ∧ x.automaton = automaton := by
  constructor
  · intro h
    by_cases ne : tokens = []
    · subst ne
      rw [compile_nil_of_allows (allows_unlimited _)] at h
      exact .inl ⟨rfl, (Except.ok.inj h).symm⟩
    · obtain ⟨x, rfl⟩ := exists_tokens_of_compile ne h
      rw [compile_tokens x (allows_unlimited _)] at h
      exact .inr ⟨x, rfl, Except.ok.inj h⟩
  · rintro (⟨rfl, rfl⟩ | ⟨x, rfl, rfl⟩)
    · exact compile_nil_of_allows (allows_unlimited _)
    · exact compile_tokens x (allows_unlimited _)

/-- What is compiled has one expression, and equal automata come of expressions that differ in the
grouping of concatenations alone. -/
theorem compile_eq_iff {p q : List Token} {a b : Automaton}
    (hp : ({} : Compiler).compile p = .ok a) (hq : ({} : Compiler).compile q = .ok b) :
    (p ≠ [] → ∃! x : Expr, x.tokens = p) ∧
    (a = b ↔ p = [] ∧ q = [] ∨
      ∃ x y : Expr, x.tokens = p ∧ y.tokens = q ∧ x.rightNested = y.rightNested) ∧
    ∀ x y z : Expr, ∃ automaton,
      ({} : Compiler).compile (Expr.concat (.concat x y) z).tokens = .ok automaton ∧
        ({} : Compiler).compile (Expr.concat x (.concat y z)).tokens = .ok automaton := by
  refine ⟨fun ne => ?_, ?_, fun x y z => ?_⟩
  · obtain ⟨x, rfl⟩ := exists_tokens_of_compile ne hp
    exact ⟨x, rfl, fun y same => Expr.tokens_injective same⟩
  · rcases compile_eq_ok_iff.mp hp with ⟨rfl, rfl⟩ | ⟨x, rfl, rfl⟩
    · rcases compile_eq_ok_iff.mp hq with ⟨rfl, rfl⟩ | ⟨y, rfl, rfl⟩
      · simp
      · simpa [tokens_ne_nil] using (automaton_ne_empty y).symm
    · rcases compile_eq_ok_iff.mp hq with ⟨rfl, rfl⟩ | ⟨y, rfl, rfl⟩
      · simpa [tokens_ne_nil] using automaton_ne_empty x
      · simp [tokens_ne_nil, Expr.tokens_injective.eq_iff, Expr.automaton_eq_iff]
  · refine ⟨_, compile_tokens _ (allows_unlimited _), ?_⟩
    rw [(Expr.Regroups.assoc x y z).automaton_eq]
    exact compile_tokens _ (allows_unlimited _)

/-- Three symbols in a row have one automaton, another one than if the last two are swapped. -/
theorem compile_eq_iff_abc :
    ∃ a b c : Automaton,
      ({} : Compiler).compile [.symbol 'a', .symbol 'b', .concat, .symbol 'c', .concat] = .ok a ∧
      ({} : Compiler).compile [.symbol 'a', .symbol 'b', .symbol 'c', .concat, .concat] = .ok b ∧
      ({} : Compiler).compile [.symbol 'a', .symbol 'c', .symbol 'b', .concat, .concat] = .ok c ∧
      a = b ∧ a ≠ c := by
  have left := compile_tokens (.concat (.concat (.symbol 'a') (.symbol 'b')) (.symbol 'c'))
    (allows_unlimited _)
  have right := compile_tokens (.concat (.symbol 'a') (.concat (.symbol 'b') (.symbol 'c')))
    (allows_unlimited _)
  have swapped := compile_tokens (.concat (.symbol 'a') (.concat (.symbol 'c') (.symbol 'b')))
    (allows_unlimited _)
  refine ⟨_, _, _, left, right, swapped, ?_, fun same => ?_⟩
  · exact (compile_eq_iff left right).2.1.mpr (.inr ⟨_, _, rfl, rfl, rfl⟩)
  · rcases (compile_eq_iff left swapped).2.1.mp same with ⟨none, -⟩ | ⟨x, y, hx, hy, nested⟩
    · cases none
    · cases Expr.tokens_injective hx
      cases Expr.tokens_injective hy
      cases nested

end Compiler

end Thompson
