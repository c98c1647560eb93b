import Mathlib.Data.List.Basic
import Thompson.Expr.Language
import Thompson.Proofs.Backtracking
import Thompson.Proofs.Placement

namespace Thompson

namespace Expr

def RepeatsEmpty : Expr → Prop
  | symbol _ => False
  | concat left right | union left right => left.RepeatsEmpty ∨ right.RepeatsEmpty
  | star operand => operand.Matches [] ∨ operand.RepeatsEmpty

def rounds (once : Nat → List Nat) : Nat → Nat → List Nat
  | 0, position => [position]
  | n + 1, position => position :: (once position).flatMap (rounds once n)

/-- Where the matches that start at a position in the text end, in the order of preference. A
repetition that reads something can only be made as often as there are symbols left. -/
def ends (text : List Char) : Expr → Nat → List Nat
  | symbol c, position => if text[position]? = some c then [position + 1] else []
  | concat left right, position => (left.ends text position).flatMap (right.ends text)
  | union left right, position => left.ends text position ++ right.ends text position
  | star operand, position => rounds (operand.ends text) (text.length - position) position

variable {x operand : Expr} {text : List Char} {i j : Nat}

theorem prefix_drop_append {u v : List Char} (first : u <+: text.drop i)
    (second : v <+: text.drop (i + u.length)) : u ++ v <+: text.drop i := by
  obtain ⟨rest, split⟩ := first
  rw [← split, List.prefix_append_right_inj]
  rwa [← List.drop_drop, ← split, List.drop_left] at second

/-- Each round of a repetition starts where a match of the operand ended. -/
theorem rounds_sound (once : ∀ i, ∀ j ∈ operand.ends text i,
      ∃ u, operand.Matches u ∧ u <+: text.drop i ∧ j = i + u.length) (n : Nat)
    (h : j ∈ rounds (operand.ends text) n i) :
    ∃ u, (star operand).Matches u ∧ u <+: text.drop i ∧ j = i + u.length := by
  induction n generalizing i with
  | zero =>
    cases List.mem_singleton.mp h
    exact ⟨[], .starNil, List.nil_prefix, rfl⟩
  | succ n ih =>
    rcases List.mem_cons.mp h with rfl | later
    · exact ⟨[], .starNil, List.nil_prefix, rfl⟩
    · obtain ⟨k, hk, hj⟩ := List.mem_flatMap.mp later
      obtain ⟨u, first, there, rfl⟩ := once i k hk
      obtain ⟨v, others, behind, rfl⟩ := ih hj
      exact ⟨u ++ v, .starCons first others, prefix_drop_append there behind,
        by rw [List.length_append, Nat.add_assoc]⟩

/-- What is listed are ends of matches. -/
theorem matches_of_mem_ends (h : j ∈ x.ends text i) :
    ∃ u, x.Matches u ∧ u <+: text.drop i ∧ j = i + u.length := by
  induction x generalizing i j with
  | symbol c =>
    simp only [ends] at h
    split at h
    · rename_i read
      cases List.mem_singleton.mp h
      obtain ⟨inside, same⟩ := List.getElem?_eq_some_iff.mp read
      refine ⟨[c], .symbol c, ?_, rfl⟩
      rw [List.drop_eq_getElem_cons inside, same]
      exact List.prefix_append [c] _
    · cases h
  | concat left right ihl ihr =>
    obtain ⟨k, hk, hj⟩ := List.mem_flatMap.mp h
    obtain ⟨u, first, there, rfl⟩ := ihl hk
    obtain ⟨v, second, behind, rfl⟩ := ihr hj
    exact ⟨u ++ v, .concat first second, prefix_drop_append there behind,
      by rw [List.length_append, Nat.add_assoc]⟩
  | union left right ihl ihr =>
    rcases List.mem_append.mp h with taken | taken
    · obtain ⟨u, first, there⟩ := ihl taken
      exact ⟨u, .unionLeft first, there⟩
    · obtain ⟨u, second, there⟩ := ihr taken
      exact ⟨u, .unionRight second, there⟩
  | star operand ih => exact rounds_sound (fun _ _ => ih) _ h

/-- A match that reads something ends farther on and within the text. -/
theorem lt_of_mem_ends (reads : ¬x.Matches []) (h : j ∈ x.ends text i) :
    i < j ∧ j ≤ text.length := by
  obtain ⟨u, taken, there, rfl⟩ := matches_of_mem_ends h
  have nonempty : 0 < u.length := List.length_pos_iff.mpr fun empty => reads (empty ▸ taken)
  have within := there.length_le
  rw [List.length_drop] at within
  omega

/-- Where each round moves on within the text, all bounds that are as great as what is left of the
text are as good as each other. -/
theorem rounds_eq {once : Nat → List Nat} {length m n : Nat}
    (onward : ∀ i, ∀ j ∈ once i, i < j ∧ j ≤ length) (hm : length - i ≤ m) (hn : length - i ≤ n) :
    rounds once m i = rounds once n i := by
  have stuck {i : Nat} (spent : length - i = 0) : once i = [] := by
    refine List.eq_nil_iff_forall_not_mem.mpr fun j hj => ?_
    have next := onward i j hj
    omega
  induction m generalizing n i with
  | zero =>
    cases n with
    | zero => rfl
    | succ n => rw [rounds, rounds, stuck (Nat.le_zero.mp hm), List.flatMap_nil]
  | succ m ih =>
    cases n with
    | zero => rw [rounds, rounds, stuck (Nat.le_zero.mp hn), List.flatMap_nil]
    | succ n =>
      rw [rounds, rounds]
      congr 1
      refine List.flatMap_congr fun j hj => ?_
      have next := onward i j hj
      exact ih (by omega) (by omega)

/-- First nothing is repeated, and then once and whatever comes after that. -/
theorem ends_star (reads : ¬operand.Matches []) (i : Nat) :
    (star operand).ends text i =
      i :: (operand.ends text i).flatMap ((star operand).ends text) := by
  have onward (i : Nat) : ∀ j ∈ operand.ends text i, i < j ∧ j ≤ text.length :=
    fun _ => lt_of_mem_ends reads
  have grown : rounds (operand.ends text) (text.length - i) i =
      rounds (operand.ends text) (text.length - i + 1) i :=
    rounds_eq onward (Nat.le_refl _) (Nat.le_succ _)
  rw [ends, grown, rounds]
  congr 1
  refine List.flatMap_congr fun j hj => ?_
  have next := onward i j hj
  exact rounds_eq onward (by omega) (Nat.le_refl _)

end Expr

namespace Automaton

variable {automaton : Automaton} {text : List Char} {offset : Nat} {after : Nat → List Nat}

theorem Yields.symbol {c : Char} {i : Nat} (opened : automaton.Open)
    (h : (Expr.symbol c).automaton.Placed automaton.arena offset)
    (onward : ∀ j ∈ (Expr.symbol c).ends text i,
      automaton.Yields text [(1 + offset, j)] (after j)) :
    automaton.Yields text [(offset, i)] (((Expr.symbol c).ends text i).flatMap after) := by
  refine .edges opened h.symbol (fun empty => by cases empty) ?_
  by_cases read : text[i]? = some c
  · have ends : (Expr.symbol c).ends text i = [i + 1] := if_pos read
    rw [ends] at onward ⊢
    simpa [Edges.branches, read, Labels.get?_insert] using onward
  · have ends : (Expr.symbol c).ends text i = [] := if_neg read
    have blocked : text[i]?.bind (Labels.empty.insert c (1 + offset)).get? = none := by
      refine Option.bind_eq_none_iff.mpr fun d hd => ?_
      rw [Labels.get?_insert, if_neg fun same : d = c => read (same ▸ hd)]
      rfl
    simpa [Edges.branches, ends, blocked] using Yields.nil

/-- From a state that leads out of a loop first and into it second, as the entry of the loop does
and the exit of its operand. The induction is on what is left of the text. -/
theorem Yields.star {operand : Expr} {id entry exit out : StateId} {i : Nat}
    (opened : automaton.Open) (reads : ¬operand.Matches [])
    (inside : ∀ i next, (∀ j ∈ operand.ends text i, automaton.Yields text [(exit, j)] (next j)) →
      automaton.Yields text [(entry, i)] ((operand.ends text i).flatMap next))
    (tied : automaton.arena.state? exit = some ⟨false, .epsilon [out, entry]⟩)
    (found : automaton.arena.state? id = some ⟨false, .epsilon [out, entry]⟩)
    (onward : ∀ j ∈ (Expr.star operand).ends text i, automaton.Yields text [(out, j)] (after j)) :
    automaton.Yields text [(id, i)] (((Expr.star operand).ends text i).flatMap after) := by
  induction hn : text.length - i using Nat.strong_induction_on generalizing id i with
  | _ n ih =>
    rw [Expr.ends_star reads] at onward ⊢
    rw [List.flatMap_cons, List.flatMap_assoc]
    refine .epsilon opened found (.append (onward i List.mem_cons_self) (inside i _ fun j hj => ?_))
    have next := Expr.lt_of_mem_ends reads hj
    exact ih (text.length - j) (by omega) tied
      (fun k hk => onward k (List.mem_cons_of_mem _ (List.mem_flatMap.mpr ⟨j, hj, hk⟩))) rfl

end Automaton

/-- Whatever is found beyond the exit of a block, in front of it this is found for each end of a
match. -/
theorem Expr.yields_ends (x : Expr) {automaton : Automaton} {text : List Char} {offset i : Nat}
    {after : Nat → List Nat} (steady : ¬x.RepeatsEmpty) (opened : automaton.Open)
    (h : x.automaton.Placed automaton.arena offset)
    (onward : ∀ j ∈ x.ends text i,
      automaton.Yields text [(x.automaton.exit + offset, j)] (after j)) :
    automaton.Yields text [(x.automaton.entry + offset, i)] ((x.ends text i).flatMap after) := by
  induction x generalizing offset i after with
  | symbol c =>
    have entry : (symbol c).automaton.entry + offset = offset := Nat.zero_add _
    rw [entry]
    exact .symbol opened h onward
  | concat left right ihl ihr =>
    obtain ⟨steadyLeft, steadyRight⟩ := not_or.mp steady
    obtain ⟨first, second, tied⟩ := h.join left.open_automaton right.open_automaton
    have exit : (concat left right).automaton.exit + offset =
        right.automaton.exit + (left.automaton.size + offset) := Nat.add_assoc ..
    rw [exit] at onward
    simp only [ends, List.flatMap_assoc]
    refine ihl steadyLeft first fun j hj => ?_
    refine .epsilon opened tied (ihr steadyRight second fun k hk => ?_)
    exact onward k (List.mem_flatMap.mpr ⟨j, hj, hk⟩)
  | union left right ihl ihr =>
    obtain ⟨steadyLeft, steadyRight⟩ := not_or.mp steady
    obtain ⟨first, second, entry, tied, tied'⟩ := h.either left.open_automaton right.open_automaton
    simp only [ends, List.flatMap_append]
    refine .epsilon opened entry (.append (ihl steadyLeft first fun j hj => ?_)
      (ihr steadyRight second fun j hj => ?_))
    · exact .epsilon opened tied (onward j (List.mem_append_left _ hj))
    · exact .epsilon opened tied' (onward j (List.mem_append_right _ hj))
  | star operand ih =>
    obtain ⟨reads, steady⟩ := not_or.mp steady
    obtain ⟨inner, entry, tied⟩ := h.loop operand.open_automaton
    exact .star opened reads (fun _ _ => ih steady inner) tied entry onward

namespace Compiler

/-- Where nothing is repeated that can stand for no symbol, exploring the automaton of an expression
comes to an end and finds the ends of its matches in the order of preference. The ends of a
repetition are those without any round and, for each end of a first round in its turn, those of the
repetition from there. -/
theorem compile_explores (x : Expr) (steady : ¬x.RepeatsEmpty) (text : List Char) :
    (∃ automaton, ({} : Compiler).compile x.tokens = .ok automaton ∧
      ∃ n, ∀ more, automaton.explore text (n + more) = .ok ⟨[], x.ends text 0⟩) ∧
    ∀ operand : Expr, ¬operand.Matches [] → ∀ i, operand.star.ends text i =
      i :: (operand.ends text i).flatMap (operand.star.ends text) := by
  refine ⟨⟨x.automaton, compile_tokens x (allows_unlimited _), ?_⟩, fun operand => Expr.ends_star⟩
  have found : x.automaton.Yields text [(x.automaton.entry, 0)]
      ((x.ends text 0).flatMap fun j => [j]) :=
    x.yields_ends steady x.open_automaton (Automaton.placed_self _)
      fun j _ => Automaton.yields_exit j
  rw [List.flatMap_singleton'] at found
  obtain ⟨n, explored⟩ := found
  exact ⟨n, fun more => Automaton.steps_add (explored [] []) (Automaton.steps_done more _)⟩

/-- Two alternatives that end at different places, each followed by none, one or more symbols. -/
theorem compile_explores_overlapping :
    ∃ automaton, ({} : Compiler).compile [.symbol 'a', .symbol 'a', .symbol 'b', .concat, .union,
        .symbol 'b', .closure, .concat] = .ok automaton ∧
      ∃ n, ∀ more, automaton.explore ['a', 'b', 'b'] (n + more) = .ok ⟨[], [1, 2, 3, 2, 3]⟩ := by
  have steady : ¬(Expr.concat (.union (.symbol 'a') (.concat (.symbol 'a') (.symbol 'b')))
      (.star (.symbol 'b'))).RepeatsEmpty := by
    simp [Expr.RepeatsEmpty, Expr.matches_symbol_iff]
  exact (compile_explores _ steady ['a', 'b', 'b']).1

end Compiler

end Thompson
