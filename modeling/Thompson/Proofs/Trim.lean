import Thompson.Proofs.Placement
import Thompson.Proofs.Regrouping
import Thompson.Proofs.SizeLimit

namespace Thompson

namespace Arena

variable {arena : Arena} {p q r : StateId}

def Connects (arena : Arena) (p q : StateId) : Prop :=
  ∃ text, arena.Path p text q

theorem Connects.refl (arena : Arena) (p : StateId) : arena.Connects p p :=
  ⟨[], .here⟩

theorem Connects.trans (h : arena.Connects p q) (h' : arena.Connects q r) : arena.Connects p r := by
  obtain ⟨u, first⟩ := h
  obtain ⟨v, second⟩ := h'
  exact ⟨u ++ v, first.append second⟩

theorem Connects.of_edge {label : Option Char} (edge : arena.Edge p label q) :
    arena.Connects p q := by
  cases label with
  | none => exact ⟨[], .silent edge .here⟩
  | some c => exact ⟨[c], .read edge .here⟩

theorem Connects.of_epsilon {accepting : Bool} {targets : List StateId}
    (found : arena.state? p = some ⟨accepting, .epsilon targets⟩) (target : q ∈ targets) :
    arena.Connects p q :=
  .of_edge ((edge_iff_of_epsilon found).mpr ⟨rfl, target⟩)

def Meets (arena : Arena) (p q r : StateId) : Prop :=
  arena.Connects p r ∧ arena.Connects r q

theorem Meets.wider {p' q' : StateId} (h : arena.Meets p q r) (before : arena.Connects p' p)
    (after : arena.Connects q q') : arena.Meets p' q' r :=
  ⟨before.trans h.1, h.2.trans after⟩

end Arena

namespace Automaton

variable {first second operand block automaton : Automaton} {arena : Arena} {offset : Nat}

def Spans (block : Automaton) (arena : Arena) (offset : Nat) : Prop :=
  ∀ id < block.size, arena.Meets (block.entry + offset) (block.exit + offset) (id + offset)

theorem Spans.through (h : block.Spans arena offset) (compact : block.Compact) :
    arena.Connects (block.entry + offset) (block.exit + offset) :=
  (h block.entry compact.entry_lt_size).2

/-- A way through the block that goes on at both ends meets its states as well. -/
theorem Spans.wider {p q : StateId} (h : block.Spans arena offset)
    (before : arena.Connects p (block.entry + offset))
    (after : arena.Connects (block.exit + offset) q) {id : Nat} (inside : id < block.size) :
    arena.Meets p q (id + offset) :=
  (h id inside).wider before after

theorem spans_symbol {c : Char} (h : (Expr.symbol c).automaton.Placed arena offset) :
    (Expr.symbol c).automaton.Spans arena offset := by
  have read : arena.Connects (0 + offset) (1 + offset) := by
    rw [Nat.zero_add]
    refine .of_edge ((Arena.edge_iff_of_labelled h.symbol).mpr ⟨c, rfl, ?_⟩)
    rw [Labels.get?_insert, if_pos rfl]
  intro id inside
  match id, inside with
  | 0, _ => exact ⟨.refl _ _, read⟩
  | 1, _ => exact ⟨read, .refl _ _⟩

/-- Every way through a chain goes through both parts, the one after the other. -/
theorem Spans.join (h : (first.join second).Placed arena offset) (hf : first.Compact)
    (hs : second.Compact) (left : first.Spans arena offset)
    (right : second.Spans arena (first.size + offset)) : (first.join second).Spans arena offset := by
  obtain ⟨_, _, tied⟩ := h.join hf.exit hs.exit
  have onward := Arena.Connects.of_epsilon tied (List.mem_singleton_self _)
  have exit : (first.join second).exit + offset = second.exit + (first.size + offset) :=
    Nat.add_assoc ..
  intro id inside
  rw [exit]
  rcases lt_size_join_cases inside with low | ⟨n, high, rfl⟩
  · exact left.wider (.refl _ _) (onward.trans (right.through hs)) low
  · rw [Nat.add_assoc]
    exact right.wider ((left.through hf).trans onward) (.refl _ _) high

/-- A state of either way is met by taking that way. -/
theorem Spans.either (h : (first.either second).Placed arena offset) (hf : first.Compact)
    (hs : second.Compact) (left : first.Spans arena offset)
    (right : second.Spans arena (first.size + offset)) :
    (first.either second).Spans arena offset := by
  obtain ⟨_, _, entry, tied, tied'⟩ := h.either hf.exit hs.exit
  have before := Arena.Connects.of_epsilon entry List.mem_cons_self
  have before' := Arena.Connects.of_epsilon entry (List.mem_cons_of_mem _ List.mem_cons_self)
  have after := Arena.Connects.of_epsilon tied (List.mem_singleton_self _)
  have after' := Arena.Connects.of_epsilon tied' (List.mem_singleton_self _)
  have whole := before.trans ((left.through hf).trans after)
  intro id inside
  rcases lt_size_either_cases inside with low | ⟨n, high, rfl⟩ | rfl | rfl
  · exact left.wider before after low
  · rw [Nat.add_assoc]
    exact right.wider before' after' high
  · exact ⟨.refl _ _, whole⟩
  · exact ⟨whole, .refl _ _⟩

/-- A state of the operand is met in one round. -/
theorem Spans.loop (h : operand.loop.Placed arena offset) (compact : operand.Compact)
    (inner : operand.Spans arena offset) : operand.loop.Spans arena offset := by
  obtain ⟨_, entry, tied⟩ := h.loop compact.exit
  have before := Arena.Connects.of_epsilon entry (List.mem_cons_of_mem _ List.mem_cons_self)
  have after := Arena.Connects.of_epsilon tied List.mem_cons_self
  have whole := Arena.Connects.of_epsilon entry List.mem_cons_self
  intro id inside
  rcases lt_size_loop_cases inside with low | rfl | rfl
  · exact inner.wider before after low
  · exact ⟨.refl _ _, whole⟩
  · exact ⟨whole, .refl _ _⟩

end Automaton

/-- By the expression: a way through an operand goes on to the ends of the whole. -/
theorem Expr.spans_automaton (x : Expr) {arena : Arena} {offset : Nat}
    (h : x.automaton.Placed arena offset) : x.automaton.Spans arena offset := by
  induction x generalizing offset with
  | symbol c => exact Automaton.spans_symbol h
  | concat left right ihl ihr =>
    obtain ⟨first, second, _⟩ := h.join left.open_automaton right.open_automaton
    exact .join h left.compact_automaton right.compact_automaton (ihl first) (ihr second)
  | union left right ihl ihr =>
    obtain ⟨first, second, _⟩ := h.either left.open_automaton right.open_automaton
    exact .either h left.compact_automaton right.compact_automaton (ihl first) (ihr second)
  | star operand ih =>
    obtain ⟨inner, _⟩ := h.loop operand.open_automaton
    exact .loop h operand.compact_automaton (ih inner)

namespace Automaton

variable {automaton : Automaton}

def Trim (automaton : Automaton) : Prop :=
  ∀ id < automaton.size, automaton.arena.Meets automaton.entry automaton.exit id

theorem Compact.lt_of_reaches (h : automaton.Compact) {p q : StateId} (inside : p < automaton.size)
    (hr : automaton.arena.Reaches State.targets p q) : q < automaton.size := by
  induction hr with
  | refl => exact inside
  | tail _ hl _ =>
    obtain ⟨state, found, target⟩ := hl
    exact h.inner _ state found _ target

theorem Compact.encloses_entry (h : automaton.Compact) : automaton.Encloses [automaton.entry] := by
  intro p hp q hr
  cases List.mem_singleton.mp hp
  exact h.lt_of_reaches h.entry_lt_size hr

/-- A search of a trim automaton lists all places, each of them once. -/
theorem Trim.reachable_perm (trim : automaton.Trim) (compact : automaton.Compact) :
    ∃ places, automaton.reachable = .ok places ∧ places.Perm (List.range automaton.size) := by
  have enclosed := compact.encloses_entry
  obtain ⟨places, found⟩ := Arena.search_ok enclosed
  refine ⟨places, automaton.reachable_eq_search.trans found, ?_⟩
  refine (List.perm_ext_iff_of_nodup (Arena.nodup_search found) List.nodup_range).mpr fun id => ?_
  rw [Arena.mem_search_iff found, List.mem_range]
  constructor
  · rintro ⟨p, hp, hr⟩
    exact enclosed p hp id hr
  · intro inside
    obtain ⟨text, path⟩ := (trim id inside).1
    exact ⟨_, List.mem_singleton_self _, path.reaches⟩

end Automaton

namespace Compiler

/-- The automaton of the empty text keeps to itself, as those of expressions do. -/
theorem compact_empty : (⟨({} : Arena).extend .empty, 0, 1⟩ : Automaton).Compact := by
  have start : ({} : Arena).LeadsBelow 0 := fun id state found => by cases found
  exact ⟨rfl, rfl, Nat.zero_lt_one, start.extend composable_empty.ready (by simp)⟩

theorem trim_empty : (⟨({} : Arena).extend .empty, 0, 1⟩ : Automaton).Trim := by
  have edge : (({} : Arena).extend .empty).Connects 0 1 :=
    .of_epsilon (Arena.state?_wrapped_size rfl) (List.mem_singleton_self _)
  intro id inside
  match id, inside with
  | 0, _ => exact ⟨.refl _ _, edge⟩
  | 1, _ => exact ⟨edge, .refl _ _⟩

/-- In a compiled automaton every state is met on the way from the entry to the exit, so that a
search from the entry lists them all. -/
theorem compile_trim {compiler : Compiler} {tokens : List Token} {automaton : Automaton}
    (h : compiler.compile tokens = .ok automaton) :
    automaton.Trim ∧
      ∃ places, automaton.reachable = .ok places ∧ places.Perm (List.range automaton.size) := by
  have made : automaton.Trim ∧ automaton.Compact := by
    rcases compile_eq_ok_iff.mp (compile_unlimited h) with ⟨_, rfl⟩ | ⟨x, _, rfl⟩
    · exact ⟨trim_empty, compact_empty⟩
    · exact ⟨x.spans_automaton (Automaton.placed_self _), x.compact_automaton⟩
  exact ⟨made.1, made.1.reachable_perm made.2⟩

/-- A loop between two symbols under a limit that it just keeps. -/
theorem compile_trim_loop :
    ∃ automaton, (⟨some 8⟩ : Compiler).compile
        [.symbol 'a', .symbol 'b', .closure, .concat, .symbol 'c', .concat] = .ok automaton ∧
      automaton.Trim ∧
      ∃ places, automaton.reachable = .ok places ∧ places.Perm (List.range automaton.size) := by
  have room : (⟨some 8⟩ : Compiler).Allows 8 := exceeded?_eq_none_iff.mp rfl
  have compiled := compile_tokens
    (.concat (.concat (.symbol 'a') (.star (.symbol 'b'))) (.symbol 'c')) room
  exact ⟨_, compiled, compile_trim compiled⟩

end Compiler

end Thompson
