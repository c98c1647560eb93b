import Thompson.Proofs.Copies
import Thompson.Proofs.Schedule

namespace Thompson

def Rule.block : Rule Automaton → Automaton
  | empty => ⟨({} : Arena).extend .empty, 0, 1⟩
  | symbol c => ⟨({} : Arena).extend (.symbol c), 0, 1⟩
  | concat first second => first.join second
  | union first second => first.either second
  | closure operand => operand.loop

/-- The block of an expression. No rule makes the empty language, so that it has none of its own. -/
def blockOf : RegularExpression Char → Automaton
  | .zero | .epsilon => Rule.block .empty
  | .char c => Rule.block (.symbol c)
  | .comp first second => Rule.block (.concat (blockOf first) (blockOf second))
  | .plus first second => Rule.block (.union (blockOf first) (blockOf second))
  | .star operand => Rule.block (.closure (blockOf operand))

/-- The block of an expression is what the last rule makes of the blocks before. -/
theorem blockOf_expression (rule : Rule (RegularExpression Char)) :
    blockOf rule.expression = (rule.map blockOf).block := by
  cases rule <;> rfl

theorem compact_blockOf (expression : RegularExpression Char) : (blockOf expression).Compact := by
  induction expression with
  | zero | epsilon => exact Compiler.compact_empty
  | char c => exact Automaton.compact_symbol c
  | comp first second ih ih' => exact ih.join ih'
  | plus first second ih ih' => exact ih.either ih'
  | star operand ih => exact ih.loop

namespace Part

structure Copies (part : Part) (arena : Arena) (block : Automaton) (place : StateId → StateId) :
    Prop where
  states : arena.Copies block.arena place
  within : ∀ id < block.size, place id ∈ part.region
  fragment : part.fragment = block.fragment.rename place

variable {arena grown : Arena} {part first second : Part} {block a b : Automaton}
  {place more : StateId → StateId}

theorem Copies.of_same (h : part.Copies arena block place)
    (kept : ∀ id ∈ part.region, grown.state? id = arena.state? id) :
    part.Copies grown block place :=
  ⟨h.states.of_same fun id inside => kept _ (h.within id inside), h.within, h.fragment⟩

theorem Copies.fragment_first (h : first.Copies arena a place) (compact : a.Compact) :
    first.fragment = a.fragment.rename (follow a.size place more) := by
  rw [h.fragment]
  simp only [Fragment.rename, Automaton.fragment, follow_of_lt compact.entry_lt_size,
    follow_of_lt compact.exit.exit_lt]

/-- Behind the block, the places go on with those at the end of the arena. -/
theorem Copies.onward (h : part.Copies arena block place) (compact : block.Compact) :
    part.Copies arena block (follow block.size place (· + arena.size)) where
  states := h.states.congr compact.inner fun id inside => (follow_of_lt inside).symm
  within id inside := by
    rw [follow_of_lt inside]
    exact h.within id inside
  fragment := h.fragment_first compact

/-- Parts that are apart are copies of both blocks side by side. -/
theorem Copies.pair (h : first.Copies arena a place) (h' : second.Copies arena b more)
    (compact : a.Compact) (apart : first.Apart second) :
    arena.Copies (a.arena.beside b.arena) (follow a.size place more) :=
  h.states.beside h'.states compact.inner fun p hp q hq same =>
    apart.not_mem (h.within p hp) (same ▸ h'.within q hq)

theorem Copies.fragment_second (h : second.Copies arena b more) (a : Automaton) :
    second.fragment = (b.fragment.shift a.size).rename (follow a.size place more) := by
  rw [h.fragment]
  simp only [Fragment.rename, Fragment.shift, follow_add]

theorem Copies.within_pair (h : first.Copies arena a place) (h' : second.Copies arena b more) :
    ∀ id < (a.arena.beside b.arena).size,
      ∃ operand ∈ [first, second], follow a.size place more id ∈ operand.region := by
  intro id inside
  by_cases low : id < a.size
  · refine ⟨first, by simp, ?_⟩
    rw [follow_of_lt low]
    exact h.within id low
  · obtain ⟨n, rfl⟩ := Nat.exists_eq_add_of_le' (Nat.le_of_not_lt low)
    refine ⟨second, by simp, ?_⟩
    rw [Arena.size_beside, Nat.add_comm n] at inside
    rw [follow_add]
    exact h'.within n (Nat.lt_of_add_lt_add_left inside)

/-- Two parts that are apart hold both blocks in a row, and what comes next is at the end of the
arena. -/
theorem Copies.exists_pair (h : first.Copies arena a place) (h' : second.Copies arena b more)
    (compact : a.Compact) (compact' : b.Compact) (apart : first.Apart second) :
    ∃ whole, arena.Copies (a.arena.beside b.arena) whole ∧
      first.fragment = a.fragment.rename whole ∧
      second.fragment = (b.fragment.shift a.size).rename whole ∧
      (∀ id < (a.arena.beside b.arena).size,
        ∃ operand ∈ [first, second], whole id ∈ operand.region) ∧
      ∀ k, whole (k + (a.arena.beside b.arena).size) = k + arena.size := by
  have h' := h'.onward compact'
  refine ⟨_, h.pair h' compact apart, h.fragment_first compact, h'.fragment_second a,
    h.within_pair h', fun k => ?_⟩
  rw [Arena.size_beside]
  exact follow_follow_add

variable {rule : Rule Part}

/-- What a rule makes of parts that are copies is a copy of what it makes of the blocks. -/
theorem Composable.copies_ofRule (made : Rule Fragment) {whole : Automaton} {base : Arena}
    (copies : arena.Copies base place) (ready : base.Ready made)
    (operands : rule.map fragment = made.map (Fragment.rename place))
    (within : ∀ id < base.size, ∃ operand ∈ rule.operands, place id ∈ operand.region)
    (onward : ∀ k, place (k + base.size) = k + arena.size)
    (arena_eq : whole.arena = base.extend made)
    (fragment_eq : whole.fragment = made.fragment base.size) :
    (ofRule arena.size rule).Copies (arena.extend (rule.map fragment)) whole place where
  states := by
    rw [arena_eq, operands]
    exact copies.extend (fun fragment hf => Arena.lt_of_state? (ready.opened fragment hf)) onward
  within id inside := by
    rw [Automaton.size, arena_eq, Arena.size_extend] at inside
    by_cases old : id < base.size
    · exact .inl (within id old)
    · obtain ⟨k, rfl⟩ := Nat.exists_eq_add_of_le' (Nat.le_of_not_lt old)
      have created : rule.created = made.created := by
        rw [← Rule.created_map fragment, operands, Rule.created_map]
      have new : k < made.created := by
        rw [Nat.add_comm] at inside
        exact Nat.lt_of_add_lt_add_left inside
      rw [onward, Nat.add_comm]
      exact .inr ⟨Nat.le_add_right _ _, Nat.add_lt_add_left (created ▸ new) _⟩
  fragment := by
    rw [fragment_eq, ← Rule.fragment_rename onward, ← operands]
    rfl

/-- By the rule: its operands are copies, and so is what it makes of them. -/
theorem Composable.exists_copies {ι : Type} {rule : Rule ι} {part : ι → Part} {block : ι → Automaton}
    (h : Composable arena (rule.map part)) (compact : ∀ i, (block i).Compact)
    (copies : ∀ i ∈ rule.operands, ∃ place, (part i).Copies arena (block i) place) :
    ∃ place, (ofRule arena.size (rule.map part)).Copies
      (arena.extend ((rule.map part).map fragment)) (rule.map block).block place := by
  cases rule with
  | empty =>
    exact ⟨_, copies_ofRule .empty (arena.copies_empty (· + arena.size)) ⟨by simp, .nil⟩ rfl
      (fun _ inside => absurd inside (Nat.not_lt_zero _)) (fun _ => rfl) rfl rfl⟩
  | symbol c =>
    exact ⟨_, copies_ofRule (.symbol c) (arena.copies_empty (· + arena.size)) ⟨by simp, .nil⟩ rfl
      (fun _ inside => absurd inside (Nat.not_lt_zero _)) (fun _ => rfl) rfl rfl⟩
  | concat i j =>
    obtain ⟨place, first⟩ := copies i (by simp)
    obtain ⟨more, second⟩ := copies j (by simp)
    obtain ⟨whole, both, left, right, within, onward⟩ :=
      first.exists_pair second (compact i) (compact j) (by simpa [Rule.map] using h.apart)
    exact ⟨whole, copies_ofRule _ both ((compact i).exit.ready_concat (compact j).exit)
      (congrArg₂ Rule.concat left right) within onward rfl rfl⟩
  | union i j =>
    obtain ⟨place, first⟩ := copies i (by simp)
    obtain ⟨more, second⟩ := copies j (by simp)
    obtain ⟨whole, both, left, right, within, onward⟩ :=
      first.exists_pair second (compact i) (compact j) (by simpa [Rule.map] using h.apart)
    exact ⟨whole, copies_ofRule _ both ((compact i).exit.ready_union (compact j).exit)
      (congrArg₂ Rule.union left right) within onward (Automaton.arena_either _ _)
      (Automaton.fragment_either _ _)⟩
  | closure i =>
    obtain ⟨place, inner⟩ := copies i (by simp)
    have inner := inner.onward (compact i)
    refine ⟨_, copies_ofRule _ inner.states (compact i).exit.ready_closure ?_
      (fun id inside => ⟨_, List.mem_singleton_self _, inner.within id inside⟩)
      (fun k => follow_add) (Automaton.arena_loop _) rfl⟩
    exact congrArg Rule.closure inner.fragment

end Part

namespace Schedule

variable {n : Nat} {before : Schedule n} {rule : Rule (Fin n)} {arena : Arena}
  {parts : Vector Part n}

def Copied {n : Nat} (schedule : Schedule n) (arena : Arena) (parts : Vector Part n) : Prop :=
  ∀ i : Fin n, i.val ∉ schedule.taken →
    ∃ place, (parts.get i).Copies arena (blockOf (schedule.expressions.get i)) place

/-- One more rule copies what it makes of the blocks, and the other copies do not notice it. -/
theorem Copied.call (copied : before.Copied arena parts) (laid : before.Laid arena parts)
    (once : (before.call rule).taken.Nodup) :
    (before.call rule).Copied (arena.extend ((rule.map parts.get).map Part.fragment))
      (parts.push (.ofRule arena.size (rule.map parts.get))) := by
  intro i hi
  cases i using Fin.lastCases with
  | last =>
    have block : blockOf (rule.map before.expressions.get).expression =
        (rule.map (blockOf ∘ before.expressions.get)).block := by
      rw [blockOf_expression, Rule.map_map]
    rw [expressions, get_push_last, get_push_last, block]
    exact (laid.composable once).exists_copies (fun _ => compact_blockOf _)
      fun j hj => copied j (not_mem_taken once hj)
  | cast i =>
    -- The operands are free as well, so that none of them holds states of this part.
    rw [expressions, get_push_castSucc, get_push_castSucc]
    obtain ⟨free, apart⟩ := laid.free once hi
    obtain ⟨place, copies⟩ := copied i free
    exact ⟨place, copies.of_same fun _ => (laid.composable once).state?_of_apart
      (laid.intact i free) apart⟩

/-- By the calls: after each of them every free fragment is a copy of the block for its
expression. -/
theorem exists_copied (schedule : Schedule n) (once : schedule.taken.Nodup) :
    ∃ arena parts, schedule.Laid arena parts ∧ schedule.Copied arena parts := by
  induction schedule with
  | nil =>
    obtain ⟨arena, parts, laid⟩ := nil.exists_laid once
    exact ⟨arena, parts, laid, fun i => i.elim0⟩
  | call before rule ih =>
    obtain ⟨arena, parts, laid, copied⟩ := ih (List.nodup_append.mp once).1
    exact ⟨_, _, laid.call once, copied.call laid once⟩

/-- Every rule succeeds, and a fragment that is free becomes the block of its expression, if it is
finished and its states are renumbered. -/
theorem exists_renumbered (schedule : Schedule n) (once : schedule.taken.Nodup) {i : Fin n}
    (free : i.val ∉ schedule.taken) :
    ∃ arena made automaton whole, schedule.run = .ok (arena, made) ∧
      arena.finish (made.get i) = .ok automaton ∧ automaton.renumbered = .ok whole ∧
      (blockOf (schedule.expressions.get i)).renumbered = .ok whole := by
  obtain ⟨arena, parts, laid, copied⟩ := schedule.exists_copied once
  obtain ⟨place, copies⟩ := copied i free
  obtain ⟨whole, known, same⟩ := (compact_blockOf _).renumbered_of_copies copies.states
  have finished := Arena.finish_eq_ok_iff.mpr ⟨(laid.intact i free).sealed, rfl⟩
  refine ⟨arena, _, _, whole, laid.run, ?_, same, known⟩
  rw [get_map, finished, copies.fragment]
  rfl

/-- Two fragments built from one expression are the same automaton once their states are renumbered,
whatever schedules they come from. -/
theorem finish_renumbered {m n : Nat} (first : Schedule m) (second : Schedule n)
    (once : first.taken.Nodup) (once' : second.taken.Nodup) {i : Fin m} {j : Fin n}
    (free : i.val ∉ first.taken) (free' : j.val ∉ second.taken)
    (same : first.expressions.get i = second.expressions.get j) :
    ∃ arena made a arena' made' b whole,
      first.run = .ok (arena, made) ∧ arena.finish (made.get i) = .ok a ∧
      second.run = .ok (arena', made') ∧ arena'.finish (made'.get j) = .ok b ∧
      a.renumbered = .ok whole ∧ b.renumbered = .ok whole := by
  obtain ⟨arena, made, a, whole, run, finished, numbered, known⟩ :=
    first.exists_renumbered once free
  obtain ⟨arena', made', b, whole', run', finished', numbered', known'⟩ :=
    second.exists_renumbered once' free'
  rw [← same, known] at known'
  cases known'
  exact ⟨arena, made, a, arena', made', b, whole, run, finished, run', finished', numbered, numbered'⟩

def reordered : Schedule 8 :=
  (((((((nil.call .empty).call (.symbol 'c')).call (.symbol 'b')).call (.union 2 0)).call
    (.symbol 'a')).call (.symbol 'd')).call (.closure 4)).call (.concat 6 3)

theorem finish_renumbered_reordered :
    interleaved.expressions.get 5 = reordered.expressions.get 7 ∧
    ∃ arena made a arena' made' b whole,
      interleaved.run = .ok (arena, made) ∧ arena.finish (made.get 5) = .ok a ∧
      reordered.run = .ok (arena', made') ∧ arena'.finish (made'.get 7) = .ok b ∧
      a.renumbered = .ok whole ∧ b.renumbered = .ok whole :=
  ⟨rfl, finish_renumbered interleaved reordered (by decide) (by decide) (by decide) (by decide) rfl⟩

end Schedule

end Thompson
