import Mathlib.Algebra.BigOperators.Group.List.Basic
import Mathlib.Data.List.Infix
import Mathlib.Tactic.Abel
import Thompson.Proofs.Spelling

namespace Thompson.Surface

/-- No group ends before it starts, and every group ends. -/
def Balanced (s : List Char) : Prop :=
  (∀ p, p <+: s → p.count ')' ≤ p.count '(') ∧ s.count ')' = s.count '('

instance (s : List Char) : Decidable (Balanced s) :=
  decidable_of_iff ((∀ p ∈ s.inits, p.count ')' ≤ p.count '(') ∧ s.count ')' = s.count '(') <| by
    simp only [Balanced, List.mem_inits]

inductive Closes : Nat → List Char → Prop where
  | nil : Closes 0 []
  | opening {n : Nat} {s : List Char} (rest : Closes (n + 1) s) : Closes n ('(' :: s)
  | closing {n : Nat} {s : List Char} (rest : Closes n s) : Closes (n + 1) (')' :: s)
  | other {n : Nat} {c : Char} {s : List Char} (start : c ≠ '(') (stop : c ≠ ')')
      (rest : Closes n s) : Closes n (c :: s)

inductive Nested : List Char → Prop where
  | nil : Nested []
  | other {c : Char} {s : List Char} (start : c ≠ '(') (stop : c ≠ ')') (rest : Nested s) :
      Nested (c :: s)
  | group {inner s : List Char} (within : Nested inner) (rest : Nested s) :
      Nested (['('] ++ inner ++ [')'] ++ s)

variable {n : Nat} {s stack : List Char}

/-- Counting prefixes is enough: what is never overdrawn and comes out even ends its groups in
order. -/
theorem closes_of_prefixes (h : ∀ p, p <+: s → p.count ')' ≤ n + p.count '(')
    (total : s.count ')' = n + s.count '(') : Closes n s := by
  induction s generalizing n with
  | nil =>
    have : n = 0 := by simpa using total.symm
    exact this ▸ .nil
  | cons c s ih =>
    have step (p : List Char) (hp : p <+: s) := h (c :: p) (List.cons_prefix_cons.mpr ⟨rfl, hp⟩)
    by_cases start : c = '('
    · subst start
      refine .opening (ih (fun p hp => ?_) ?_)
      · have := step p hp
        simp only [List.count_cons_self, List.count_cons_of_ne (by decide : '(' ≠ ')')] at this
        omega
      · simp only [List.count_cons_self, List.count_cons_of_ne (by decide : '(' ≠ ')')] at total
        omega
    · by_cases stop : c = ')'
      · subst stop
        simp only [List.count_cons_self, List.count_cons_of_ne (by decide : ')' ≠ '(')] at step total
        cases n with
        | zero =>
          have := step [] (List.nil_prefix)
          simp at this
        | succ n =>
          refine .closing (ih (fun p hp => ?_) ?_)
          · have := step p hp
            omega
          · omega
      · refine .other start stop (ih (fun p hp => ?_) ?_)
        · simpa [start, stop] using step p hp
        · simpa [start, stop] using total

theorem Balanced.closes (h : Balanced s) : Closes 0 s :=
  closes_of_prefixes (by simpa using h.1) (by simpa using h.2)

theorem Closes.dot (h : Closes n s) (b : Bool) : Closes n (if b then '.' :: s else s) := by
  cases b with
  | false => exact h
  | true => exact h.other (by decide) (by decide)

/-- A dot opens and closes nothing, so that marking leaves the groups as they are. -/
theorem Closes.mark (h : Closes n s) : Closes n (mark s) := by
  induction h with
  | nil => exact .nil
  | @opening n s rest ih =>
    rw [mark_cons]
    exact .opening (ih.dot _)
  | @closing n s rest ih =>
    rw [mark_cons]
    exact .closing (ih.dot _)
  | @other n c s start stop rest ih =>
    rw [mark_cons]
    exact .other start stop (ih.dot _)

def Splits : Nat → List Char → Prop
  | 0, s => Nested s
  | n + 1, s => ∃ inner rest, s = inner ++ [')'] ++ rest ∧ Nested inner ∧ Splits n rest

theorem Splits.other {c : Char} (start : c ≠ '(') (stop : c ≠ ')') (h : Splits n s) :
    Splits n (c :: s) := by
  cases n with
  | zero => exact Nested.other start stop h
  | succ n =>
    obtain ⟨inner, rest, rfl, within, others⟩ := h
    exact ⟨c :: inner, rest, rfl, .other start stop within, others⟩

theorem Splits.group {inner : List Char} (within : Nested inner) (h : Splits n s) :
    Splits n (['('] ++ inner ++ [')'] ++ s) := by
  cases n with
  | zero => exact Nested.group within h
  | succ n =>
    obtain ⟨first, rest, rfl, hfirst, others⟩ := h
    refine ⟨['('] ++ inner ++ [')'] ++ first, rest, ?_, .group within hfirst, others⟩
    simp only [List.append_assoc]

/-- By the text: a start gathers the groups up to its own end into one, and an end begins the next
sequence. -/
theorem Closes.splits (h : Closes n s) : Splits n s := by
  induction h with
  | nil => exact Nested.nil
  | @opening n s rest ih =>
    obtain ⟨inner, after, rfl, within, others⟩ := ih
    simpa using others.group within
  | @closing n s rest ih => exact ⟨[], s, rfl, .nil, ih⟩
  | other start stop rest ih => exact ih.other start stop

/-- Text that ends no more groups than it starts, and all of those, falls into its groups. -/
theorem Closes.nested (h : Closes 0 s) : Nested s :=
  h.splits

theorem not_mem_takeWhile {p : Char → Bool} (h : p '(' = false) (stack : List Char) :
    '(' ∉ stack.takeWhile p := by
  intro hm
  have := List.all_eq_true.mp List.all_takeWhile '(' hm
  rw [h] at this
  cases this

/-- Nothing is taken off the stack beyond a group that is still open. -/
theorem count_dropWhile {p : Char → Bool} (h : p '(' = false) (stack : List Char) :
    (stack.dropWhile p).count '(' = stack.count '(' := by
  have none_taken := List.count_eq_zero.mpr (not_mem_takeWhile h stack)
  calc (stack.dropWhile p).count '('
      = (stack.takeWhile p ++ stack.dropWhile p).count '(' := by
        rw [List.count_append, none_taken, Nat.zero_add]
    _ = stack.count '(' := by rw [List.takeWhile_append_dropWhile]

theorem eq_start_of_dropWhile {c : Char} {others : List Char}
    (found : stack.dropWhile (· != '(') = c :: others) : c = '(' := by
  have := List.head?_dropWhile_not (· != '(') stack
  simpa [found] using this

/-- The end of a group takes its start off the stack. -/
theorem count_drop_dropWhile (stack : List Char) :
    ((stack.dropWhile (· != '(')).drop 1).count '(' = stack.count '(' - 1 := by
  rw [← count_dropWhile (p := (· != '(')) rfl stack]
  cases found : stack.dropWhile (· != '(') with
  | nil => rfl
  | cons c others => simp [eq_start_of_dropWhile found]

/-- The end of a group that never started ends nothing. -/
def openAfter (n : Nat) (c : Char) : Nat :=
  if c = '(' then n + 1 else if c = ')' then n - 1 else n

theorem openAfter_of_ne {n : Nat} {c : Char} (start : c ≠ '(') (stop : c ≠ ')') :
    openAfter n c = n := by
  rw [openAfter, if_neg start, if_neg stop]

/-- The groups that are open at the end are the ones whose starts are written out. -/
theorem count_shunt (stack s : List Char) :
    (shunt stack s).count '(' = s.foldl openAfter (stack.count '(') := by
  fun_induction shunt stack s with
  | case1 stack => rfl
  | case2 stack rest ih => simpa [openAfter] using ih
  | case3 stack rest ih =>
    rw [List.count_append, List.count_eq_zero.mpr (not_mem_takeWhile rfl stack), ih,
      count_drop_dropWhile, Nat.zero_add]
    rfl
  | case4 stack c rest start stop operator ih =>
    have held : goesBefore c '(' = false := rfl
    rw [List.count_append, List.count_eq_zero.mpr (not_mem_takeWhile held stack), ih,
      List.count_cons_of_ne start, count_dropWhile held, Nat.zero_add, List.foldl_cons,
      openAfter_of_ne start stop]
  | case5 stack c rest start stop ordinary ih =>
    rw [List.count_cons_of_ne start, ih, List.foldl_cons, openAfter_of_ne start stop]

theorem Closes.foldl_openAfter (h : Closes n s) : s.foldl openAfter n = 0 := by
  induction h with
  | nil => rfl
  | opening rest ih => exact ih
  | closing rest ih => exact ih
  | other start stop rest ih => rw [List.foldl_cons, openAfter_of_ne start stop, ih]

/-- Every group that is open on the stack is closed, so that none is written out. -/
theorem Closes.not_mem_shunt (h : Closes n s) (opened : stack.count '(' = n) :
    '(' ∉ shunt stack s := by
  rw [← List.count_eq_zero, count_shunt, opened, h.foldl_openAfter]

/-- The end of a group is never written out. -/
theorem stop_not_mem_shunt (h : ')' ∉ stack) (s : List Char) : ')' ∉ shunt stack s := by
  fun_induction shunt stack s with
  | case1 stack => exact h
  | case2 stack rest ih => exact ih (by simp [h])
  | case3 stack rest ih =>
    rw [List.mem_append, not_or]
    refine ⟨fun hm => h ((List.takeWhile_sublist _).subset hm), ih fun hm => h ?_⟩
    exact (List.dropWhile_sublist _).subset (List.drop_subset _ _ hm)
  | case4 stack c rest _ stop operator ih =>
    rw [List.mem_append, not_or]
    refine ⟨fun hm => h ((List.takeWhile_sublist _).subset hm), ih fun hm => h ?_⟩
    exact (List.dropWhile_sublist _).subset (List.mem_of_ne_of_mem (Ne.symm stop) hm)
  | case5 stack c rest _ stop ordinary ih =>
    exact List.not_mem_cons_of_ne_of_not_mem (Ne.symm stop) (ih h)

/-- What the end of a group takes off the stack without writing it out is the start of the group. -/
theorem sum_drop_dropWhile {M : Type} [AddCommMonoid M] {f : Char → M} (start : f '(' = 0)
    (stack : List Char) :
    (((stack.dropWhile (· != '(')).drop 1).map f).sum = ((stack.dropWhile (· != '(')).map f).sum := by
  cases found : stack.dropWhile (· != '(') with
  | nil => rfl
  | cons c others => simp [eq_start_of_dropWhile found, start]

/-- Everything but the brackets is written out once, whatever it is worth. -/
theorem sum_shunt {M : Type} [AddCommMonoid M] {f : Char → M} (start : f '(' = 0)
    (stop : f ')' = 0) (stack s : List Char) :
    ((shunt stack s).map f).sum = (stack.map f).sum + (s.map f).sum := by
  have split (p : Char → Bool) (stack : List Char) : (stack.map f).sum =
      ((stack.takeWhile p).map f).sum + ((stack.dropWhile p).map f).sum := by
    rw [← List.sum_append, ← List.map_append, List.takeWhile_append_dropWhile]
  fun_induction shunt stack s with
  | case1 stack => simp
  | case2 stack rest ih => simp [ih, start]
  | case3 stack rest ih =>
    rw [List.map_append, List.sum_append, ih, sum_drop_dropWhile start, split (· != '(') stack]
    simp [stop, add_assoc]
  | case4 stack c rest _ _ operator ih =>
    rw [List.map_append, List.sum_append, ih, split (goesBefore c) stack]
    simp only [List.map_cons, List.sum_cons]
    abel
  | case5 stack c rest _ _ ordinary ih =>
    simp only [List.map_cons, List.sum_cons, ih]
    abel

def Hollow (s : List Char) : Prop :=
  ∃ n, s = List.replicate n '(' ++ List.replicate n ')'

theorem replicate_succ_group (n : Nat) :
    List.replicate (n + 1) '(' ++ List.replicate (n + 1) ')' =
      ['('] ++ (List.replicate n '(' ++ List.replicate n ')') ++ [')'] := by
  rw [List.replicate_succ, List.replicate_succ']
  simp

theorem Hollow.group (h : Hollow s) : Hollow (['('] ++ s ++ [')']) := by
  obtain ⟨n, rfl⟩ := h
  exact ⟨n + 1, (replicate_succ_group n).symm⟩

theorem mark_hollow (n : Nat) : mark (List.replicate n '(' ++ List.replicate n ')') =
    List.replicate n '(' ++ List.replicate n ')' := by
  induction n with
  | zero => rfl
  | succ n ih => rw [replicate_succ_group, mark_group, ih]

/-- Hollow text writes nothing and leaves the stack as it finds it. -/
theorem shunt_hollow (n : Nat) (stack rest : List Char) :
    shunt stack (List.replicate n '(' ++ List.replicate n ')' ++ rest) = shunt stack rest := by
  induction n generalizing stack rest with
  | zero => rfl
  | succ n ih =>
    rw [replicate_succ_group, List.append_assoc, List.append_assoc, List.singleton_append, shunt, ih]
    simp [shunt]

theorem reversePolish_hollow (h : Hollow s) : reversePolish (mark s) = [] := by
  obtain ⟨n, rfl⟩ := h
  rw [mark_hollow, reversePolish, ← List.append_nil (_ ++ _), shunt_hollow, shunt]

/-- Text of which nothing is written out has no operands and no groups side by side. -/
theorem Nested.hollow (h : Nested s) (brackets : ∀ c ∈ mark s, c = '(' ∨ c = ')') : Hollow s := by
  induction h with
  | nil => exact ⟨0, rfl⟩
  | @other c s start stop rest ih =>
    rw [mark_cons] at brackets
    rcases brackets c (by simp) with he | he
    · exact absurd he start
    · exact absurd he stop
  | @group inner s within rest ih ih' =>
    rw [mark_append, mark_group] at brackets
    have before := ih fun c hc => brackets c (by simp [hc])
    obtain ⟨n, after⟩ := ih' fun c hc => brackets c (by split <;> simp [hc])
    cases n with
    | zero =>
      rw [after]
      simpa using before.group
    | succ n =>
      have met : joins (['('] ++ inner ++ [')']) s := by
        rw [joins, any_getLast?_append _ rfl, after]
        rfl
      rw [if_pos met] at brackets
      have := brackets '.' (by simp)
      simp at this

def ordinary (c : Char) : Nat :=
  if c = '(' ∨ c = ')' then 0 else 1

theorem bracket_of_ordinary {c : Char} (h : ordinary c = 0) : c = '(' ∨ c = ')' := by
  unfold ordinary at h
  split at h
  · assumption
  · cases h

/-- Where nothing comes out of the yard, nothing but brackets went in. -/
theorem hollow_of_reversePolish (h : Balanced s) (silent : reversePolish (mark s) = []) :
    Hollow s := by
  have total := sum_shunt (f := ordinary) rfl rfl [] (mark s)
  rw [← reversePolish, silent] at total
  refine h.closes.nested.hollow fun c hc => bracket_of_ordinary ?_
  apply List.sum_eq_zero_iff_forall_eq_nat.mp (by simpa using total.symm)
  exact List.mem_map_of_mem hc

end Thompson.Surface
