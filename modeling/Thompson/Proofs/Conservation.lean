import Mathlib.Data.Finset.Lattice.Fold
import Mathlib.Order.Lattice.Nat
import Thompson.Proofs.Brackets

namespace Thompson.Surface

section Marks

/-- Leaves out one dot behind each character that an operand can end with. -/
def unmark : List Char → List Char
  | [] => []
  | [last] => [last]
  | c :: d :: rest =>
    if c ≠ '(' ∧ c ≠ '|' ∧ d = '.' then c :: unmark rest else c :: unmark (d :: rest)

theorem endsOperand_iff {c : Char} : endsOperand c ↔ c ≠ '(' ∧ c ≠ '|' := by
  simp [endsOperand]

/-- A dot can start an operand. Where one stands behind the end of an operand and is not left out,
marking has written another one between them. -/
theorem unmark_mark (s : List Char) : unmark (mark s) = s := by
  fun_induction mark s with
  | case1 => rfl
  | case2 last => rfl
  | case3 c d rest met ih =>
    obtain ⟨ends, _⟩ := (Bool.and_eq_true _ _).mp met
    obtain ⟨start, bar⟩ := endsOperand_iff.mp ends
    rw [unmark, if_pos ⟨start, bar, rfl⟩, ih]
  | case4 c d rest apart ih =>
    have undotted : ¬(c ≠ '(' ∧ c ≠ '|' ∧ d = '.') := by
      rintro ⟨start, bar, rfl⟩
      exact apart ((Bool.and_eq_true _ _).mpr ⟨endsOperand_iff.mpr ⟨start, bar⟩, rfl⟩)
    rw [mark_cons] at ih ⊢
    rw [unmark, if_neg undotted, ih]

def seams (s : List Char) : Nat :=
  (s.zip s.tail).countP fun (c, d) => c ∉ ['(', '|'] ∧ d ∉ ['*', '|', ')']

theorem seams_cons_cons (c d : Char) (rest : List Char) : seams (c :: d :: rest) =
    seams (d :: rest) + if endsOperand c && startsOperand d then 1 else 0 := by
  simp [seams, List.countP_cons, endsOperand, startsOperand, and_assoc]

theorem length_mark (s : List Char) : (mark s).length = s.length + seams s := by
  fun_induction mark s with
  | case1 => rfl
  | case2 last => rfl
  | case3 c d rest met ih =>
    rw [seams_cons_cons, if_pos met]
    simp only [List.length_cons] at ih ⊢
    omega
  | case4 c d rest apart ih =>
    rw [seams_cons_cons, if_neg apart]
    simp only [List.length_cons] at ih ⊢
    omega

/-- Marking can be undone, so that no two texts are marked alike, and makes a text longer by its
seams. -/
theorem mark_reversible :
    (∀ s, unmark (mark s) = s) ∧ Function.Injective mark ∧
      ∀ s, (mark s).length = s.length + seams s :=
  ⟨unmark_mark, Function.LeftInverse.injective unmark_mark, length_mark⟩

/-- Which of the dots was there before cannot be seen. -/
example : mark ['a', '.', 'b'] = ['a', '.', '.', '.', 'b'] := by
  rfl

end Marks

section Yard

variable {s : List Char}

def isDirect (c : Char) : Bool :=
  c ∉ ['.', '|', '(', ')']

theorem isDirect_iff {c : Char} : isDirect c ↔ c ≠ '.' ∧ c ≠ '|' ∧ c ≠ '(' ∧ c ≠ ')' := by
  simp [isDirect]

/-- What never waits keeps its order, wherever that which waits comes between. -/
theorem filter_shunt {stack : List Char} (waiting : ∀ c ∈ stack, ¬isDirect c) (s : List Char) :
    (shunt stack s).filter isDirect = s.filter isDirect := by
  have silent {part whole : List Char} (h : part.Sublist whole)
      (waiting : ∀ c ∈ whole, ¬isDirect c) : part.filter isDirect = [] :=
    List.filter_eq_nil_iff.mpr fun c hc => waiting c (h.subset hc)
  fun_induction shunt stack s with
  | case1 stack => exact silent (.refl _) waiting
  | case2 stack rest ih => exact ih (List.forall_mem_cons.mpr ⟨by decide, waiting⟩)
  | case3 stack rest ih =>
    have kept := ih fun c hc =>
      waiting c ((List.dropWhile_sublist _).subset (List.drop_subset _ _ hc))
    rw [List.filter_append, silent (List.takeWhile_sublist _) waiting, kept]
    rfl
  | case4 stack c rest _ _ operator ih =>
    have waits : ¬isDirect c := by rcases operator with rfl | rfl <;> decide
    have kept := ih (List.forall_mem_cons.mpr
      ⟨waits, fun d hd => waiting d ((List.dropWhile_sublist _).subset hd)⟩)
    rw [List.filter_append, silent (List.takeWhile_sublist _) waiting, kept,
      List.filter_cons_of_neg waits, List.nil_append]
  | case5 stack c rest start stop ordinary ih =>
    have direct : isDirect c := isDirect_iff.mpr (by tauto)
    rw [List.filter_cons_of_pos direct, List.filter_cons_of_pos direct, ih waiting]

/-- No character but a bracket is lost or doubled. -/
theorem count_reversePolish {c : Char} (start : c ≠ '(') (stop : c ≠ ')') (s : List Char) :
    (reversePolish s).count c = s.count c := by
  have worth (l : List Char) : (l.map fun d => if d = c then 1 else 0).sum = l.count c := by
    simp [List.sum_map_ite, List.count_eq_length_filter, beq_eq_decide]
  have total := sum_shunt (f := fun d => if d = c then 1 else 0) (if_neg start.symm)
    (if_neg stop.symm) [] s
  rwa [worth, worth, worth, List.count_nil, Nat.zero_add] at total

/-- The starts of groups among the first characters that are not paired with an end among them. An
end is paired with the last start before it that is still alone, if there is one. -/
def unpaired (s : List Char) : Nat → Finset Nat
  | 0 => ∅
  | n + 1 =>
    let before := unpaired s n
    match s[n]? with
    | some '(' => insert n before
    | some ')' => before.erase (before.sup id)
    | _ => before

theorem lt_of_mem_unpaired {n i : Nat} (h : i ∈ unpaired s n) : i < n := by
  induction n with
  | zero => cases h
  | succ n ih =>
    simp only [unpaired] at h
    split at h
    · rcases Finset.mem_insert.mp h with rfl | h
      · exact Nat.lt_succ_self _
      · exact Nat.lt_succ_of_lt (ih h)
    · exact Nat.lt_succ_of_lt (ih (Finset.mem_of_mem_erase h))
    · exact Nat.lt_succ_of_lt (ih h)

theorem card_erase_sup (places : Finset Nat) :
    (places.erase (places.sup id)).card = places.card - 1 := by
  rcases places.eq_empty_or_nonempty with rfl | nonempty
  · rfl
  · obtain ⟨last, mem, same⟩ := places.exists_mem_eq_sup nonempty id
    exact Finset.card_erase_of_mem (same ▸ mem)

theorem card_unpaired_succ (s : List Char) (n : Nat) : (unpaired s (n + 1)).card =
    s[n]?.elim (unpaired s n).card (openAfter (unpaired s n).card) := by
  simp only [unpaired]
  split
  · rename_i found
    have fresh : n ∉ unpaired s n := fun h => Nat.lt_irrefl n (lt_of_mem_unpaired h)
    rw [Finset.card_insert_of_notMem fresh, found]
    rfl
  · rename_i found
    rw [card_erase_sup, found]
    rfl
  · rename_i start stop
    cases found : s[n]? with
    | none => rfl
    | some c =>
      refine (openAfter_of_ne (fun same => start ?_) fun same => stop ?_).symm
      · rw [found, same]
      · rw [found, same]

/-- There are as many lone starts as groups are open, so that counting them is enough. -/
theorem card_unpaired (s : List Char) (n : Nat) :
    (unpaired s n).card = (s.take n).foldl openAfter 0 := by
  induction n with
  | zero => rfl
  | succ n ih =>
    rw [card_unpaired_succ, ih, List.take_add_one, List.foldl_append]
    cases s[n]? <;> rfl

/-- Ends of groups are never written out, and starts only where they are not paired. Operands and
stars come out in their order, and as many of the other operators as went in. -/
theorem reversePolish_conserves (s : List Char) :
    ')' ∉ reversePolish s ∧
    (reversePolish s).filter (· ∉ ['.', '|', '(']) = s.filter (· ∉ ['.', '|', '(', ')']) ∧
    (reversePolish s).count '.' = s.count '.' ∧
    (reversePolish s).count '|' = s.count '|' ∧
    (reversePolish s).count '(' = (unpaired s s.length).card := by
  have gone : ')' ∉ reversePolish s := stop_not_mem_shunt (by simp) s
  refine ⟨gone, ?_, count_reversePolish (by decide) (by decide) s,
    count_reversePolish (by decide) (by decide) s, ?_⟩
  · calc (reversePolish s).filter (· ∉ ['.', '|', '('])
        = (reversePolish s).filter isDirect := by
          refine List.filter_congr fun c hc => ?_
          have ne : c ≠ ')' := fun same => gone (same ▸ hc)
          simp [isDirect, ne]
      _ = s.filter isDirect := filter_shunt (by simp) s
  · rw [card_unpaired, List.take_length]
    exact count_shunt [] s

end Yard

end Thompson.Surface
