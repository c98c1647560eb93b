import Mathlib.Data.Finset.Card
import Mathlib.Data.Finset.Range
import Thompson.Arena.Edit
import Thompson.Proofs.Finish

namespace Thompson

namespace Arena

def unlisted (arena : Arena) (listed : List StateId) : Nat :=
  (Finset.range arena.size \ listed.toFinset).card

theorem unlisted_le_of_prefix (arena : Arena) {listed later : List StateId}
    (h : listed <+: later) : arena.unlisted later ≤ arena.unlisted listed := by
  refine Finset.card_le_card (Finset.sdiff_subset_sdiff subset_rfl fun id old => ?_)
  simp only [List.mem_toFinset] at old ⊢
  exact h.subset old

/-- Each place that is newly listed brings the end of the search closer. -/
theorem unlisted_append_lt {arena : Arena} {listed : List StateId} {id : StateId}
    (inside : id < arena.size) (fresh : id ∉ listed) :
    arena.unlisted (listed ++ [id]) < arena.unlisted listed := by
  refine Finset.card_lt_card ⟨?_, fun same => ?_⟩
  · exact Finset.sdiff_subset_sdiff subset_rfl (by simp)
  · have left : id ∈ Finset.range arena.size \ listed.toFinset := by simp [inside, fresh]
    have : id ∉ listed ++ [id] := by simpa using (Finset.mem_sdiff.mp (same left)).2
    simp at this

mutual

/-- The list after a visit of the place. A place that is listed is passed over, and any other one is
listed before its targets are visited. -/
def enter (arena : Arena) (next : State → List StateId) (id : StateId) (listed : List StateId) :
    { later : List StateId // listed <+: later } :=
  if _ : id ∉ listed then
    match _ : arena.state? id with
    | some state =>
      let ⟨later, grown⟩ := arena.enterAll next (next state) (listed ++ [id])
      ⟨later, (List.prefix_append ..).trans grown⟩
    | none => ⟨listed ++ [id], List.prefix_append ..⟩
  else ⟨listed, List.prefix_refl _⟩
termination_by (arena.unlisted listed, 0)
decreasing_by
  exact .left _ _ (unlisted_append_lt (lt_of_state? ‹_›) ‹_›)

def enterAll (arena : Arena) (next : State → List StateId) (places listed : List StateId) :
    { later : List StateId // listed <+: later } :=
  match places with
  | [] => ⟨listed, List.prefix_refl _⟩
  | id :: rest =>
    let ⟨middle, grown⟩ := arena.enter next id listed
    let ⟨later, grown'⟩ := arena.enterAll next rest middle
    ⟨later, grown.trans grown'⟩
termination_by (arena.unlisted listed, places.length + 1)
decreasing_by
  · exact .right _ (Nat.succ_pos _)
  · rcases Nat.lt_or_eq_of_le (arena.unlisted_le_of_prefix grown) with less | same
    · exact .left _ _ less
    · rw [same]
      exact .right _ (Nat.lt_succ_self _)

end

variable {arena : Arena} {next : State → List StateId} {id : StateId}
  {places listed pending rest : List StateId}

theorem enter_of_mem (h : id ∈ listed) : (arena.enter next id listed).val = listed := by
  rw [enter, dif_neg (not_not_intro h)]

theorem enter_of_fresh {state : State} (fresh : id ∉ listed) (found : arena.state? id = some state) :
    (arena.enter next id listed).val = (arena.enterAll next (next state) (listed ++ [id])).val := by
  rw [enter, dif_pos fresh]
  split
  · rename_i state' found'
    cases found.symm.trans found'
    rfl
  · rename_i missing
    cases found.symm.trans missing

theorem enterAll_nil : (arena.enterAll next [] listed).val = listed := by
  rw [enterAll]

theorem enterAll_cons : (arena.enterAll next (id :: rest) listed).val =
    (arena.enterAll next rest (arena.enter next id listed).val).val := by
  rw [enterAll]

theorem enterAll_append : (arena.enterAll next (places ++ rest) listed).val =
    (arena.enterAll next rest (arena.enterAll next places listed).val).val := by
  induction places generalizing listed with
  | nil => rw [List.nil_append, enterAll_nil]
  | cons id places ih => rw [List.cons_append, enterAll_cons, ih, enterAll_cons]

/-- The list only grows, so that the marks of the loop and the list of the recursion stay together:
what is marked when a place is taken off is what the recursion has listed when it comes to that
place. -/
theorem enterAll_of_visit {seen : Vector Bool arena.states.size}
    (h : arena.visit next pending seen = .ok places) (same : ∀ p, Marked seen p ↔ p ∈ listed) :
    (arena.enterAll next pending listed).val = listed ++ places := by
  fun_induction arena.visit next pending seen generalizing places listed with
  | case1 => cases h; rw [enterAll_nil, List.append_nil]
  | case2 => cases h
  | case3 seen id rest hid unseen targets _ =>
    rename_i ih
    cases hv : arena.visit next (targets ++ rest) (seen.set id true) with
    | error fault => rw [hv] at h; cases h
    | ok found =>
      rw [hv] at h
      cases h
      have fresh : id ∉ listed := fun old => unseen ((same id).mpr old).2
      have same' (p) : Marked (seen.set id true) p ↔ p ∈ listed ++ [id] := by
        rw [marked_set_iff hid, same p, List.mem_append, List.mem_singleton, or_comm]
      have further := ih hv same'
      rw [enterAll_append] at further
      rw [enterAll_cons, enter_of_fresh fresh (state?_of_lt hid), further, List.append_assoc]
      rfl
  | case4 seen id rest hid again ih =>
    have old : id ∈ listed := (same id).mp ⟨hid, by simpa using again⟩
    rw [enterAll_cons, enter_of_mem old]
    exact ih h same
  | case5 => cases h

end Arena

def Automaton.preorder (automaton : Automaton) : List StateId :=
  (automaton.arena.enter State.targets automaton.entry []).val

namespace Arena

variable {arena : Arena} {fragment : Fragment} {automaton : Automaton}

/-- The search of a finished automaton ends, and it lists what the recursive search lists, in the
same order: first the entry, and each place that the entry leads to once. -/
theorem finish_preorder (h : arena.finish fragment = .ok automaton) :
    automaton.reachable = .ok automaton.preorder ∧
    automaton.preorder.head? = some automaton.entry ∧ automaton.preorder.Nodup ∧
    ∀ q, q ∈ automaton.preorder ↔ automaton.arena.Reaches State.targets automaton.entry q := by
  obtain ⟨whole, rfl⟩ := finish_eq_ok_iff.mp h
  obtain ⟨places, found⟩ := search_ok whole.encloses
  have listed : (arena.enterAll State.targets [fragment.entry] []).val = [] ++ places :=
    enterAll_of_visit found fun p => by simp [not_marked_replicate]
  rw [enterAll_cons, enterAll_nil, List.nil_append] at listed
  obtain ⟨state, entered⟩ := whole.state?_of_reaches .refl
  refine ⟨?_, ?_, ?_, fun q => ?_⟩
  · rw [Automaton.reachable_eq_search]
    exact found.trans (congrArg _ listed.symm)
  · simp only [Automaton.preorder]
    rw [enter_of_fresh List.not_mem_nil entered]
    obtain ⟨more, begun⟩ := (arena.enterAll State.targets state.targets [fragment.entry]).property
    exact begun ▸ rfl
  · rw [Automaton.preorder, listed]
    exact nodup_search found
  · rw [Automaton.preorder, listed]
    simpa using mem_search_iff found

def shared : Arena :=
  (({} : Arena).editAll [.create false, .create false, .create false, .create true, .create false,
    .addEpsilon 0 2, .addEpsilon 0 1, .addSymbol 2 3 'b', .addSymbol 2 1 'a', .addEpsilon 1 0,
    .addEpsilon 1 3, .addEpsilon 4 9]).1

/-- The second way is listed where the first one comes to it, before all else that the first one
leads to. -/
theorem finish_preorder_shared :
    shared.finish ⟨0, 3⟩ = .ok ⟨shared, 0, 3⟩ ∧
    (⟨shared, 0, 3⟩ : Automaton).preorder = [0, 2, 1, 3] ∧
    ∀ q, shared.Reaches State.targets 0 q ↔ q ∈ [0, 2, 1, 3] := by
  have finished : shared.finish ⟨0, 3⟩ = .ok ⟨shared, 0, 3⟩ :=
    finish_of_listed [0, 1, 2, 3] rfl (by simp) (by decide)
  have choice : shared.state? 0 = some ⟨false, .epsilon [2, 1]⟩ := rfl
  have back : shared.state? 1 = some ⟨false, .epsilon [0, 3]⟩ := rfl
  have reader : shared.state? 2 = some ⟨false, .labelled (.ofList [('b', 3), ('a', 1)])⟩ := rfl
  have exit : shared.state? 3 = some ⟨true, .empty⟩ := rfl
  have third : (shared.enter State.targets 1 [0, 2]).val = [0, 2, 1, 3] := by
    rw [enter_of_fresh (by simp) back]
    change (shared.enterAll State.targets [0, 3] [0, 2, 1]).val = _
    rw [enterAll_cons, enter_of_mem (by simp), enterAll_cons, enter_of_fresh (by simp) exit,
      enterAll_nil]
    exact enterAll_nil
  have second : (shared.enter State.targets 2 [0]).val = [0, 2, 1, 3] := by
    rw [enter_of_fresh (by simp) reader]
    change (shared.enterAll State.targets [1, 3] [0, 2]).val = _
    rw [enterAll_cons, third, enterAll_cons, enter_of_mem (by simp), enterAll_nil]
  have order : (⟨shared, 0, 3⟩ : Automaton).preorder = [0, 2, 1, 3] := by
    rw [Automaton.preorder, enter_of_fresh List.not_mem_nil choice]
    change (shared.enterAll State.targets [2, 1] [0]).val = _
    rw [enterAll_cons, second, enterAll_cons, enter_of_mem (by simp), enterAll_nil]
  obtain ⟨_, _, _, hmem⟩ := finish_preorder finished
  exact ⟨finished, order, fun q => (hmem q).symm.trans (by rw [order])⟩

end Arena

end Thompson
