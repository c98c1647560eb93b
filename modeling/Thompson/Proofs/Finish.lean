import Thompson.Proofs.Acceptance

namespace Thompson

namespace Automaton

/-- Every text gets an answer, which tells whether the text is in the language. -/
def Recognizes (automaton : Automaton) (language : Language Char) : Prop :=
  ∀ text, ∃ answer, automaton.accepts text = .ok answer ∧ (answer = true ↔ text ∈ language)

/-- What is reached is what the search lists that tests a place only when it is taken off. -/
theorem reachable_eq_search (automaton : Automaton) :
    automaton.reachable = automaton.arena.search State.targets [automaton.entry] :=
  Arena.visitFresh_eq_visit ..

theorem fits_iff_of_ne {automaton : Automaton} {q : StateId} {state : State}
    (h : q ≠ automaton.exit) :
    automaton.fits q state ↔ state.accepting = false ∧ state.edges.isBounded := by
  have hb : (q == automaton.exit) = false := by simpa using h
  simp [fits, hb, and_comm]

theorem fits_exit (automaton : Automaton) : automaton.fits automaton.exit ⟨true, .empty⟩ := by
  simp [fits, Edges.isEmpty]

end Automaton

namespace Arena

variable {arena : Arena} {fragment : Fragment}

structure Sealed (arena : Arena) (fragment : Fragment) : Prop where
  exit : arena.state? fragment.exit = some ⟨true, .empty⟩
  reached : ∀ q, arena.Reaches State.targets fragment.entry q → q ≠ fragment.exit →
    ∃ state, arena.state? q = some state ∧ state.accepting = false ∧ state.edges.isBounded

theorem Sealed.state?_of_reaches (h : arena.Sealed fragment) {q : StateId}
    (hr : arena.Reaches State.targets fragment.entry q) : ∃ state, arena.state? q = some state := by
  by_cases he : q = fragment.exit
  · exact ⟨_, he ▸ h.exit⟩
  · obtain ⟨state, found, _⟩ := h.reached q hr he
    exact ⟨state, found⟩

theorem Sealed.encloses (h : arena.Sealed fragment) :
    (⟨arena, fragment.entry, fragment.exit⟩ : Automaton).Encloses [fragment.entry] := by
  intro p hp q hr
  cases List.mem_singleton.mp hp
  obtain ⟨state, found⟩ := h.state?_of_reaches hr
  exact lt_of_state? found

theorem eq_exit_of_looks {state : State} (h : (state.accepting && state.edges.isEmpty) = true) :
    state = ⟨true, .empty⟩ := by
  obtain ⟨accepting, edges⟩ := state
  cases edges <;> simp_all [Edges.isEmpty]

/-- The search comes to its end, since no edge that it follows leaves the arena. -/
theorem Sealed.isWellFormed (h : arena.Sealed fragment) :
    (⟨arena, fragment.entry, fragment.exit⟩ : Automaton).isWellFormed = .ok true := by
  obtain ⟨places, hs⟩ := search_ok h.encloses
  have fit : places.all (fun id => (arena.state? id).any
      (Automaton.fits ⟨arena, fragment.entry, fragment.exit⟩ id)) = true := by
    rw [List.all_eq_true]
    intro q hq
    obtain ⟨p, hp, hr⟩ := (mem_search_iff hs).mp hq
    cases List.mem_singleton.mp hp
    by_cases he : q = fragment.exit
    · rw [he, h.exit]
      exact Automaton.fits_exit ⟨arena, fragment.entry, fragment.exit⟩
    · obtain ⟨state, found, shape⟩ := h.reached q hr he
      rw [found]
      exact (Automaton.fits_iff_of_ne he).mpr shape
  simp only [Automaton.isWellFormed, Automaton.reachable_eq_search, fetch, h.exit, except_ok_bind,
    hs, fit]
  rfl

/-- What the search has listed is all that is reached, so that the tests have seen every place. -/
theorem sealed_of_isWellFormed
    (h : (⟨arena, fragment.entry, fragment.exit⟩ : Automaton).isWellFormed = .ok true) :
    arena.Sealed fragment := by
  unfold Automaton.isWellFormed at h
  cases he : arena.state? fragment.exit with
  | none => simp only [fetch, he] at h; cases h
  | some exit =>
    simp only [fetch, he, except_ok_bind] at h
    split at h
    · rename_i looks
      cases hs : arena.search State.targets [fragment.entry] with
      | error fault => simp only [Automaton.reachable_eq_search, hs] at h; cases h
      | ok places =>
        simp only [Automaton.reachable_eq_search, hs, except_ok_bind] at h
        have fit := List.all_eq_true.mp (Except.ok.inj h)
        refine ⟨by rw [he, eq_exit_of_looks looks], fun q hr hne => ?_⟩
        have fits := fit q ((mem_search_iff hs).mpr ⟨_, List.mem_singleton_self _, hr⟩)
        obtain ⟨state, found, fits⟩ := (Option.any_eq_true _ _).mp fits
        exact ⟨state, found, (Automaton.fits_iff_of_ne hne).mp fits⟩
    · cases h

/-- To finish a fragment only looks at the arena. -/
theorem finish_eq_ok_iff {automaton : Automaton} : arena.finish fragment = .ok automaton ↔
    arena.Sealed fragment ∧ automaton = ⟨arena, fragment.entry, fragment.exit⟩ := by
  constructor
  · intro h
    unfold finish at h
    cases hw : (⟨arena, fragment.entry, fragment.exit⟩ : Automaton).isWellFormed with
    | error fault => simp only [hw] at h; cases h
    | ok shape =>
      simp only [hw, except_ok_bind] at h
      cases shape with
      | false => cases h
      | true => exact ⟨sealed_of_isWellFormed hw, (Except.ok.inj h).symm⟩
  · intro given
    obtain ⟨whole, rfl⟩ := given
    simp only [finish, whole.isWellFormed, except_ok_bind]
    rfl

/-- The exit is the one accepting state that is reached. -/
theorem Sealed.recognizes (h : arena.Sealed fragment) :
    (⟨arena, fragment.entry, fragment.exit⟩ : Automaton).Recognizes
      {text | arena.Path fragment.entry text fragment.exit} := by
  intro text
  obtain ⟨answer, ha, hiff⟩ := Automaton.accepts_spec h.encloses text
  refine ⟨answer, ha, hiff.trans ⟨?_, fun path => ⟨_, path, ?_⟩⟩⟩
  · intro given
    obtain ⟨q, path, accepting⟩ := given
    by_cases he : q = fragment.exit
    · exact he ▸ path
    · obtain ⟨state, found, silent, _⟩ := h.reached q path.reaches he
      simp [Automaton.isAccepting, found, silent] at accepting
  · simp [Automaton.isAccepting, h.exit]

theorem Sealed.accepts_of_path (h : arena.Sealed fragment) {text : List Char}
    (path : arena.Path fragment.entry text fragment.exit) :
    (⟨arena, fragment.entry, fragment.exit⟩ : Automaton).accepts text = .ok true := by
  obtain ⟨answer, given, hiff⟩ := h.recognizes text
  rw [given, hiff.mpr path]

/-- A list with the entry in it, and with the targets of all that is in it, holds all that is
reached. To finish the fragment it is enough to look at this list. -/
theorem finish_of_listed (places : List StateId)
    (exit : arena.state? fragment.exit = some ⟨true, .empty⟩) (entry : fragment.entry ∈ places)
    (closed : ∀ p ∈ places, p ≠ fragment.exit → (arena.state? p).any fun state =>
      !state.accepting && state.edges.isBounded && state.targets.all (· ∈ places)) :
    arena.finish fragment = .ok ⟨arena, fragment.entry, fragment.exit⟩ := by
  have shape {p : StateId} (hp : p ∈ places) (ne : p ≠ fragment.exit) :
      ∃ state, arena.state? p = some state ∧ (state.accepting = false ∧ state.edges.isBounded) ∧
        ∀ q ∈ state.targets, q ∈ places := by
    simpa using (Option.any_eq_true _ _).mp (closed p hp ne)
  have listed {q : StateId} (hr : arena.Reaches State.targets fragment.entry q) : q ∈ places := by
    induction hr with
    | refl => exact entry
    | @tail p q _ step ih =>
      obtain ⟨state, found, target⟩ := step
      by_cases last : p = fragment.exit
      · cases Option.some.inj ((last ▸ found).symm.trans exit)
        cases target
      · obtain ⟨state', found', _, inside⟩ := shape ih last
        cases Option.some.inj (found.symm.trans found')
        exact inside q target
  refine finish_eq_ok_iff.mpr ⟨⟨exit, fun q hr ne => ?_⟩, rfl⟩
  obtain ⟨state, found, fits, _⟩ := shape (listed hr) ne
  exact ⟨state, found, fits⟩

end Arena

end Thompson
