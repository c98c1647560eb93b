import Thompson.Proofs.Finish
import Thompson.Arena.Edit

namespace Thompson

namespace Arena

variable {arena : Arena} {fragment : Fragment} {automaton : Automaton}

theorem path_append_iff {p r : StateId} {u v : List Char} :
    arena.Path p (u ++ v) r ↔ ∃ q, arena.Path p u q ∧ arena.Path q v r := by
  constructor
  · intro h
    induction u generalizing p with
    | nil => exact ⟨p, .here, h⟩
    | cons c u ih =>
      obtain ⟨q, s, before, step, after⟩ := path_cons_iff.mp h
      obtain ⟨q', first, second⟩ := ih after
      exact ⟨q', path_cons_iff.mpr ⟨q, s, before, step, first⟩, second⟩
  · rintro ⟨q, first, second⟩
    exact first.append second

theorem isAccepting_iff {q : StateId} : automaton.isAccepting q = true ↔
    ∃ state, automaton.arena.state? q = some state ∧ state.accepting = true :=
  Option.any_eq_true _ _

/-- The places kept together after a text are those that its paths end at, all of them states. There
is an answer for every text, which tells whether one of them accepts. If no place is left, then no
continuation of the text is accepted, so that there is no need to read on. -/
theorem finish_simulates (h : arena.finish fragment = .ok automaton) (text : List Char) :
    (∃ places, automaton.live text = .ok places ∧
      ∀ q, q ∈ places ↔ automaton.arena.Path automaton.entry text q) ∧
    (∀ q, automaton.arena.Path automaton.entry text q → q < automaton.size) ∧
    (∃ answer, automaton.accepts text = .ok answer ∧
      (answer = true ↔ ∃ q state, automaton.arena.Path automaton.entry text q ∧
        automaton.arena.state? q = some state ∧ state.accepting = true)) ∧
    (automaton.live text = .ok [] → ∀ more, automaton.accepts (text ++ more) = .ok false) := by
  obtain ⟨whole, rfl⟩ := finish_eq_ok_iff.mp h
  have inside := whole.encloses
  obtain ⟨places, found, hmem⟩ := Automaton.live_spec inside text
  refine ⟨⟨places, found, hmem⟩, fun q path => ?_, ?_, fun empty more => ?_⟩
  · exact inside _ (List.mem_singleton_self _) q path.reaches
  · obtain ⟨answer, given, hiff⟩ := Automaton.accepts_spec inside text
    refine ⟨answer, given, hiff.trans ?_⟩
    simp only [isAccepting_iff, exists_and_left]
  · obtain ⟨answer, given, hiff⟩ := Automaton.accepts_spec inside (text ++ more)
    cases answer with
    | false => exact given
    | true =>
      obtain ⟨q, path, _⟩ := hiff.mp rfl
      obtain ⟨p, first, _⟩ := path_append_iff.mp path
      cases found.symm.trans empty
      cases (hmem p).mpr first

def entangled : Arena :=
  (({} : Arena).editAll [.create false, .create false, .create true, .create true,
    .addEpsilon 0 0, .addEpsilon 0 1, .addSymbol 1 2 'a', .addSymbol 1 0 'b',
    .addEpsilon 3 7]).1

theorem finish_entangled : entangled.finish ⟨0, 2⟩ = .ok ⟨entangled, 0, 2⟩ :=
  finish_of_listed [0, 1, 2] rfl (by simp) (by decide)

theorem edge_entangled : entangled.Edge 0 none 1 :=
  .silent rfl (List.mem_cons_of_mem _ (List.mem_singleton_self 1))

theorem path_entangled_back : entangled.Path 0 ['b'] 0 :=
  .silent edge_entangled (.read (.labelled rfl rfl) .here)

theorem path_entangled_exit : entangled.Path 0 ['a'] 2 :=
  .silent edge_entangled (.read (.labelled rfl rfl) .here)

/-- Only one edge reads an `a`, and nothing is read behind it. -/
theorem not_path_entangled {p q : StateId} {more : List Char} :
    ¬entangled.Path p ('a' :: 'a' :: more) q := by
  have first {p q : StateId} (edge : entangled.Edge p (some 'a') q) : p = 1 ∧ q = 2 := by
    cases edge with
    | labelled found target =>
      match p, lt_of_state? found with
      | 0, _ | 2, _ | 3, _ =>
        cases found
        cases target
      | 1, _ =>
        cases found
        cases target
        exact ⟨rfl, rfl⟩
  intro path
  obtain ⟨_, s, _, read, rest⟩ := path_cons_iff.mp path
  obtain ⟨_, rfl⟩ := first read
  cases rest with
  | silent edge =>
    obtain ⟨found, target⟩ := edge
    cases found
    cases target
  | read edge => cases (first edge).1

/-- One text is read along a path, and after another one no place is left. -/
theorem finish_simulates_entangled :
    entangled.finish ⟨0, 2⟩ = .ok ⟨entangled, 0, 2⟩ ∧
    (∃ q state, entangled.Path 0 ['b', 'b', 'a'] q ∧ entangled.state? q = some state ∧
      state.accepting = true) ∧
    ∀ more, (⟨entangled, 0, 2⟩ : Automaton).accepts ('a' :: 'a' :: more) = .ok false := by
  have path : entangled.Path 0 ['b', 'b', 'a'] 2 :=
    path_entangled_back.append (path_entangled_back.append path_entangled_exit)
  have read := (finish_eq_ok_iff.mp finish_entangled).1.accepts_of_path path
  obtain ⟨answer, given, hiff⟩ := (finish_simulates finish_entangled ['b', 'b', 'a']).2.2.1
  obtain ⟨places, found, hmem⟩ := (finish_simulates finish_entangled ['a', 'a']).1
  have nowhere : places = [] := List.eq_nil_iff_forall_not_mem.mpr fun q hq =>
    not_path_entangled ((hmem q).mp hq)
  refine ⟨finish_entangled, hiff.mp (Except.ok.inj (given.symm.trans read)), ?_⟩
  exact (finish_simulates finish_entangled ['a', 'a']).2.2.2 (nowhere ▸ found)

end Arena

end Thompson
