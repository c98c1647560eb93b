import Thompson.Call
import Thompson.Proofs.Build
import Thompson.Proofs.Guard

namespace Thompson

/-- What may become of edges. Silent ones are added behind those that are there, labelled ones are
added for further symbols, and a state that has edges of one kind does not get the other. -/
inductive Edges.Grows : Edges → Edges → Prop where
  | start (edges : Edges) : Grows empty edges
  | epsilon (targets more : List StateId) : Grows (epsilon targets) (epsilon (targets ++ more))
  | labelled {labels wider : Labels} (kept : labels.entries.Sublist wider.entries) :
      Grows (labelled labels) (labelled wider)

structure State.Grows (state grown : State) : Prop where
  rejecting : state.accepting = false → grown.accepting = false
  edges : state.edges.Grows grown.edges

def Edges.Regular (edges : Edges) : Prop :=
  edges = .empty ∨ edges.Onward

namespace Labels

theorem sublist_insertEntry {c : Char} {q : StateId} {entries : List (Char × StateId)}
    (fresh : entries.lookup c = none) : entries.Sublist (insertEntry c q entries) := by
  induction entries with
  | nil => exact List.nil_sublist _
  | cons entry rest ih =>
    rw [lookup_cons_eq_ite] at fresh
    unfold insertEntry
    split
    · exact List.sublist_cons_self _ _
    · split
      · rename_i same
        rw [if_pos same] at fresh
        cases fresh
      · rename_i other
        rw [if_neg other] at fresh
        exact (ih fresh).cons_cons _

theorem sublist_insert {labels : Labels} {c : Char} (fresh : ¬labels.contains c) (q : StateId) :
    labels.entries.Sublist (labels.insert c q).entries := by
  refine sublist_insertEntry ?_
  rw [contains, Option.not_isSome_iff_eq_none] at fresh
  exact fresh

theorem entries_insert_ne_nil (labels : Labels) (c : Char) (q : StateId) :
    (labels.insert c q).entries ≠ [] := by
  change insertEntry c q labels.entries ≠ []
  fun_cases insertEntry c q labels.entries <;> exact List.cons_ne_nil _ _

end Labels

namespace Edges

variable {edges grown more : Edges} {c : Char} {q : StateId}

theorem Grows.refl (edges : Edges) : edges.Grows edges := by
  cases edges with
  | empty => exact .start _
  | labelled labels => exact .labelled (List.Sublist.refl _)
  | epsilon targets =>
    have same := Grows.epsilon targets []
    rwa [List.append_nil] at same

/-- Edges that are added later leave those alone that were added before. -/
theorem Grows.trans (h : edges.Grows grown) (h' : grown.Grows more) : edges.Grows more := by
  cases h with
  | start => exact .start _
  | epsilon targets added =>
    cases h' with
    | epsilon _ added' =>
      rw [List.append_assoc]
      exact .epsilon _ _
  | labelled kept =>
    cases h' with
    | labelled kept' => exact .labelled (kept.trans kept')

theorem grows_addEpsilon (ok : edges.addEpsilon q = .ok grown) : edges.Grows grown := by
  cases edges with
  | empty => exact .start _
  | labelled labels => cases ok
  | epsilon targets =>
    cases eq_of_addEpsilon ok
    exact .epsilon _ _

theorem grows_addSymbol (ok : edges.addSymbol c q = .ok grown) : edges.Grows grown := by
  cases edges with
  | empty => exact .start _
  | epsilon targets => cases ok
  | labelled labels =>
    simp only [addSymbol] at ok
    split at ok
    · cases ok
    · rename_i fresh
      cases ok
      exact .labelled (Labels.sublist_insert fresh q)

/-- A third silent edge is refused, so that at most two are ever there. -/
theorem regular_addEpsilon (regular : edges.Regular) (ok : edges.addEpsilon q = .ok grown) :
    grown.Regular := by
  rcases regular with rfl | onward
  · cases ok
    exact .inr (.one q)
  · cases onward with
    | reads _ => cases ok
    | one p =>
      cases ok
      exact .inr (.two p q)
    | two p r => cases ok

theorem regular_addSymbol (ok : edges.addSymbol c q = .ok grown) : grown.Regular := by
  cases edges with
  | empty =>
    cases ok
    exact .inr (.reads (Labels.entries_insert_ne_nil _ _ _))
  | epsilon targets => cases ok
  | labelled labels =>
    simp only [addSymbol] at ok
    split at ok
    · cases ok
    · cases ok
      exact .inr (.reads (Labels.entries_insert_ne_nil _ _ _))

end Edges

namespace State

variable {state changed more : State} {c : Char} {q : StateId}

theorem Grows.refl (state : State) : state.Grows state :=
  ⟨id, .refl _⟩

theorem Grows.trans (h : state.Grows changed) (h' : changed.Grows more) : state.Grows more :=
  ⟨h'.rejecting ∘ h.rejecting, h.edges.trans h'.edges⟩

structure Develops (state changed : State) : Prop where
  grows : state.Grows changed
  regular : state.edges.Regular → changed.edges.Regular

/-- Both ways to add an edge leave the flag alone. -/
theorem develops_of_edges {added : Except Conflict Edges}
    (each : ∀ edges, added = .ok edges →
      state.edges.Grows edges ∧ (state.edges.Regular → edges.Regular))
    (ok : (added.map fun edges => { state with edges }) = .ok changed) :
    state.Develops changed := by
  cases added with
  | error why => cases ok
  | ok edges =>
    cases ok
    obtain ⟨grows, regular⟩ := each edges rfl
    exact ⟨⟨id, grows⟩, regular⟩

theorem develops_addEpsilon (ok : state.addEpsilon q = .ok changed) : state.Develops changed :=
  develops_of_edges (fun _ added =>
    ⟨Edges.grows_addEpsilon added, fun regular => Edges.regular_addEpsilon regular added⟩) ok

theorem develops_addSymbol (ok : state.addSymbol c q = .ok changed) : state.Develops changed :=
  develops_of_edges (fun _ added =>
    ⟨Edges.grows_addSymbol added, fun _ => Edges.regular_addSymbol added⟩) ok

theorem develops_reject (ok : state.reject = .ok changed) : state.Develops changed := by
  cases ok
  exact ⟨⟨fun _ => rfl, .refl _⟩, id⟩

end State

def Edit.place? : Edit → Option StateId
  | create _ => none
  | addEpsilon source _ | addSymbol source _ _ => some source
  | reject id => some id

namespace Arena

def Grows (arena grown : Arena) : Prop :=
  ∀ id state, arena.state? id = some state →
    ∃ changed, grown.state? id = some changed ∧ state.Grows changed

def Regular (arena : Arena) : Prop :=
  ∀ id state, arena.state? id = some state → state.edges.Regular

variable {arena grown more : Arena} {id : StateId} {state changed : State} {change : Edit}

theorem Grows.refl (arena : Arena) : arena.Grows arena :=
  fun _ state found => ⟨state, found, .refl state⟩

theorem Grows.trans (h : arena.Grows grown) (h' : grown.Grows more) : arena.Grows more := by
  intro id state found
  obtain ⟨changed, found', first⟩ := h id state found
  obtain ⟨last, found'', second⟩ := h' id changed found'
  exact ⟨last, found'', first.trans second⟩

theorem grows_push (arena : Arena) (state : State) : arena.Grows (arena.push state) :=
  fun _ old found => ⟨old, (state?_push_of_lt (lt_of_state? found)).trans found, .refl old⟩

theorem grows_put (found : arena.state? id = some state) (grows : state.Grows changed) :
    arena.Grows (arena.put id changed) := by
  have inside := lt_of_state? found
  intro other old found'
  by_cases same : id = other
  · subst same
    cases found.symm.trans found'
    exact ⟨changed, state?_put_self inside, grows⟩
  · exact ⟨old, (state?_put_of_ne inside same).trans found', .refl old⟩

theorem Regular.push (h : arena.Regular) (regular : state.edges.Regular) :
    (arena.push state).Regular := by
  intro other old found
  rw [state?_push] at found
  split at found
  · cases found
    exact regular
  · exact h other old found

theorem Regular.put (h : arena.Regular) (inside : id < arena.size) (regular : state.edges.Regular) :
    (arena.put id state).Regular := by
  intro other old found
  rw [state?_put inside] at found
  split at found
  · cases found
    exact regular
  · exact h other old found

/-- A change is refused and leaves no trace, or it is made to a state that is there. -/
theorem update_cases (arena : Arena) (id : StateId) (apply : State → Except Conflict State) :
    (∃ fault, arena.update id apply = (arena, some fault)) ∨
      ∃ state changed, arena.state? id = some state ∧ apply state = .ok changed ∧
        arena.update id apply = (arena.put id changed, none) := by
  cases found : arena.state? id with
  | none => exact .inl ⟨.outOfRange arena.size id, by simp only [update, fetch, found]⟩
  | some state =>
    cases applied : apply state with
    | error why => exact .inl ⟨.conflict id why, by simp only [update, fetch, found, applied]⟩
    | ok changed => exact .inr ⟨state, changed, rfl, applied, update_of_ok found applied⟩

/-- All that a single change can come to. -/
inductive Edited (arena : Arena) (change : Edit) : Arena → Prop where
  | refused : Edited arena change arena
  | created (accepting : Bool) : Edited arena change (arena.push ⟨accepting, .empty⟩)
  | changed {id : StateId} {state changed : State} (place : change.place? = some id)
      (found : arena.state? id = some state) (develops : state.Develops changed) :
      Edited arena change (arena.put id changed)

theorem edited_update {apply : State → Except Conflict State} (place : change.place? = some id)
    (develops : ∀ state changed, apply state = .ok changed → state.Develops changed) :
    arena.Edited change (arena.update id apply).1 := by
  rcases arena.update_cases id apply with ⟨fault, refused⟩ | ⟨state, changed, found, applied, made⟩
  · rw [refused]
    exact .refused
  · rw [made]
    exact .changed place found (develops state changed applied)

/-- No change does more than write to one state that is there, or add a new one behind them all. -/
theorem edited_edit (arena : Arena) (change : Edit) : arena.Edited change (arena.edit change).1 := by
  cases change with
  | create accepting => exact .created accepting
  | addEpsilon source target => exact edited_update rfl fun _ _ => State.develops_addEpsilon
  | addSymbol source target symbol => exact edited_update rfl fun _ _ => State.develops_addSymbol
  | reject id => exact edited_update rfl fun _ _ => State.develops_reject

theorem Edited.grows (h : arena.Edited change grown) : arena.Grows grown := by
  cases h with
  | refused => exact .refl _
  | created accepting => exact grows_push _ _
  | changed _ found develops => exact grows_put found develops.grows

theorem Edited.regular (h : arena.Edited change grown) (regular : arena.Regular) :
    grown.Regular := by
  cases h with
  | refused => exact regular
  | created accepting => exact regular.push (.inl rfl)
  | changed _ found develops =>
    exact regular.put (lt_of_state? found) (develops.regular (regular _ _ found))

theorem Edited.state?_of_ne (h : arena.Edited change grown) (inside : id < arena.size)
    (apart : change.place? ≠ some id) : grown.state? id = arena.state? id := by
  cases h with
  | refused => rfl
  | created accepting => exact state?_push_of_lt inside
  | changed place found _ =>
    exact state?_put_of_ne (lt_of_state? found) fun same => apart (same ▸ place)

/-- What each of the changes keeps, a run of them keeps, wherever it stops. -/
theorem editAll_induction {P : Arena → Prop} (changes : List Edit) (start : P arena)
    (step : ∀ arena, ∀ change ∈ changes, P arena → P (arena.edit change).1) :
    P (arena.editAll changes).1 := by
  induction changes generalizing arena with
  | nil => exact start
  | cons change rest ih =>
    have first := step arena change List.mem_cons_self start
    unfold editAll
    split
    · rename_i made edited
      rw [edited] at first
      exact ih first fun arena later hl => step arena later (List.mem_cons_of_mem _ hl)
    · rename_i kept fault edited
      rwa [edited] at first

end Arena

namespace Call

def edits (size : Nat) : Call → List Edit
  | create accepting => [.create accepting]
  | addEpsilon source target => [.addEpsilon source target]
  | addSymbol source target symbol => [.addSymbol source target symbol]
  | build rule => rule.edits size

def written : Call → List StateId
  | create _ | build .empty | build (.symbol _) => []
  | addEpsilon source _ | addSymbol source _ _ => [source]
  | build (.concat first _) => [first.exit]
  | build (.union first second) => [first.exit, second.exit]
  | build (.closure operand) => [operand.exit]

/-- Such a call does all that it is asked for, or nothing. -/
def isAtomic : Call → Bool
  | create _ | addEpsilon _ _ | addSymbol _ _ _ | build (.concat _ _) => true
  | build .empty | build (.symbol _) | build (.union _ _) | build (.closure _) => false

/-- The changes of a call go to the places it is said to write to, or to those that it makes
itself. -/
theorem mem_written_of_place? {call : Call} {size : Nat} {change : Edit} {id : StateId}
    (h : change ∈ call.edits size) (place : change.place? = some id) (old : id < size) :
    id ∈ call.written := by
  cases call with
  | create _ =>
    cases List.mem_singleton.mp h
    cases place
  | addEpsilon source target =>
    cases List.mem_singleton.mp h
    cases place
    exact List.mem_singleton_self _
  | addSymbol source target symbol =>
    cases List.mem_singleton.mp h
    cases place
    exact List.mem_singleton_self _
  | build rule =>
    cases rule <;> simp only [edits, Rule.edits, List.mem_cons, List.not_mem_nil, or_false] at h <;>
      grind [written, Edit.place?]

end Call

namespace Arena

variable {arena : Arena} {call : Call} {id : StateId}

theorem editAll_singleton (arena : Arena) (change : Edit) :
    arena.editAll [change] = arena.edit change := by
  rw [editAll]
  split
  · rename_i made edited
    rw [edited, editAll]
  · rename_i kept fault edited
    rw [edited]

/-- A call is the run of its changes, broken off where one is refused. -/
theorem perform_eq_editAll (arena : Arena) (call : Call) :
    arena.perform call = arena.editAll (call.edits arena.size) := by
  cases call with
  | create accepting => exact (arena.editAll_singleton (.create accepting)).symm
  | addEpsilon source target => exact (arena.editAll_singleton (.addEpsilon source target)).symm
  | addSymbol source target symbol =>
    exact (arena.editAll_singleton (.addSymbol source target symbol)).symm
  | build rule =>
    simp only [perform, build, Call.edits]
    rcases arena.editAll (rule.edits arena.size) with ⟨made, _ | fault⟩ <;> rfl

theorem grows_perform (arena : Arena) (call : Call) : arena.Grows (arena.perform call).1 := by
  rw [perform_eq_editAll]
  exact editAll_induction _ (.refl arena) fun made change _ grows =>
    grows.trans (made.edited_edit change).grows

theorem Regular.perform (h : arena.Regular) (call : Call) : (arena.perform call).1.Regular := by
  rw [perform_eq_editAll]
  exact editAll_induction _ h fun made change _ => (made.edited_edit change).regular

/-- A call does not write to the other places that were there before it. -/
theorem state?_perform (inside : id < arena.size) (apart : id ∉ call.written) :
    (arena.perform call).1.state? id = arena.state? id := by
  rw [perform_eq_editAll]
  refine (editAll_induction (P := fun made => arena.size ≤ made.size ∧
    made.state? id = arena.state? id) _ ⟨Nat.le_refl _, rfl⟩ ?_).2
  rintro made change hl ⟨le, same⟩
  have elsewhere : change.place? ≠ some id := fun place =>
    apart (Call.mem_written_of_place? hl place inside)
  exact ⟨le.trans (made.size_le_size_edit change),
    ((made.edited_edit change).state?_of_ne (Nat.lt_of_lt_of_le inside le) elsewhere).trans same⟩

/-- The exit that is tied can also be cleared, so that a concatenation is refused before it does
anything. -/
theorem perform_concat_of_fault {first second : Fragment}
    (refused : (arena.perform (.build (.concat first second))).2.isSome) :
    (arena.perform (.build (.concat first second))).1 = arena := by
  rw [perform_eq_editAll] at refused ⊢
  simp only [Call.edits, Rule.edits] at refused ⊢
  rcases arena.update_cases first.exit (State.addEpsilon second.entry) with
    ⟨fault, edited⟩ | ⟨state, changed, found, added, _⟩
  · have edited : arena.edit (.addEpsilon first.exit second.entry) = (arena, some fault) := edited
    rw [editAll, edited]
  · rw [editAll_addEpsilon found added, editAll_reject (state?_put_self (lt_of_state? found))]
      at refused
    cases refused

/-- Only a call that makes states first can be refused with something done. -/
theorem perform_of_fault (atomic : call.isAtomic) (refused : (arena.perform call).2.isSome) :
    (arena.perform call).1 = arena := by
  obtain ⟨fault, refused'⟩ := Option.isSome_iff_exists.mp refused
  cases call with
  | create accepting => exact edit_of_fault refused'
  | addEpsilon source target => exact edit_of_fault refused'
  | addSymbol source target symbol => exact edit_of_fault refused'
  | build rule =>
    cases rule with
    | concat first second => exact perform_concat_of_fault refused
    | empty | symbol _ | union _ _ | closure _ => cases atomic

theorem performAll_append (arena : Arena) (calls more : List Call) :
    arena.performAll (calls ++ more) = (arena.performAll calls).performAll more :=
  List.foldl_append

theorem grows_performAll (arena : Arena) (calls : List Call) :
    arena.Grows (arena.performAll calls) := by
  induction calls generalizing arena with
  | nil => exact .refl arena
  | cons call rest ih => exact (arena.grows_perform call).trans (ih _)

theorem Regular.performAll (h : arena.Regular) (calls : List Call) :
    (arena.performAll calls).Regular := by
  induction calls generalizing arena with
  | nil => exact h
  | cons call rest ih => exact ih (h.perform call)

/-- Starting from nothing, no calls can bring about a state with too many edges or with both
kinds. -/
theorem regular_calls (calls : List Call) : (({} : Arena).performAll calls).Regular :=
  Regular.performAll (fun _ _ found => by cases found) calls

/-- Whatever calls come before and whatever calls come later, the states that are there stay where
they are and keep their edges, and none of them comes to accept. No state gets more edges than it
may have. The next call leaves all places alone that it does not write to, and an edge or a
concatenation that is refused leaves everything as it was. -/
theorem calls_grow (before later : List Call) (call : Call) :
    (({} : Arena).performAll before).Grows (({} : Arena).performAll (before ++ later)) ∧
    (({} : Arena).performAll before).Regular ∧
    (∀ id < (({} : Arena).performAll before).size, id ∉ call.written →
      ((({} : Arena).performAll before).perform call).1.state? id =
        (({} : Arena).performAll before).state? id) ∧
    (call.isAtomic → ((({} : Arena).performAll before).perform call).2.isSome →
      ((({} : Arena).performAll before).perform call).1 = ({} : Arena).performAll before) := by
  refine ⟨?_, regular_calls before, fun id => state?_perform, perform_of_fault⟩
  rw [performAll_append]
  exact grows_performAll _ later

/-- A closure that is refused leaves its two states behind. -/
example : ((({} : Arena).perform (.build (.closure ⟨7, 7⟩))).1.size,
    (({} : Arena).perform (.build (.closure ⟨7, 7⟩))).2) = (2, some (.outOfRange 2 7)) := by
  decide

end Arena

end Thompson
