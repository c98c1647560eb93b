import Thompson.Proofs.NormalForm
import Thompson.Proofs.Quotation
import Thompson.Proofs.Trim

namespace Thompson

variable {quote : Char → String} {id : StateId}

namespace State

variable {state other : State}

inductive Plain (id : StateId) : State → Prop where
  | final : Plain id ⟨true, .empty⟩
  | reads (c : Char) : Plain id ⟨false, .labelled (Labels.empty.insert c (id + 1))⟩
  | silent {targets : List StateId} (ne : targets ≠ []) : Plain id ⟨false, .epsilon targets⟩

theorem Thin.plain (h : state.Thin id) : state.Plain id := by
  cases h with
  | reads c => exact .reads c
  | one q => exact .silent (List.cons_ne_nil _ _)
  | two q r => exact .silent (List.cons_ne_nil _ _)

theorem describeWith_reads (quote : Char → String) (c : Char) (q : StateId) :
    (⟨false, .labelled (Labels.empty.insert c q)⟩ : State).describeWith quote =
      quote c ++ (" => " ++ toString q) := by
  rw [← String.append_assoc]
  exact String.intercalate_singleton (s := ", ")

def initial (state : State) : Char :=
  match state.edges with
  | .empty => 'M'
  | .labelled _ => '\x27'
  | .epsilon _ => 'ε'

theorem Plain.head? (h : state.Plain id) (legible : Text.Legible quote) :
    (state.describeWith quote).toList.head? = some state.initial := by
  cases h with
  | final => simp [describeWith, initial]
  | reads c =>
    rw [describeWith_reads, String.toList_append, List.head?_append, legible.quoted]
    rfl
  | silent ne => simp [describeWith, initial]

/-- A description keeps to its line, since no legible symbol breaks it. -/
theorem Plain.oneLine (h : state.Plain id) (legible : Text.Legible quote) :
    '\n' ∉ (state.describeWith quote).toList := by
  cases h with
  | final => simp [describeWith]
  | reads c =>
    have number : '\n' ∉ (toString (id + 1)).toList :=
      mt Text.isDigit_of_mem_toString Bool.false_ne_true
    rw [describeWith_reads, String.toList_append, String.toList_append]
    simp only [List.mem_append, not_or]
    exact ⟨legible.oneLine c, by simp, number⟩
  | @silent targets ne =>
    have list : '\n' ∉ (Text.commaSeparated (targets.map toString)).toList := fun mem => by
      simpa using Text.mem_commaSeparated mem
    rw [describeWith, String.toList_append]
    simp only [List.mem_append, not_or]
    exact ⟨by simp, list⟩

/-- States at the same place are the same if they are described alike. -/
theorem Plain.eq_of_describeWith (h : state.Plain id) (h' : other.Plain id)
    (legible : Text.Legible quote) (same : state.describeWith quote = other.describeWith quote) :
    state = other := by
  have kind : state.initial = other.initial := by
    have first := h.head? legible
    rw [same, h'.head? legible] at first
    exact (Option.some.inj first).symm
  -- Only the like cases of both are left. What they share is the end of a text that reads a symbol, and
  -- the beginning of one that goes on silently.
  cases h with
  | final =>
    cases h' with
    | final => rfl
    | _ => simp [initial] at kind
  | reads c =>
    cases h' with
    | reads d =>
      rw [describeWith_reads, describeWith_reads] at same
      rw [legible.injective ((String.append_left_inj _).mp same)]
    | _ => simp [initial] at kind
  | silent ne =>
    cases h' with
    | silent ne' =>
      have lists := (String.append_right_inj _).mp same
      rw [Text.commaSeparated_inj ne ne' lists]
    | _ => simp [initial] at kind

end State

namespace Automaton

variable {a b : Automaton} {state other : State}

def rows (quote : Char → String) (automaton : Automaton) : List (List Char) :=
  automaton.arena.states.toList.mapIdx fun id state => (automaton.rowWith quote id state).toList

theorem toList_dumpWith (quote : Char → String) (automaton : Automaton) :
    (automaton.dumpWith quote).toList =
      "thompson::NFA(\n".toList ++ ((automaton.rows quote).flatMap (· ++ ['\n']) ++ [')']) := by
  change ("thompson::NFA(\n" ++ String.join _ ++ ")").toList = _
  simp [rows, List.mapIdx_eq_zipIdx_map, List.flatMap_map]

theorem getElem?_rows (quote : Char → String) (automaton : Automaton) (id : StateId) :
    (automaton.rows quote)[id]? =
      (automaton.arena.state? id).map fun state => (automaton.rowWith quote id state).toList := by
  simp [rows, Arena.state?]

/-- The mark of the entry stands at the entry alone. -/
theorem mark_eq_iff (automaton : Automaton) (id : StateId) (state : State) :
    automaton.mark id state = ">" ↔ id = automaton.entry := by
  unfold mark
  split
  · simp [*]
  · split <;> simp [*]

theorem exists_toList_mark (automaton : Automaton) (id : StateId) (state : State) :
    ∃ c, c ≠ '\n' ∧ (automaton.mark id state).toList = [c] := by
  unfold mark
  split
  · exact ⟨'>', by simp⟩
  · split
    · exact ⟨'*', by simp⟩
    · exact ⟨' ', by simp⟩

/-- The line of a place tells its mark and the description of its state. -/
theorem rowWith_inj (same : a.rowWith quote id state = b.rowWith quote id other) :
    a.mark id state = b.mark id other ∧ state.describeWith quote = other.describeWith quote := by
  have texts := congrArg String.toList same
  simp only [rowWith, String.append_assoc, String.toList_append] at texts
  obtain ⟨_, _, one⟩ := a.exists_toList_mark id state
  obtain ⟨_, _, one'⟩ := b.exists_toList_mark id other
  obtain ⟨marks, rest⟩ := List.append_inj texts (by rw [one, one']; rfl)
  refine ⟨String.toList_inj.mp marks, String.toList_inj.mp ?_⟩
  exact List.append_cancel_left (List.append_cancel_left rest)

/-- The last state is the exit, and all states are plain. -/
structure Plain (automaton : Automaton) : Prop extends automaton.Compact where
  plain : ∀ id state, automaton.arena.state? id = some state → state.Plain id

theorem Plain.oneLine (h : a.Plain) (legible : Text.Legible quote) :
    ∀ row ∈ a.rows quote, '\n' ∉ row := by
  intro row mem
  obtain ⟨id, there⟩ := List.mem_iff_getElem?.mp mem
  rw [getElem?_rows] at there
  obtain ⟨state, found, rfl⟩ := Option.map_eq_some_iff.mp there
  obtain ⟨c, visible, one⟩ := a.exists_toList_mark id state
  have number : '\n' ∉ (Text.zeroPadded 6 id).toList :=
    mt Text.isDigit_of_mem_zeroPadded Bool.false_ne_true
  rw [rowWith, String.toList_append, String.toList_append, String.toList_append, one]
  simp only [List.mem_append, not_or]
  exact ⟨⟨⟨by simpa using visible.symm, number⟩, by simp⟩,
    (h.plain id state found).oneLine legible⟩

/-- A text of lines without breaks can be cut into its lines in one way only. -/
theorem rows_eq_of_dumpWith (h : a.Plain) (h' : b.Plain) (legible : Text.Legible quote)
    (same : a.dumpWith quote = b.dumpWith quote) : a.rows quote = b.rows quote := by
  have texts := congrArg String.toList same
  rw [toList_dumpWith, toList_dumpWith] at texts
  have lines := List.append_cancel_right (List.append_cancel_left texts)
  exact Text.pieces_inj (h.oneLine legible) (h'.oneLine legible) lines

/-- Where the lines are the same, there are states at the same places, with like marks and
descriptions. -/
theorem exists_state_of_rows (same : a.rows quote = b.rows quote)
    (found : a.arena.state? id = some state) :
    ∃ other, b.arena.state? id = some other ∧ a.mark id state = b.mark id other ∧
      state.describeWith quote = other.describeWith quote := by
  have row := congrArg (·[id]?) same
  simp only [getElem?_rows, found, Option.map_some] at row
  obtain ⟨other, found', texts⟩ := Option.map_eq_some_iff.mp row.symm
  exact ⟨other, found', rowWith_inj (String.toList_inj.mp texts.symm)⟩

/-- The lines of plain automata tell their states. -/
theorem arena_eq_of_rows (h : a.Plain) (h' : b.Plain) (legible : Text.Legible quote)
    (same : a.rows quote = b.rows quote) : a.arena = b.arena := by
  refine Arena.ext_state? fun id => ?_
  cases found : a.arena.state? id with
  | none =>
    cases found' : b.arena.state? id with
    | none => rfl
    | some other =>
      obtain ⟨_, there, _⟩ := exists_state_of_rows same.symm found'
      cases found.symm.trans there
  | some state =>
    obtain ⟨other, found', _, described⟩ := exists_state_of_rows same found
    rw [found', (h.plain id state found).eq_of_describeWith (h'.plain id other found') legible
      described]

/-- The mark of the entry is on its line alone. -/
theorem entry_eq_of_rows (inside : a.entry < a.size) (same : a.rows quote = b.rows quote) :
    a.entry = b.entry := by
  obtain ⟨other, _, marks, _⟩ := exists_state_of_rows same (Arena.state?_of_lt inside)
  rw [(mark_eq_iff a a.entry _).mpr rfl] at marks
  exact (mark_eq_iff b a.entry other).mp marks.symm

/-- A dump says nothing of the exit, which is the last state. -/
theorem Plain.eq_of_dumpWith (h : a.Plain) (h' : b.Plain) (legible : Text.Legible quote)
    (same : a.dumpWith quote = b.dumpWith quote) : a = b := by
  have rows := rows_eq_of_dumpWith h h' legible same
  have arena := arena_eq_of_rows h h' legible rows
  refine eq_of_parts arena (entry_eq_of_rows h.entry_lt_size rows) ?_
  have size : a.size = b.size := congrArg Arena.size arena
  rw [← h.last, ← h'.last] at size
  exact Nat.succ.inj size

/-- The entries of other automata may accept, and where their exits are, the dump does not tell. -/
example : (⟨⟨#[⟨true, .epsilon [0]⟩]⟩, 0, 0⟩ : Automaton).dump =
    (⟨⟨#[⟨false, .epsilon [0]⟩]⟩, 0, 1⟩ : Automaton).dump := by
  rfl

end Automaton

namespace Compiler

variable {compiler compiler' : Compiler} {tokens p q : List Token} {a b : Automaton}

theorem plain_empty : (⟨({} : Arena).extend .empty, 0, 1⟩ : Automaton).Plain := by
  refine ⟨compact_empty, fun id state found => ?_⟩
  match id, Arena.lt_of_state? found with
  | 0, _ =>
    cases (Arena.state?_wrapped_size rfl).symm.trans found
    exact .silent (List.cons_ne_nil _ _)
  | 1, _ =>
    cases (Arena.state?_wrapped_succ rfl).symm.trans found
    exact .final

/-- What is compiled reads one symbol at a time and ends at its last state. -/
theorem plain_of_compile (h : compiler.compile tokens = .ok a) : a.Plain := by
  rcases compile_eq_ok_iff.mp (compile_unlimited h) with ⟨_, rfl⟩ | ⟨x, _, rfl⟩
  · exact plain_empty
  · refine ⟨x.compact_automaton, fun id state found => ?_⟩
    rcases Expr.exit_or_thin found with ⟨_, rfl⟩ | ⟨_, thin⟩
    · exact .final
    · exact thin.plain

/-- Compiled automata are the same if their dumps are, in whatever legible way the symbols are
written. -/
theorem compile_dump_iff (hp : compiler.compile p = .ok a) (hq : compiler'.compile q = .ok b) :
    (∀ quote, Text.Legible quote → (a.dumpWith quote = b.dumpWith quote ↔ a = b)) ∧
      (a.dump = b.dump ↔ a = b) := by
  have tells (quote : Char → String) (legible : Text.Legible quote) :
      a.dumpWith quote = b.dumpWith quote ↔ a = b :=
    ⟨(plain_of_compile hp).eq_of_dumpWith (plain_of_compile hq) legible, congrArg _⟩
  exact ⟨tells, tells Text.quote Text.legible_quote⟩

/-- Three symbols in a row are dumped alike however they are grouped, and not if two of them are
swapped. -/
theorem compile_dump_iff_abc :
    ∃ a b c : Automaton,
      ({} : Compiler).compile [.symbol 'a', .symbol 'b', .concat, .symbol 'c', .concat] = .ok a ∧
      (⟨some 6⟩ : Compiler).compile
        [.symbol 'a', .symbol 'b', .symbol 'c', .concat, .concat] = .ok b ∧
      ({} : Compiler).compile [.symbol 'a', .symbol 'c', .symbol 'b', .concat, .concat] = .ok c ∧
      a.dump = b.dump ∧ a.dump ≠ c.dump := by
  have room : (⟨some 6⟩ : Compiler).Allows 6 := exceeded?_eq_none_iff.mp rfl
  have left := compile_tokens (.concat (.concat (.symbol 'a') (.symbol 'b')) (.symbol 'c'))
    (allows_unlimited _)
  have right := compile_tokens (.concat (.symbol 'a') (.concat (.symbol 'b') (.symbol 'c'))) room
  have swapped := compile_tokens (.concat (.symbol 'a') (.concat (.symbol 'c') (.symbol 'b')))
    (allows_unlimited _)
  refine ⟨_, _, _, left, right, swapped, ?_, fun same => ?_⟩
  · exact (compile_dump_iff left right).2.mpr (Expr.automaton_eq_iff.mpr rfl)
  · have equal := ((compile_dump_iff left swapped).1 Text.quote Text.legible_quote).mp same
    cases Expr.automaton_eq_iff.mp equal

end Compiler

end Thompson
