import Thompson.Proofs.SizeLimit

namespace Thompson

def Record.states? : Record → Option Nat
  | started => none
  | applied _ _ states => some states
  | finished _ states => some states

namespace Token

variable {tokens : List Token} {i k : Nat}

def steps (tokens : List Token) : List Record :=
  tokens.mapIdx fun i token => .applied token i (states (tokens.take (i + 1)))

@[simp] theorem length_steps (tokens : List Token) : (steps tokens).length = tokens.length :=
  List.length_mapIdx

theorem getElem_steps (h : i < (steps tokens).length) (inside : i < tokens.length) :
    (steps tokens)[i] = .applied tokens[i] i (states (tokens.take (i + 1))) :=
  List.getElem_mapIdx

theorem states_take_mono (h : i ≤ k) : states (tokens.take i) ≤ states (tokens.take k) := by
  have fewer : (tokens.take i).Sublist (tokens.take k) := List.take_sublist_take_left h
  exact Nat.mul_le_mul_left 2 (fewer.countP_le)

/-- One token makes at most two states. -/
theorem states_take_succ_le (tokens : List Token) (i : Nat) :
    states (tokens.take (i + 1)) ≤ states (tokens.take i) + 2 := by
  rw [List.take_add_one, states_append]
  refine Nat.add_le_add_left ?_ _
  cases tokens[i]? with
  | none => exact Nat.zero_le _
  | some token => exact Nat.mul_le_mul_left 2 List.countP_le_length

theorem states?_steps (h : k ≤ tokens.length) : ((steps tokens).take k).filterMap Record.states? =
    (List.range' 1 k).map fun n => states (tokens.take n) := by
  induction k with
  | zero => rfl
  | succ k ih =>
    have inside : k < (steps tokens).length := (length_steps tokens).symm ▸ h
    rw [List.take_succ_eq_append_getElem inside, List.filterMap_append, ih (Nat.le_of_succ_le h),
      getElem_steps inside h, List.range'_1_concat, List.map_append, Nat.add_comm 1]
    rfl

theorem level_steps (h : k ≤ tokens.length) :
    ((steps tokens).take k).map Record.level = .replicate k .trace := by
  rw [List.eq_replicate_iff]
  refine ⟨by simpa using h, fun level mem => ?_⟩
  obtain ⟨record, taken, rfl⟩ := List.mem_map.mp mem
  obtain ⟨i, inside, rfl⟩ := List.getElem_of_mem (List.mem_of_mem_take taken)
  rw [getElem_steps inside (length_steps tokens ▸ inside)]
  rfl

end Token

namespace Trace

/-- So many tokens are applied until the result is known. The token that leaves too many states is
one of them, the one that misses an operand is not. -/
def StopsAt (trace : Trace) (compiler : Compiler) (tokens : List Token) (k : Nat) : Prop :=
  match trace.result with
  | .error (.rejected (.missingOperand _ position _ _)) => k = position
  | .error (.rejected (.tooBig limit)) => compiler.sizeLimit = some limit ∧
    if tokens = [] then k = 0 else ∃ q, IsLeast {i | Token.Outgrown tokens limit i} q ∧ k = q + 1
  | .error (.rejected (.danglingOperands _)) | .error (.fault _) | .ok _ => k = tokens.length

def closing (trace : Trace) (tokens : List Token) : List Record :=
  match trace.result with
  | .ok automaton => if tokens = [] then [] else [.finished tokens.length automaton.size]
  | .error _ => []

def counts (trace : Trace) : List Nat :=
  trace.records.filterMap Record.states?

structure Faithful (compiler : Compiler) (tokens : List Token) (trace : Trace) : Prop where
  records : ∃ k ≤ tokens.length, trace.StopsAt compiler tokens k ∧
    trace.records = .started :: ((Token.steps tokens).take k ++ trace.closing tokens) ∧
    trace.records.map Record.level =
      .debug :: (.replicate k .trace ++ (trace.closing tokens).map fun _ => .debug)
  ascending : trace.counts.Pairwise (· ≤ ·)
  bounded : ∀ limit, compiler.sizeLimit = some limit → ∀ n ∈ trace.counts, n ≤ limit + 2

structure Continues (compiler : Compiler) (tokens : List Token) (position k : Nat)
    (trace : Trace) : Prop where
  reached : position ≤ k
  bound : k ≤ tokens.length
  stops : trace.StopsAt compiler tokens k
  records : trace.records = ((Token.steps tokens).take k).drop position ++ trace.closing tokens
  allowed : compiler.Allows (Token.states (tokens.take (k - 1)))
  size : tokens ≠ [] → ∀ automaton, trace.result = .ok automaton →
    automaton.size = Token.states tokens

variable {compiler : Compiler} {tokens : List Token} {trace : Trace} {position k : Nat}

theorem Continues.cons (h : trace.Continues compiler tokens (position + 1) k)
    (inside : position < tokens.length) :
    (trace.cons (.applied tokens[position] position
      (Token.states (tokens.take (position + 1))))).Continues compiler tokens position k where
  reached := Nat.le_of_succ_le h.reached
  bound := h.bound
  stops := h.stops
  records := by
    have there : position < ((Token.steps tokens).take k).length := by
      simpa using ⟨h.reached, inside⟩
    rw [List.drop_eq_getElem_cons there, List.getElem_take, Token.getElem_steps _ inside]
    exact congrArg _ h.records
  allowed := h.allowed
  size := h.size

theorem closing_cases (trace : Trace) (tokens : List Token) : trace.closing tokens = [] ∨
    ∃ automaton, tokens ≠ [] ∧ trace.result = .ok automaton ∧
      trace.closing tokens = [.finished tokens.length automaton.size] := by
  obtain ⟨records, result⟩ := trace
  cases result with
  | error failure => exact .inl rfl
  | ok automaton =>
    by_cases empty : tokens = []
    · exact .inl (if_pos empty)
    · exact .inr ⟨automaton, empty, rfl, if_neg empty⟩

theorem level_closing (trace : Trace) (tokens : List Token) :
    (trace.closing tokens).map Record.level = (trace.closing tokens).map fun _ => .debug := by
  rcases trace.closing_cases tokens with none | ⟨_, _, _, one⟩
  · rw [none]
    rfl
  · rw [one]
    rfl

/-- Every number of states in the records is that of a prefix, and the prefixes grow. -/
theorem Continues.exists_prefixes (h : trace.Continues compiler tokens 0 k) :
    ∃ lengths : List Nat, lengths.Pairwise (· ≤ ·) ∧ (∀ n ∈ lengths, n ≤ k) ∧
      trace.counts = lengths.map fun n => Token.states (tokens.take n) := by
  have ascending : (List.range' 1 k).Pairwise (· ≤ ·) := List.pairwise_le_range'
  have within : ∀ n ∈ List.range' 1 k, n ≤ k := fun n mem => by
    have := List.mem_range'_1.mp mem
    omega
  have counted : trace.counts = ((List.range' 1 k).map fun n => Token.states (tokens.take n)) ++
      (trace.closing tokens).filterMap Record.states? := by
    rw [counts, h.records, List.drop_zero, List.filterMap_append, Token.states?_steps h.bound]
  rcases trace.closing_cases tokens with none | ⟨automaton, ne, made, one⟩
  · refine ⟨List.range' 1 k, ascending, within, ?_⟩
    rw [counted, none, List.filterMap_nil, List.append_nil]
  · have whole : k = tokens.length := by simpa only [StopsAt, made] using h.stops
    refine ⟨List.range' 1 k ++ [k], ?_, ?_, ?_⟩
    · exact List.pairwise_append.mpr ⟨ascending, List.pairwise_singleton _ _, by simpa using within⟩
    · exact List.forall_mem_append.mpr ⟨within, by simp⟩
    · rw [counted, one, List.map_append, List.map_singleton, whole, List.take_length,
        ← h.size ne automaton made]
      rfl

/-- A token makes two states at most, so that only the last ones can be beyond the limit. -/
theorem Continues.faithful (h : trace.Continues compiler tokens 0 k) :
    (trace.cons .started).Faithful compiler tokens := by
  obtain ⟨lengths, grow, within, counted⟩ := h.exists_prefixes
  have same : (trace.cons .started).counts = lengths.map fun n => Token.states (tokens.take n) :=
    counted
  have records : trace.records = (Token.steps tokens).take k ++ trace.closing tokens := h.records
  refine ⟨⟨k, h.bound, h.stops, congrArg _ records, ?_⟩, ?_, ?_⟩
  · have levels : trace.records.map Record.level =
        .replicate k .trace ++ (trace.closing tokens).map fun _ => .debug := by
      rw [records, List.map_append, Token.level_steps h.bound, level_closing]
    exact congrArg _ levels
  · rw [same]
    exact grow.map _ fun _ _ => Token.states_take_mono
  · intro limit limited count mem
    rw [same] at mem
    obtain ⟨n, there, rfl⟩ := List.mem_map.mp mem
    calc Token.states (tokens.take n)
        ≤ Token.states (tokens.take (k - 1 + 1)) :=
          Token.states_take_mono ((within n there).trans (Nat.le_add_of_sub_le (Nat.le_refl _)))
      _ ≤ Token.states (tokens.take (k - 1)) + 2 := Token.states_take_succ_le ..
      _ ≤ limit + 2 := Nat.add_le_add_right (h.allowed limit limited) 2

end Trace

namespace Compiler

variable {compiler : Compiler} {tokens rest : List Token} {token : Token} {machine next : Machine}
  {parts : List Part} {position limit : Nat}

theorem run_nil_of_ok {automaton : Automaton} (concluded : machine.conclude = .ok automaton) :
    compiler.run machine position [] = ⟨[.finished position automaton.size], .ok automaton⟩ := by
  simp only [run, concluded]

theorem run_nil_of_error {failure : Failure} (failed : machine.conclude = .error failure) :
    compiler.run machine position [] = ⟨[], .error failure⟩ := by
  simp only [run, failed]

/-- With no token left, the last record tells the automaton, or there is none. -/
theorem continues_end (ne : tokens ≠ []) (holds : machine.Holds parts)
    (size : machine.arena.size = Token.states tokens)
    (allowed : compiler.Allows (Token.states tokens)) :
    (compiler.run machine tokens.length []).Continues compiler tokens tokens.length tokens.length := by
  have before : compiler.Allows (Token.states (tokens.take (tokens.length - 1))) := by
    rw [← List.take_length (l := tokens)] at allowed
    exact allowed.mono (Token.states_take_mono (Nat.sub_le ..))
  by_cases single : parts.length = 1
  · obtain ⟨part, rfl⟩ := List.length_eq_one_iff.mp single
    obtain ⟨automaton, concluded, _⟩ := holds.conclude
    rw [run_nil_of_ok concluded]
    refine ⟨Nat.le_refl _, Nat.le_refl _, rfl, ?_, before, ?_⟩
    · simp [Trace.closing, ne]
    · rintro _ _ ⟨⟩
      rw [Automaton.size, Machine.arena_of_conclude concluded, size]
  · rw [run_nil_of_error (holds.conclude_dangling single)]
    exact ⟨Nat.le_refl _, Nat.le_refl _, rfl, by simp [Trace.closing], before, by simp⟩

/-- The token that goes beyond the limit has its record, and no token after it. -/
theorem continues_exceeded (inside : position < tokens.length)
    (allowed : compiler.Allows (Token.states (tokens.take position)))
    (beyond : compiler.exceeded? (Token.states (tokens.take (position + 1))) = some limit) :
    (⟨[], .error (.rejected (.tooBig limit))⟩ : Trace).Continues compiler tokens (position + 1)
      (position + 1) := by
  obtain ⟨limited, more⟩ := exceeded?_eq_some_iff.mp beyond
  have first : IsLeast {i | Token.Outgrown tokens limit i} position := by
    refine ⟨⟨inside, more⟩, fun i outgrown => Nat.le_of_not_lt fun early => ?_⟩
    exact Nat.not_lt_of_le ((Token.states_take_mono early).trans (allowed limit limited)) outgrown.2
  have ne : tokens ≠ [] := List.ne_nil_of_length_pos (Nat.zero_lt_of_lt inside)
  have stops : (⟨[], .error (.rejected (.tooBig limit))⟩ : Trace).StopsAt compiler tokens
      (position + 1) := by
    simp only [Trace.StopsAt, if_neg ne]
    exact ⟨limited, position, first, rfl⟩
  exact ⟨Nat.le_refl _, inside, stops, by simp [Trace.closing], allowed, by simp⟩

/-- A run that has come to a position goes on with the tokens from there. -/
theorem continues_run (ne : tokens ≠ []) (le : position ≤ tokens.length)
    (holds : machine.Holds parts) (size : machine.arena.size = Token.states (tokens.take position))
    (allowed : compiler.Allows (Token.states (tokens.take position))) :
    ∃ k, (compiler.run machine position (tokens.drop position)).Continues compiler tokens
      position k := by
  -- By induction on the tokens that are left. What carries it is that the arena has the states of the
  -- tokens before, and that those are allowed.
  induction left : tokens.length - position generalizing position machine parts with
  | zero =>
    obtain rfl : position = tokens.length := Nat.le_antisymm le (Nat.le_of_sub_eq_zero left)
    rw [List.take_length] at size allowed
    rw [List.drop_length]
    exact ⟨_, continues_end ne holds size allowed⟩
  | succ n ih =>
    have inside : position < tokens.length := by omega
    rw [List.drop_eq_getElem_cons inside]
    cases taken : tokens[position].rule? parts with
    | none =>
      rw [run_cons_of_error (holds.apply_missing taken position)]
      refine ⟨position, Nat.le_refl _, le, rfl, by simp [Trace.closing], ?_, by simp⟩
      exact allowed.mono (Token.states_take_mono (Nat.sub_le ..))
    | some result =>
      obtain ⟨rule, waiting⟩ := result
      obtain ⟨applied, held⟩ := holds.apply taken position
      have grown : (machine.after rule waiting).arena.size =
          Token.states (tokens.take (position + 1)) := by
        rw [Machine.size_after taken, size, ← Token.states_append,
          List.take_succ_eq_append_getElem inside]
      cases beyond : compiler.exceeded? (machine.after rule waiting).arena.size with
      | none =>
        have room := exceeded?_eq_none_iff.mp beyond
        obtain ⟨k, continues⟩ := ih inside held grown (grown ▸ room) (by omega)
        rw [run_cons applied room, grown]
        exact ⟨k, continues.cons inside⟩
      | some limit =>
        rw [run_cons_of_exceeded applied beyond, grown]
        rw [grown] at beyond
        exact ⟨_, (continues_exceeded inside allowed beyond).cons inside⟩

theorem continues_empty (compiler : Compiler) :
    (⟨[], compiler.compileEmpty⟩ : Trace).Continues compiler [] 0 0 := by
  have stops : (⟨[], compiler.compileEmpty⟩ : Trace).StopsAt compiler [] 0 ∧
      (⟨[], compiler.compileEmpty⟩ : Trace).closing [] = [] := by
    rcases compiler.compile_nil with ⟨limit, limited, _, rejected⟩ | ⟨_, automaton, compiled⟩
    · change compiler.compileEmpty = _ at rejected
      simp [Trace.StopsAt, Trace.closing, rejected, limited]
    · change compiler.compileEmpty = _ at compiled
      simp [Trace.StopsAt, Trace.closing, compiled]
  exact ⟨Nat.le_refl _, Nat.le_refl _, stops.1, stops.2.symm, fun _ _ => Nat.zero_le _,
    fun ne => absurd rfl ne⟩

/-- Whatever the tokens and the limit, the log is that of the tokens up to the one that decides. -/
theorem trace_faithful (compiler : Compiler) (tokens : List Token) :
    (compiler.trace tokens).Faithful compiler tokens := by
  cases tokens with
  | nil => exact compiler.continues_empty.faithful
  | cons token rest =>
    have start : compiler.Allows (Token.states ((token :: rest).take 0)) := fun _ _ => Nat.zero_le _
    obtain ⟨k, continues⟩ :=
      continues_run (List.cons_ne_nil token rest) (Nat.zero_le _) Machine.holds_empty rfl start
    exact continues.faithful

/-- The last token before the end may leave two states more than are allowed. -/
example : ((⟨some 2⟩ : Compiler).trace [.symbol 'a', .symbol 'b', .concat]).records =
    [.started, .applied (.symbol 'a') 0 2, .applied (.symbol 'b') 1 4] := by
  rfl

end Compiler

end Thompson
