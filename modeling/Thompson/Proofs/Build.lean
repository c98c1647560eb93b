import Thompson.Proofs.Search
import Thompson.Rule

namespace Thompson

namespace Rule

variable {α β : Type}

@[simp] def operands : Rule α → List α
  | empty | symbol _ => []
  | concat first second | union first second => [first, second]
  | closure operand => [operand]

def map (f : α → β) : Rule α → Rule β
  | empty => empty
  | symbol c => symbol c
  | concat first second => concat (f first) (f second)
  | union first second => union (f first) (f second)
  | closure operand => closure (f operand)

def created : Rule α → Nat
  | concat _ _ => 0
  | empty | symbol _ | union _ _ | closure _ => 2

@[simp] theorem operands_map (f : α → β) (rule : Rule α) :
    (rule.map f).operands = rule.operands.map f := by
  cases rule <;> rfl

@[simp] theorem created_map (f : α → β) (rule : Rule α) : (rule.map f).created = rule.created := by
  cases rule <;> rfl

end Rule

namespace Arena

def push (arena : Arena) (state : State) : Arena :=
  ⟨arena.states.push state⟩

def put (arena : Arena) (id : StateId) (state : State) : Arena :=
  ⟨arena.states.setIfInBounds id state⟩

variable {arena : Arena} {id other : StateId} {state : State}

theorem ext_state? {a b : Arena} (h : ∀ id, a.state? id = b.state? id) : a = b := by
  cases a
  cases b
  exact congrArg Arena.mk (Array.ext_getElem? (h ·))

@[simp] theorem size_push : (arena.push state).size = arena.size + 1 :=
  Array.size_push _

@[simp] theorem size_put : (arena.put id state).size = arena.size :=
  Array.size_setIfInBounds

theorem state?_push : (arena.push state).state? other =
    if other = arena.size then some state else arena.state? other :=
  Array.getElem?_push

theorem state?_put (h : id < arena.size) : (arena.put id state).state? other =
    if id = other then some state else arena.state? other := by
  have hs : id < arena.states.size := h
  simp only [put, state?, Array.getElem?_setIfInBounds, hs, if_true]

theorem state?_put_self (h : id < arena.size) : (arena.put id state).state? id = some state := by
  rw [state?_put h, if_pos rfl]

theorem state?_put_of_ne (h : id < arena.size) (ne : id ≠ other) :
    (arena.put id state).state? other = arena.state? other := by
  rw [state?_put h, if_neg ne]

theorem state?_push_size (h : id = arena.size) : (arena.push state).state? id = some state := by
  rw [state?_push, if_pos h]

theorem state?_push_of_lt (h : id < arena.size) : (arena.push state).state? id = arena.state? id := by
  rw [state?_push, if_neg (Nat.ne_of_lt h)]

@[simp] theorem put_put {first second : State} :
    (arena.put id first).put id second = arena.put id second := by
  simp [put]

theorem push_put_size {first second : State} :
    (arena.push first).put arena.size second = arena.push second := by
  refine ext_state? fun other => ?_
  rw [state?_put (by simp), state?_push, state?_push]
  grind

theorem push_put_of_lt {first second : State} (h : id < arena.size) :
    (arena.push first).put id second = (arena.put id second).push first := by
  refine ext_state? fun other => ?_
  rw [state?_put (by simpa using Nat.lt_succ_of_lt h), state?_push, state?_push, state?_put h,
    size_put]
  grind

section Wrapped

variable {first second : State}

theorem state?_wrapped_size (h : id = arena.size) :
    ((arena.push first).push second).state? id = some first := by
  rw [state?_push_of_lt (by simp [h]), state?_push_size h]

theorem state?_wrapped_succ (h : id = arena.size + 1) :
    ((arena.push first).push second).state? id = some second :=
  state?_push_size (by simp [h])

theorem state?_wrapped_of_lt (h : id < arena.size) :
    ((arena.push first).push second).state? id = arena.state? id := by
  rw [state?_push_of_lt (by simpa using Nat.lt_succ_of_lt h), state?_push_of_lt h]

theorem wrapped_put_size :
    ((arena.push first).push second).put arena.size state = (arena.push state).push second := by
  rw [push_put_of_lt (by simp), push_put_size]

theorem wrapped_put_of_lt (h : id < arena.size) :
    ((arena.push first).push second).put id state =
      ((arena.put id state).push first).push second := by
  rw [push_put_of_lt (by simpa using Nat.lt_succ_of_lt h), push_put_of_lt h]

end Wrapped

/-- The arena after a rule whose operands have open exits. -/
def extend (arena : Arena) : Rule Fragment → Arena
  | .empty => (arena.push ⟨false, .epsilon [arena.size + 1]⟩).push ⟨true, .empty⟩
  | .symbol c =>
    (arena.push ⟨false, .labelled (Labels.empty.insert c (arena.size + 1))⟩).push ⟨true, .empty⟩
  | .concat first second => arena.put first.exit ⟨false, .epsilon [second.entry]⟩
  | .union first second =>
    (((arena.put first.exit ⟨false, .epsilon [arena.size + 1]⟩).put
      second.exit ⟨false, .epsilon [arena.size + 1]⟩).push
      ⟨false, .epsilon [first.entry, second.entry]⟩).push ⟨true, .empty⟩
  | .closure operand =>
    ((arena.put operand.exit ⟨false, .epsilon [arena.size + 1, operand.entry]⟩).push
      ⟨false, .epsilon [arena.size + 1, operand.entry]⟩).push ⟨true, .empty⟩

structure Ready (arena : Arena) (rule : Rule Fragment) : Prop where
  opened : ∀ fragment ∈ rule.operands, arena.state? fragment.exit = some ⟨true, .empty⟩
  distinct : (rule.operands.map Fragment.exit).Nodup

theorem editAll_create (accepting : Bool) (rest : List Edit) :
    arena.editAll (.create accepting :: rest) = (arena.push ⟨accepting, .empty⟩).editAll rest :=
  rfl

/-- A change that is not refused writes its state, and the run goes on from there. -/
theorem editAll_update {change : Edit} {apply : State → Except Conflict State} {changed : State}
    {rest : List Edit} (he : arena.edit change = arena.update id apply)
    (found : arena.state? id = some state) (ok : apply state = .ok changed) :
    arena.editAll (change :: rest) = (arena.put id changed).editAll rest := by
  rw [editAll, he, update_of_ok found ok]
  rfl

theorem editAll_addEpsilon {target : StateId} {changed : State} {rest : List Edit}
    (found : arena.state? id = some state) (ok : state.addEpsilon target = .ok changed) :
    arena.editAll (.addEpsilon id target :: rest) = (arena.put id changed).editAll rest :=
  editAll_update rfl found ok

theorem editAll_addSymbol {target : StateId} {c : Char} {changed : State} {rest : List Edit}
    (found : arena.state? id = some state) (ok : state.addSymbol c target = .ok changed) :
    arena.editAll (.addSymbol id target c :: rest) = (arena.put id changed).editAll rest :=
  editAll_update rfl found ok

theorem editAll_reject {rest : List Edit} (found : arena.state? id = some state) :
    arena.editAll (.reject id :: rest) = (arena.put id ⟨false, state.edges⟩).editAll rest := by
  have ok : State.reject state = .ok ⟨false, state.edges⟩ := rfl
  exact editAll_update rfl found ok

theorem editAll_edits_empty :
    arena.editAll (Rule.edits arena.size .empty) = (arena.extend .empty, none) := by
  simp only [Rule.edits]
  rw [editAll_create, editAll_create]
  rw [editAll_addEpsilon (state?_wrapped_size rfl) rfl, wrapped_put_size]
  rfl

theorem editAll_edits_symbol (c : Char) :
    arena.editAll (Rule.edits arena.size (.symbol c)) = (arena.extend (.symbol c), none) := by
  simp only [Rule.edits]
  rw [editAll_create, editAll_create]
  rw [editAll_addSymbol (state?_wrapped_size rfl) rfl, wrapped_put_size]
  rfl

theorem editAll_edits_concat {first second : Fragment}
    (opened : arena.state? first.exit = some ⟨true, .empty⟩) :
    arena.editAll (Rule.edits arena.size (.concat first second)) =
      (arena.extend (.concat first second), none) := by
  have below := lt_of_state? opened
  simp only [Rule.edits]
  rw [editAll_addEpsilon opened rfl]
  rw [editAll_reject (state?_put_self below), put_put]
  rfl

/-- The exit gets two edges before its flag is cleared, the one that leads out first. -/
theorem editAll_edits_closure {operand : Fragment}
    (opened : arena.state? operand.exit = some ⟨true, .empty⟩) :
    arena.editAll (Rule.edits arena.size (.closure operand)) =
      (arena.extend (.closure operand), none) := by
  have below := lt_of_state? opened
  have written {s t u : State} :
      (((arena.put operand.exit s).push t).push u).state? operand.exit = some s := by
    rw [state?_wrapped_of_lt (by simpa using below), state?_put_self below]
  simp only [Rule.edits]
  rw [editAll_create, editAll_create]
  rw [editAll_addEpsilon (state?_wrapped_size rfl) rfl, wrapped_put_size]
  rw [editAll_addEpsilon (state?_wrapped_size rfl) rfl, wrapped_put_size]
  rw [editAll_addEpsilon ((state?_wrapped_of_lt below).trans opened) rfl, wrapped_put_of_lt below]
  rw [editAll_addEpsilon written rfl, wrapped_put_of_lt (by simpa using below), put_put]
  rw [editAll_reject written, wrapped_put_of_lt (by simpa using below), put_put]
  rfl

/-- The first new state gets its edges before the second one is made. -/
theorem editAll_edits_union {first second : Fragment}
    (opened : arena.state? first.exit = some ⟨true, .empty⟩)
    (opened' : arena.state? second.exit = some ⟨true, .empty⟩) (apart : first.exit ≠ second.exit) :
    arena.editAll (Rule.edits arena.size (.union first second)) =
      (arena.extend (.union first second), none) := by
  have below := lt_of_state? opened
  have below' := lt_of_state? opened'
  have written {s t u : State} :
      (((arena.put first.exit s).push t).push u).state? first.exit = some s := by
    rw [state?_wrapped_of_lt (by simpa using below), state?_put_self below]
  have unwritten {s t u : State} :
      (((arena.put first.exit s).push t).push u).state? second.exit = some ⟨true, .empty⟩ := by
    rw [state?_wrapped_of_lt (by simpa using below'), state?_put_of_ne below apart, opened']
  have written' {s t u v : State} :
      ((((arena.put first.exit s).put second.exit v).push t).push u).state? second.exit =
        some v := by
    rw [state?_wrapped_of_lt (by simpa using below'), state?_put_self (by simpa using below')]
  simp only [Rule.edits]
  rw [editAll_create]
  rw [editAll_addEpsilon (state?_push_size rfl) rfl, push_put_size]
  rw [editAll_addEpsilon (state?_push_size rfl) rfl, push_put_size]
  rw [editAll_create]
  rw [editAll_addEpsilon ((state?_wrapped_of_lt below).trans opened) rfl, wrapped_put_of_lt below]
  rw [editAll_reject written, wrapped_put_of_lt (by simpa using below), put_put]
  rw [editAll_addEpsilon unwritten rfl, wrapped_put_of_lt (by simpa using below')]
  rw [editAll_reject written', wrapped_put_of_lt (by simpa using below'), put_put]
  rfl

/-- Operands that are apart and still open are never refused. -/
theorem build_eq {rule : Rule Fragment} (ready : arena.Ready rule) :
    arena.build rule = (arena.extend rule, .ok (rule.fragment arena.size)) := by
  have run : arena.editAll (rule.edits arena.size) = (arena.extend rule, none) := by
    cases rule with
    | empty => exact editAll_edits_empty
    | symbol c => exact editAll_edits_symbol c
    | concat first second => exact editAll_edits_concat (ready.opened first (by simp))
    | union first second =>
      exact editAll_edits_union (ready.opened first (by simp))
        (ready.opened second (by simp)) (by simpa using ready.distinct)
    | closure operand =>
      exact editAll_edits_closure (ready.opened operand (by simp))
  simp only [build, run]

@[simp] theorem size_extend (rule : Rule Fragment) :
    (arena.extend rule).size = arena.size + rule.created := by
  cases rule <;> simp [extend, Rule.created]

/-- A rule that makes states ends with a new exit. -/
theorem state?_extend_exit {rule : Rule Fragment} (h : rule.created = 2) :
    (arena.extend rule).state? (arena.size + 1) = some ⟨true, .empty⟩ := by
  cases rule with
  | empty => exact state?_wrapped_succ rfl
  | symbol c => exact state?_wrapped_succ rfl
  | concat first second => cases h
  | union first second => exact state?_wrapped_succ (by simp)
  | closure operand => exact state?_wrapped_succ (by simp)

theorem state?_extend_union_entry {first second : Fragment} :
    (arena.extend (.union first second)).state? arena.size =
      some ⟨false, .epsilon [first.entry, second.entry]⟩ :=
  state?_wrapped_size (by simp)

theorem state?_extend_union_first {first second : Fragment} (h : first.exit < arena.size)
    (h' : second.exit < arena.size) (apart : first.exit ≠ second.exit) :
    (arena.extend (.union first second)).state? first.exit =
      some ⟨false, .epsilon [arena.size + 1]⟩ := by
  simp only [extend]
  rw [state?_wrapped_of_lt (by simpa using h), state?_put_of_ne (by simpa using h') apart.symm,
    state?_put_self h]

theorem state?_extend_union_second (first : Fragment) {second : Fragment}
    (h : second.exit < arena.size) :
    (arena.extend (.union first second)).state? second.exit =
      some ⟨false, .epsilon [arena.size + 1]⟩ := by
  simp only [extend]
  rw [state?_wrapped_of_lt (by simpa using h), state?_put_self (by simpa using h)]

theorem state?_extend_closure_entry {operand : Fragment} :
    (arena.extend (.closure operand)).state? arena.size =
      some ⟨false, .epsilon [arena.size + 1, operand.entry]⟩ :=
  state?_wrapped_size (by simp)

/-- The exit of a closed operand leads where the new entry does, and in the same order. -/
theorem state?_extend_closure_exit {operand : Fragment} (h : operand.exit < arena.size) :
    (arena.extend (.closure operand)).state? operand.exit =
      some ⟨false, .epsilon [arena.size + 1, operand.entry]⟩ := by
  simp only [extend]
  rw [state?_wrapped_of_lt (by simpa using h), state?_put_self h]

/-- A rule writes to nothing but the exits of its operands. -/
theorem state?_extend_of_lt {rule : Rule Fragment} (ready : arena.Ready rule)
    (h : id < arena.size) (inner : ∀ fragment ∈ rule.operands, id ≠ fragment.exit) :
    (arena.extend rule).state? id = arena.state? id := by
  cases rule with
  | empty => exact state?_wrapped_of_lt h
  | symbol c => exact state?_wrapped_of_lt h
  | concat first second =>
    have opened := ready.opened first (by simp)
    exact state?_put_of_ne (lt_of_state? opened) (inner first (by simp)).symm
  | union first second =>
    have opened := ready.opened first (by simp)
    have opened' := ready.opened second (by simp)
    simp only [extend]
    rw [state?_wrapped_of_lt (by simpa using h),
      state?_put_of_ne (by simpa using lt_of_state? opened')
        (inner second (by simp)).symm,
      state?_put_of_ne (lt_of_state? opened) (inner first (by simp)).symm]
  | closure operand =>
    have opened := ready.opened operand (by simp)
    simp only [extend]
    rw [state?_wrapped_of_lt (by simpa using h),
      state?_put_of_ne (lt_of_state? opened) (inner operand (by simp)).symm]

end Arena

end Thompson
