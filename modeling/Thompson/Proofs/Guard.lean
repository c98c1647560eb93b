import Thompson.Proofs.Simulation

namespace Thompson

inductive Edges.Onward : Edges → Prop where
  | reads {labels : Labels} (some : labels.entries ≠ []) : Onward (labelled labels)
  | one (q : StateId) : Onward (epsilon [q])
  | two (q r : StateId) : Onward (epsilon [q, r])

theorem Edges.isBounded_iff {edges : Edges} : edges.isBounded ↔ edges.Onward := by
  constructor
  · intro h
    match edges with
    | labelled labels => exact .reads (by simpa [isBounded] using h)
    | epsilon [q] => exact .one q
    | epsilon [q, r] => exact .two q r
    | empty | epsilon [] => cases h
    | epsilon (_ :: _ :: _ :: _) => simp [isBounded] at h
  · intro h
    cases h with
    | reads some => simpa [isBounded] using some
    | one q => rfl
    | two q r => rfl

theorem Edges.Onward.exists_target {edges : Edges} (h : edges.Onward) : ∃ q, q ∈ edges.targets := by
  cases h with
  | reads some =>
    obtain ⟨entry, found⟩ := List.exists_mem_of_ne_nil _ some
    exact ⟨entry.2, List.mem_map.mpr ⟨entry, found, rfl⟩⟩
  | one q => exact ⟨q, List.mem_cons_self⟩
  | two q r => exact ⟨q, List.mem_cons_self⟩

/-- No symbol stands twice, so that each entry is the one that is looked up. -/
theorem Labels.get?_of_mem {labels : Labels} {c : Char} {q : StateId}
    (h : (c, q) ∈ labels.entries) : labels.get? c = some q := by
  obtain ⟨entries, ascending⟩ := labels
  change entries.lookup c = some q
  induction entries with
  | nil => cases h
  | cons entry rest ih =>
    obtain ⟨below, tail⟩ := List.pairwise_cons.mp ascending
    rw [lookup_cons_eq_ite]
    rcases List.mem_cons.mp h with rfl | later
    · exact if_pos rfl
    · have other : c ≠ entry.1 := fun same => Nat.lt_irrefl _ (same ▸ below _ later)
      rw [if_neg other]
      exact ih tail later

namespace Arena

variable {arena : Arena} {fragment : Fragment} {automaton : Automaton} {p q : StateId}

theorem Leads.exists_edge (h : arena.Leads State.targets p q) : ∃ label, arena.Edge p label q := by
  obtain ⟨⟨accepting, edges⟩, found, target⟩ := h
  cases edges with
  | empty => cases target
  | epsilon targets => exact ⟨none, .silent found target⟩
  | labelled labels =>
    obtain ⟨⟨c, _⟩, entry, rfl⟩ := List.mem_map.mp target
    exact ⟨some c, .labelled found (Labels.get?_of_mem entry)⟩

/-- What is reached is reached by reading some text. -/
theorem reaches_iff_exists_path :
    arena.Reaches State.targets p q ↔ ∃ text, arena.Path p text q := by
  constructor
  · intro h
    induction h using Relation.ReflTransGen.head_induction_on with
    | refl => exact ⟨[], .here⟩
    | head step _ ih =>
      obtain ⟨text, rest⟩ := ih
      obtain ⟨label, edge⟩ := step.exists_edge
      cases label with
      | none => exact ⟨text, .silent edge rest⟩
      | some c => exact ⟨c :: text, .read edge rest⟩
  · rintro ⟨text, path⟩
    exact path.reaches

/-- Without a cycle no finite set of places can be walked through for ever. -/
theorem wellFounded_of_acyclic {α : Type} [Finite α] {r : α → α → Prop}
    (acyclic : ∀ a, ¬Relation.TransGen r a a) :
    WellFounded fun a b => Relation.TransGen r b a := by
  have transitive : IsTrans α fun a b => Relation.TransGen r b a :=
    ⟨fun _ _ _ hab hbc => hbc.trans hab⟩
  have irreflexive : Std.Irrefl fun a b => Relation.TransGen r b a := ⟨acyclic⟩
  exact Finite.wellFounded_of_trans_of_irrefl _

/-- Who can always go on inside the arena comes round to some place again. -/
theorem exists_cycle (inside : ∀ q, arena.Reaches State.targets p q → q < arena.size)
    (onward : ∀ q, arena.Reaches State.targets p q → ∃ r, arena.Leads State.targets q r) :
    ∃ q, arena.Reaches State.targets p q ∧
      Relation.TransGen (arena.Leads State.targets) q q := by
  by_contra none
  have finite : Finite { q // arena.Reaches State.targets p q } :=
    Finite.of_injective (fun q => (⟨q.1, inside q.1 q.2⟩ : Fin arena.size))
      fun _ _ same => Subtype.ext (Fin.mk.inj same)
  have descends := wellFounded_of_acyclic
    (r := fun a b : { q // arena.Reaches State.targets p q } => arena.Leads State.targets a b)
    fun a cycle => none ⟨a.1, a.2, cycle.lift Subtype.val fun _ _ => id⟩
  -- There is no last place, since each one leads on.
  refine descends.induction (C := fun _ => False) ⟨p, .refl⟩ fun q ih => ?_
  obtain ⟨r, step⟩ := onward q.1 q.2
  exact ih ⟨r, q.2.tail step⟩ (.single step)

/-- An entry cut off from the exit comes round to some place, since what it reaches always goes
on. -/
theorem Sealed.exists_cycle_of_not_reaches (h : arena.Sealed fragment)
    (apart : ¬arena.Reaches State.targets fragment.entry fragment.exit) :
    ∃ q, arena.Reaches State.targets fragment.entry q ∧
      ¬arena.Reaches State.targets q fragment.exit ∧
      Relation.TransGen (arena.Leads State.targets) q q := by
  have inside (q : StateId) (hr : arena.Reaches State.targets fragment.entry q) :
      q < arena.size := by
    obtain ⟨state, found⟩ := h.state?_of_reaches hr
    exact lt_of_state? found
  have onward (q : StateId) (hr : arena.Reaches State.targets fragment.entry q) :
      ∃ r, arena.Leads State.targets q r := by
    have ne : q ≠ fragment.exit := fun he => apart (he ▸ hr)
    obtain ⟨state, found, _, bounded⟩ := h.reached q hr ne
    obtain ⟨r, target⟩ := (Edges.isBounded_iff.mp bounded).exists_target
    exact ⟨r, state, found, target⟩
  obtain ⟨q, hr, cycle⟩ := exists_cycle inside onward
  exact ⟨q, hr, fun later => apart (hr.trans later), cycle⟩

theorem Sealed.accepts_some_iff (h : arena.Sealed fragment) :
    (∃ text, (⟨arena, fragment.entry, fragment.exit⟩ : Automaton).accepts text = .ok true) ↔
      arena.Reaches State.targets fragment.entry fragment.exit := by
  rw [reaches_iff_exists_path]
  refine exists_congr fun text => ?_
  obtain ⟨answer, given, hiff⟩ := h.recognizes text
  rw [given, Except.ok.injEq]
  exact hiff

/-- In a finished automaton the exit accepts and has no edges, and all else that is reached does not
accept and goes on. Either the exit is reached as well, or some cycle is that does not lead there;
the first is so exactly if there are texts that are accepted. -/
theorem finish_guards (h : arena.finish fragment = .ok automaton) :
    automaton = ⟨arena, fragment.entry, fragment.exit⟩ ∧
    arena.state? fragment.exit = some ⟨true, .empty⟩ ∧
    (∀ q, arena.Reaches State.targets fragment.entry q → ∃ state, arena.state? q = some state ∧
      (state.accepting = true ↔ q = fragment.exit) ∧ (q ≠ fragment.exit → state.edges.Onward)) ∧
    ((∃ text, automaton.accepts text = .ok true) ↔
      arena.Reaches State.targets fragment.entry fragment.exit) ∧
    (arena.Reaches State.targets fragment.entry fragment.exit ∨
      ∃ q, arena.Reaches State.targets fragment.entry q ∧
        ¬arena.Reaches State.targets q fragment.exit ∧
        Relation.TransGen (arena.Leads State.targets) q q) := by
  obtain ⟨whole, rfl⟩ := finish_eq_ok_iff.mp h
  refine ⟨rfl, whole.exit, fun q hr => ?_, whole.accepts_some_iff, ?_⟩
  · by_cases he : q = fragment.exit
    · exact ⟨_, he ▸ whole.exit, by simp [he], fun ne => absurd he ne⟩
    · obtain ⟨state, found, rejecting, bounded⟩ := whole.reached q hr he
      exact ⟨state, found, by simp [rejecting, he], fun _ => Edges.isBounded_iff.mp bounded⟩
  · by_cases reached : arena.Reaches State.targets fragment.entry fragment.exit
    · exact .inl reached
    · exact .inr (whole.exists_cycle_of_not_reaches reached)

/-- A way back to the entry and an edge to nowhere aside do no harm, as long as the exit is
reached. -/
theorem finish_guards_entangled :
    entangled.finish ⟨0, 2⟩ = .ok ⟨entangled, 0, 2⟩ ∧
    (∀ q, entangled.Reaches State.targets 0 q → ∃ state, entangled.state? q = some state ∧
      (state.accepting = true ↔ q = 2) ∧ (q ≠ 2 → state.edges.Onward)) ∧
    entangled.Reaches State.targets 0 2 := by
  have read := (finish_eq_ok_iff.mp finish_entangled).1.accepts_of_path path_entangled_exit
  obtain ⟨_, _, shape, some, _⟩ := finish_guards finish_entangled
  exact ⟨finish_entangled, shape, some.mp ⟨_, read⟩⟩

/-- A silent move from the entry to itself, and an exit that nothing leads to. -/
def idleLoop : Arena :=
  (({} : Arena).editAll [.create false, .create true, .addEpsilon 0 0]).1

theorem eq_of_reaches_idleLoop (h : idleLoop.Reaches State.targets 0 q) : q = 0 := by
  induction h with
  | refl => rfl
  | tail _ step ih =>
    subst ih
    obtain ⟨state, found, target⟩ := step
    cases found
    exact List.mem_singleton.mp target

/-- To be finished, a fragment does not need an exit that is reached. -/
theorem finish_idleLoop : idleLoop.finish ⟨0, 1⟩ = .ok ⟨idleLoop, 0, 1⟩ ∧
    ¬idleLoop.Reaches State.targets 0 1 := by
  refine ⟨finish_of_listed [0] rfl (by simp) (by decide), fun reached => ?_⟩
  cases eq_of_reaches_idleLoop reached

end Arena

end Thompson
