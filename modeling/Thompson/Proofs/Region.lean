import Mathlib.Data.Set.Basic
import Thompson.Arena.Path

namespace Thompson.Arena

variable {arena grown : Arena} {p q r exit : StateId} {w : List Char} {region : Set StateId}

theorem Edge.of_state?_eq {label : Option Char} (h : arena.Edge p label q)
    (same : grown.state? p = arena.state? p) : grown.Edge p label q := by
  cases h with
  | silent found target => exact .silent (same.trans found) target
  | labelled found target => exact .labelled (same.trans found) target

theorem edge_iff_of_epsilon {accepting : Bool} {targets : List StateId} {label : Option Char}
    (found : arena.state? p = some ⟨accepting, .epsilon targets⟩) :
    arena.Edge p label q ↔ label = none ∧ q ∈ targets := by
  constructor
  · intro h
    cases h with
    | silent found' target =>
      cases Option.some.inj (found'.symm.trans found)
      exact ⟨rfl, target⟩
    | labelled found' target =>
      cases Option.some.inj (found'.symm.trans found)
      cases target
  · intro given
    obtain ⟨rfl, target⟩ := given
    exact .silent found target

theorem edge_iff_of_labelled {accepting : Bool} {labels : Labels} {label : Option Char}
    (found : arena.state? p = some ⟨accepting, .labelled labels⟩) :
    arena.Edge p label q ↔ ∃ c, label = some c ∧ labels.get? c = some q := by
  constructor
  · intro h
    cases h with
    | silent found' target =>
      cases Option.some.inj (found'.symm.trans found)
      cases target
    | labelled found' target =>
      cases Option.some.inj (found'.symm.trans found)
      exact ⟨_, rfl, target⟩
  · intro given
    obtain ⟨c, rfl, target⟩ := given
    exact .labelled found target

theorem not_edge_of_empty {accepting : Bool} {label : Option Char}
    (found : arena.state? p = some ⟨accepting, .empty⟩) : ¬arena.Edge p label q := by
  intro h
  cases h with
  | silent found' target =>
    cases Option.some.inj (found'.symm.trans found)
    cases target
  | labelled found' target =>
    cases Option.some.inj (found'.symm.trans found)
    cases target

theorem path_iff_of_empty {accepting : Bool} (found : arena.state? p = some ⟨accepting, .empty⟩) :
    arena.Path p w r ↔ p = r ∧ w = [] := by
  constructor
  · intro h
    cases h with
    | here => exact ⟨rfl, rfl⟩
    | silent edge _ => exact absurd edge (not_edge_of_empty found)
    | read edge _ => exact absurd edge (not_edge_of_empty found)
  · intro given
    obtain ⟨rfl, rfl⟩ := given
    exact .here

/-- From a state with silent moves alone, every path to elsewhere takes one of them first. -/
theorem path_iff_of_epsilon {accepting : Bool} {targets : List StateId} (ne : p ≠ r)
    (found : arena.state? p = some ⟨accepting, .epsilon targets⟩) :
    arena.Path p w r ↔ ∃ q ∈ targets, arena.Path q w r := by
  constructor
  · intro h
    cases h with
    | here => exact absurd rfl ne
    | silent edge rest => exact ⟨_, ((edge_iff_of_epsilon found).mp edge).2, rest⟩
    | read edge _ => cases ((edge_iff_of_epsilon found).mp edge).1
  · intro given
    obtain ⟨q, target, rest⟩ := given
    exact .silent (.silent found target) rest

def Closed (arena : Arena) (region : Set StateId) : Prop :=
  ∀ p ∈ region, ∀ label q, arena.Edge p label q → q ∈ region

theorem Closed.path_of_same (closed : arena.Closed region)
    (same : ∀ id ∈ region, grown.state? id = arena.state? id) (hp : p ∈ region)
    (h : arena.Path p w r) : grown.Path p w r := by
  induction h with
  | here => exact .here
  | silent edge _ ih => exact .silent (edge.of_state?_eq (same _ hp)) (ih (closed _ hp _ _ edge))
  | read edge _ ih => exact .read (edge.of_state?_eq (same _ hp)) (ih (closed _ hp _ _ edge))

theorem Closed.of_same (closed : arena.Closed region)
    (same : ∀ id ∈ region, grown.state? id = arena.state? id) : grown.Closed region :=
  fun p hp label q edge => closed p hp label q (edge.of_state?_eq (same p hp).symm)

/-- Changes outside a closed region do not change its paths. -/
theorem Closed.path_iff_of_same (closed : arena.Closed region)
    (same : ∀ id ∈ region, grown.state? id = arena.state? id) (hp : p ∈ region) :
    grown.Path p w r ↔ arena.Path p w r :=
  ⟨(closed.of_same same).path_of_same (fun id hid => (same id hid).symm) hp,
    closed.path_of_same same hp⟩

section Exit

variable (closed : arena.Closed region) (stop : ∀ label q, ¬arena.Edge exit label q)
  (same : ∀ id ∈ region, id ≠ exit → grown.state? id = arena.state? id)
include closed stop same

/-- Before the exit such a path does not meet the changed state. -/
theorem Closed.path_exit_of_same (hp : p ∈ region) (h : arena.Path p w exit) :
    grown.Path p w exit := by
  have inner {id q : StateId} {label : Option Char} (edge : arena.Edge id label q) : id ≠ exit :=
    fun he => stop label q (he ▸ edge)
  generalize hr : exit = r at h
  induction h with
  | here => exact .here
  | silent edge _ ih =>
    subst hr
    exact .silent (edge.of_state?_eq (same _ hp (inner edge))) (ih (closed _ hp _ _ edge) rfl)
  | read edge _ ih =>
    subst hr
    exact .read (edge.of_state?_eq (same _ hp (inner edge))) (ih (closed _ hp _ _ edge) rfl)

/-- The region can be left through its exit alone. -/
theorem Closed.path_leave_iff (hp : p ∈ region) (hr : r ∉ region) :
    grown.Path p w r ↔ ∃ u v, arena.Path p u exit ∧ grown.Path exit v r ∧ u ++ v = w := by
  constructor
  · intro h
    induction h with
    | here => exact absurd hp hr
    | silent edge rest ih =>
      rename_i id _ _ _
      by_cases he : id = exit
      · exact ⟨[], _, he ▸ .here, he ▸ .silent edge rest, rfl⟩
      · have old := edge.of_state?_eq (same _ hp he).symm
        obtain ⟨u, v, before, after, rfl⟩ := ih (closed _ hp _ _ old) hr
        exact ⟨u, v, .silent old before, after, rfl⟩
    | read edge rest ih =>
      rename_i id _ _ _ _
      by_cases he : id = exit
      · exact ⟨[], _, he ▸ .here, he ▸ .read edge rest, rfl⟩
      · have old := edge.of_state?_eq (same _ hp he).symm
        obtain ⟨u, v, before, after, rfl⟩ := ih (closed _ hp _ _ old) hr
        exact ⟨_ :: u, v, .read old before, after, rfl⟩
  · intro given
    obtain ⟨u, v, before, after, rfl⟩ := given
    exact (closed.path_exit_of_same stop same hp before).append after

end Exit

end Thompson.Arena
