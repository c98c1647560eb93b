import Mathlib.Computability.Language
import Thompson.Arena.Path
import Thompson.Automaton.Acceptance
import Thompson.Automaton.WellFormed
import Thompson.Proofs.Search

namespace Thompson

theorem except_ok_bind {ε α β : Type} (a : α) (f : α → Except ε β) :
    (Except.ok a >>= f) = f a :=
  rfl

theorem Labels.mem_targets_of_get? {labels : Labels} {c : Char} {q : StateId}
    (h : labels.get? c = some q) : q ∈ labels.targets := by
  obtain ⟨before, after, he, _⟩ := List.lookup_eq_some_iff.mp h
  simp [targets, he]

theorem Edges.mem_targets_of_next {edges : Edges} {c : Char} {q : StateId}
    (h : edges.next c = some q) : q ∈ edges.targets := by
  cases edges with
  | empty => cases h
  | labelled labels => exact Labels.mem_targets_of_get? h
  | epsilon targets => cases h

theorem Edges.mem_targets_of_epsilons {edges : Edges} {q : StateId} (h : q ∈ edges.epsilons) :
    q ∈ edges.targets := by
  cases edges with
  | empty => exact h
  | labelled labels => simp [epsilons] at h
  | epsilon targets => exact h

namespace Arena

variable {arena : Arena} {p q r : StateId} {w : List Char}

theorem Edge.leads {label : Option Char} (h : arena.Edge p label q) :
    arena.Leads State.targets p q := by
  cases h with
  | silent found target => exact ⟨_, found, Edges.mem_targets_of_epsilons target⟩
  | labelled found target => exact ⟨_, found, Edges.mem_targets_of_next target⟩

theorem leads_epsilons_iff : arena.Leads State.epsilons p q ↔ arena.Edge p none q := by
  constructor
  · intro given
    obtain ⟨state, found, target⟩ := given
    exact .silent found target
  · intro h
    cases h with
    | silent found target => exact ⟨_, found, target⟩

theorem Path.reaches (h : arena.Path p w q) : arena.Reaches State.targets p q := by
  induction h with
  | here => exact .refl
  | silent edge _ ih => exact .head edge.leads ih
  | read edge _ ih => exact .head edge.leads ih

theorem path_nil_iff : arena.Path p [] q ↔ arena.Reaches State.epsilons p q := by
  constructor
  · intro h
    generalize hw : ([] : List Char) = w at h
    induction h with
    | here => exact .refl
    | silent edge _ ih => exact .head (leads_epsilons_iff.mpr edge) (ih hw)
    | read => cases hw
  · intro h
    induction h using Relation.ReflTransGen.head_induction_on with
    | refl => exact .here
    | head hl _ ih => exact .silent (leads_epsilons_iff.mp hl) ih

/-- Silent moves come before the first symbol is read. -/
theorem path_cons_iff {c : Char} : arena.Path p (c :: w) r ↔
    ∃ q s, arena.Path p [] q ∧ arena.Edge q (some c) s ∧ arena.Path s w r := by
  constructor
  · intro h
    generalize hw : c :: w = text at h
    induction h with
    | here => cases hw
    | silent edge _ ih =>
      obtain ⟨q, s, before, step, after⟩ := ih hw
      exact ⟨q, s, .silent edge before, step, after⟩
    | read edge rest _ =>
      cases hw
      exact ⟨_, _, .here, edge, rest⟩
  · intro given
    obtain ⟨q, s, before, step, after⟩ := given
    exact before.append (.read step after)

end Arena

namespace Automaton

variable {automaton : Automaton} {p q : StateId}

theorem next_eq_some_iff {c : Char} :
    automaton.next c p = some q ↔ automaton.arena.Edge p (some c) q := by
  constructor
  · intro h
    obtain ⟨state, found, target⟩ := Option.bind_eq_some_iff.mp h
    exact .labelled found target
  · intro h
    cases h with
    | labelled found target => exact Option.bind_eq_some_iff.mpr ⟨_, found, target⟩

def Encloses (automaton : Automaton) (places : List StateId) : Prop :=
  ∀ p ∈ places, ∀ q, automaton.arena.Reaches State.targets p q → q < automaton.size

structure Settled (automaton : Automaton) (live : List StateId) : Prop where
  inside : automaton.Encloses live
  silent : ∀ p ∈ live, ∀ q, automaton.arena.Path p [] q → q ∈ live

/-- Silent moves from enclosed places end in enclosed places, and where they have all been made no
new place comes by making more. -/
theorem closure_spec {places : List StateId} (inside : automaton.Encloses places) :
    ∃ live, automaton.closure places = .ok live ∧ automaton.Settled live ∧
      ∀ q, q ∈ live ↔ ∃ p ∈ places, automaton.arena.Path p [] q := by
  have silent : ∀ p ∈ places, ∀ q, automaton.arena.Reaches State.epsilons p q →
      q < automaton.arena.size := by
    intro p hp q hr
    exact inside p hp q (Arena.path_nil_iff.mpr hr).reaches
  obtain ⟨live, hs⟩ := Arena.search_ok silent
  have hmem (q : StateId) : q ∈ live ↔ ∃ p ∈ places, automaton.arena.Path p [] q := by
    simp only [Arena.mem_search_iff hs, Arena.path_nil_iff]
  refine ⟨live, hs, ⟨?_, ?_⟩, hmem⟩
  · intro p hp q hr
    obtain ⟨p', hp', path⟩ := (hmem p).mp hp
    exact inside p' hp' q (path.reaches.trans hr)
  · intro p hp q path
    obtain ⟨p', hp', first⟩ := (hmem p).mp hp
    exact (hmem q).mpr ⟨p', hp', first.append path⟩

theorem read_nil (text : List Char) : automaton.read [] text = .ok [] := by
  cases text with
  | nil => rfl
  | cons c rest =>
    have nowhere : automaton.closure [] = .ok [] := by
      rw [closure, Arena.search, Arena.visit]
    simp only [read, List.filterMap_nil, nowhere, except_ok_bind]
    rfl

/-- To stop where no place is left comes to the same as to read on. -/
theorem read_cons {live : List StateId} {c : Char} {rest : List Char} :
    automaton.read live (c :: rest) =
      automaton.closure (live.filterMap (automaton.next c)) >>= (automaton.read · rest) := by
  cases hc : automaton.closure (live.filterMap (automaton.next c)) with
  | error fault =>
    simp only [read, hc]
    rfl
  | ok moved =>
    simp only [read, hc, except_ok_bind]
    split
    · rename_i gone
      rw [List.isEmpty_iff.mp gone, read_nil]
      rfl
    · rfl

/-- The places after a text are the ends of all paths that read it. -/
theorem read_spec {live : List StateId} (settled : automaton.Settled live) (text : List Char) :
    ∃ last, automaton.read live text = .ok last ∧
      ∀ q, q ∈ last ↔ ∃ p ∈ live, automaton.arena.Path p text q := by
  induction text generalizing live with
  | nil =>
    refine ⟨live, rfl, fun q => ⟨fun hq => ⟨q, hq, .here⟩, ?_⟩⟩
    intro given
    obtain ⟨p, hp, path⟩ := given
    exact settled.silent p hp q path
  | cons c rest ih =>
    have mem_moved {q : StateId} : q ∈ live.filterMap (automaton.next c) ↔
        ∃ p ∈ live, automaton.arena.Edge p (some c) q := by
      simp only [List.mem_filterMap, next_eq_some_iff]
    have moved : automaton.Encloses (live.filterMap (automaton.next c)) := by
      intro p hp q hr
      obtain ⟨p', hp', edge⟩ := mem_moved.mp hp
      exact settled.inside p' hp' q (.head edge.leads hr)
    obtain ⟨after, hc, hsettled, hmem⟩ := closure_spec moved
    obtain ⟨last, hread, hlast⟩ := ih hsettled
    refine ⟨last, ?_, fun q => (hlast q).trans ?_⟩
    · rw [read_cons, hc, except_ok_bind, hread]
    constructor
    · intro given
      obtain ⟨p, hp, path⟩ := given
      obtain ⟨s, hs, first⟩ := (hmem p).mp hp
      obtain ⟨p', hp', edge⟩ := mem_moved.mp hs
      exact ⟨p', hp', .read edge (first.append path)⟩
    · intro given
      obtain ⟨p, hp, path⟩ := given
      obtain ⟨q', s, before, step, path⟩ := Arena.path_cons_iff.mp path
      have hs := mem_moved.mpr ⟨q', settled.silent p hp q' before, step⟩
      exact ⟨s, (hmem s).mpr ⟨s, hs, .here⟩, path⟩

def live (automaton : Automaton) (text : List Char) : Except Fault (List StateId) := do
  automaton.read (← automaton.closure [automaton.entry]) text

theorem live_spec (inside : automaton.Encloses [automaton.entry]) (text : List Char) :
    ∃ places, automaton.live text = .ok places ∧
      ∀ q, q ∈ places ↔ automaton.arena.Path automaton.entry text q := by
  obtain ⟨start, hc, hsettled, hmem⟩ := closure_spec inside
  obtain ⟨last, hread, hlast⟩ := read_spec hsettled text
  refine ⟨last, by simp only [live, hc, except_ok_bind, hread], fun q => (hlast q).trans ?_⟩
  constructor
  · intro given
    obtain ⟨p, hp, path⟩ := given
    obtain ⟨p', hp', first⟩ := (hmem p).mp hp
    cases List.mem_singleton.mp hp'
    exact first.append path
  · intro path
    exact ⟨automaton.entry, (hmem _).mpr ⟨_, List.mem_singleton_self _, .here⟩, path⟩

theorem accepts_of_live {text : List Char} {places : List StateId}
    (h : automaton.live text = .ok places) :
    automaton.accepts text = .ok (places.any automaton.isAccepting) := by
  unfold live at h
  cases hc : automaton.closure [automaton.entry] with
  | error fault =>
    rw [hc] at h
    cases h
  | ok start =>
    rw [hc] at h
    simp only [accepts, hc, except_ok_bind] at h ⊢
    rw [h]
    rfl

/-- Without an edge out of the arena there is always an answer, and paths decide which. -/
theorem accepts_spec (inside : automaton.Encloses [automaton.entry]) (text : List Char) :
    ∃ answer, automaton.accepts text = .ok answer ∧
      (answer = true ↔
        ∃ q, automaton.arena.Path automaton.entry text q ∧ automaton.isAccepting q) := by
  obtain ⟨places, found, hmem⟩ := live_spec inside text
  refine ⟨_, accepts_of_live found, ?_⟩
  simp only [List.any_eq_true, hmem]

end Automaton

end Thompson
