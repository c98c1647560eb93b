import Mathlib.Data.Set.Function
import Thompson.Proofs.Trim

namespace Thompson

namespace Labels

def rename (place : StateId → StateId) (labels : Labels) : Labels :=
  ⟨labels.entries.map fun entry => (entry.1, place entry.2),
    labels.ascending.map _ fun _ _ below => below⟩

end Labels

def Edges.rename (place : StateId → StateId) : Edges → Edges
  | empty => empty
  | labelled labels => labelled (labels.rename place)
  | epsilon targets => epsilon (targets.map place)

def Fragment.rename (place : StateId → StateId) (fragment : Fragment) : Fragment :=
  ⟨place fragment.entry, place fragment.exit⟩

namespace State

variable {state : State} {place more : StateId → StateId}

def rename (place : StateId → StateId) (state : State) : State :=
  { state with edges := state.edges.rename place }

@[simp] theorem targets_rename : (state.rename place).targets = state.targets.map place := by
  obtain ⟨accepting, edges⟩ := state
  cases edges <;> simp [rename, Edges.rename, targets, Edges.targets, Labels.rename, Labels.targets]

@[simp] theorem rename_rename : (state.rename place).rename more = state.rename (more ∘ place) := by
  obtain ⟨accepting, edges⟩ := state
  cases edges <;> simp [rename, Edges.rename, Labels.rename]

theorem rename_congr (same : ∀ q ∈ state.targets, place q = more q) :
    state.rename place = state.rename more := by
  obtain ⟨accepting, edges⟩ := state
  cases edges with
  | empty => rfl
  | epsilon targets =>
    have moved : targets.map place = targets.map more := List.map_congr_left same
    simp only [rename, Edges.rename, moved]
  | labelled labels =>
    have moved : labels.rename place = labels.rename more :=
      Labels.ext_entries <| List.map_congr_left fun entry found =>
        congrArg _ (same entry.2 (List.mem_map.mpr ⟨entry, found, rfl⟩))
    simp only [rename, Edges.rename, moved]

theorem shift_eq_rename (n : Nat) (state : State) : state.shift n = state.rename (· + n) := by
  obtain ⟨accepting, edges⟩ := state
  cases edges <;> rfl

end State

namespace Automaton

/-- The automaton that is left if there are no states but those that are reached, numbered in the
order in which the search lists them. -/
def renumbered (automaton : Automaton) : Except Fault Automaton := do
  let places ← automaton.reachable
  let states ← places.mapM automaton.arena.fetch
  return ⟨⟨(states.map (State.rename (places.idxOf ·))).toArray⟩, places.idxOf automaton.entry,
    places.idxOf automaton.exit⟩

end Automaton

namespace Arena

structure Copies (arena block : Arena) (place : StateId → StateId) : Prop where
  apart : Set.InjOn place {id | id < block.size}
  same : ∀ id < block.size, arena.state? (place id) = (block.state? id).map (State.rename place)

variable {arena block : Arena} {place : StateId → StateId} {id : StateId} {state : State}

theorem Copies.state? (h : arena.Copies block place) (found : block.state? id = some state) :
    arena.state? (place id) = some (state.rename place) := by
  rw [h.same id (lt_of_state? found), found]
  rfl

theorem Copies.lt (h : arena.Copies block place) (inside : id < block.size) :
    place id < arena.size :=
  lt_of_state? (h.state? (state?_of_lt inside))

/-- A search of the copy goes the way of the search of the block. -/
theorem Copies.visit_map (h : arena.Copies block place) (inner : block.LeadsBelow block.size)
    {pending places : List StateId} {seen : Vector Bool block.states.size}
    {seen' : Vector Bool arena.states.size}
    (marks : ∀ p < block.size, Marked seen' (place p) ↔ Marked seen p)
    (found : block.visit State.targets pending seen = .ok places) :
    arena.visit State.targets (pending.map place) seen' = .ok (places.map place) := by
  fun_induction block.visit State.targets pending seen generalizing places seen' with
  | case1 =>
    cases found
    rw [List.map_nil, visit]
  | case2 => cases found
  | case3 seen id rest hid unseen targets _ =>
    rename_i ih
    cases hv : block.visit State.targets (targets ++ rest) (seen.set id true) with
    | error fault => rw [hv] at found; cases found
    | ok later =>
      rw [hv] at found
      cases found
      have at_id := state?_of_lt hid
      have below (q : StateId) (target : q ∈ targets) : q < block.size := inner id _ at_id q target
      have fresh : ¬Marked seen' (place id) := fun marked => unseen ((marks id hid).mp marked).2
      have inside (q : StateId) (target : q ∈ (block.states[id].rename place).targets) :
          q < arena.size := by
        rw [State.targets_rename] at target
        obtain ⟨r, source, rfl⟩ := List.mem_map.mp target
        exact h.lt (below r source)
      have hid' : place id < arena.states.size := h.lt hid
      -- Both searches mark what they list next, and different places of the block stay different.
      have marks' (p : StateId) (hp : p < block.size) :
          Marked (seen'.set (place id) true hid') (place p) ↔ Marked (seen.set id true hid) p := by
        rw [marked_set_iff hid', marked_set_iff hid, marks p hp, h.apart.eq_iff hp hid]
      rw [List.map_cons, visit_cons_of_fresh (h.state? at_id) fresh inside, State.targets_rename,
        ← List.map_append, ih marks' hv]
      rfl
  | case4 seen id rest hid again ih =>
    have marked : Marked seen' (place id) := (marks id hid).mpr ⟨hid, by simpa using again⟩
    rw [List.map_cons, visit_cons_of_marked marked]
    exact ih marks found
  | case5 => cases found

/-- Fetching the copies of states gives the states with their targets renamed. -/
theorem Copies.mapM_fetch (h : arena.Copies block place) {places : List StateId}
    (inside : ∀ p ∈ places, p < block.size) :
    ∃ states, places.mapM block.fetch = .ok states ∧
      (places.map place).mapM arena.fetch = .ok (states.map (State.rename place)) ∧
      ∀ state ∈ states, ∃ id, block.state? id = some state := by
  induction places with
  | nil => exact ⟨[], rfl, rfl, by simp⟩
  | cons p rest ih =>
    obtain ⟨states, read, read', known⟩ := ih fun q later => inside q (List.mem_cons_of_mem _ later)
    obtain ⟨state, found⟩ : ∃ state, block.state? p = some state :=
      ⟨_, state?_of_lt (inside p List.mem_cons_self)⟩
    refine ⟨state :: states, ?_, ?_, ?_⟩
    · simp only [List.mapM_cons, fetch, found, read, except_ok_bind]
      rfl
    · simp only [List.map_cons, List.mapM_cons, fetch, h.state? found, read', except_ok_bind]
      rfl
    · simpa using ⟨⟨p, found⟩, known⟩

/-- Where a place stands in a list does not depend on the names of the places. -/
theorem Copies.idxOf_map (h : arena.Copies block place) {places : List StateId} {q : StateId}
    (inside : ∀ p ∈ places, p < block.size) (hq : q < block.size) :
    (places.map place).idxOf (place q) = places.idxOf q := by
  induction places with
  | nil => rfl
  | cons p rest ih =>
    have same : place p = place q ↔ p = q := h.apart.eq_iff (inside p List.mem_cons_self) hq
    have first : (place p == place q) = (p == q) :=
      Bool.eq_iff_iff.mpr (by rw [beq_iff_eq, beq_iff_eq, same])
    have later := ih fun r hr => inside r (List.mem_cons_of_mem _ hr)
    rw [List.map_cons, List.idxOf_cons, List.idxOf_cons, first, later]

end Arena

namespace Automaton

variable {block : Automaton} {arena : Arena} {place : StateId → StateId}

/-- All copies of a block become the same automaton. -/
theorem Compact.renumbered_of_copies (compact : block.Compact) (h : arena.Copies block.arena place) :
    ∃ whole, block.renumbered = .ok whole ∧
      (⟨arena, place block.entry, place block.exit⟩ : Automaton).renumbered = .ok whole := by
  obtain ⟨places, found⟩ := Arena.search_ok compact.encloses_entry
  have inside (p : StateId) (hp : p ∈ places) : p < block.arena.size := Arena.lt_of_mem_visit found hp
  have found' : arena.search State.targets [place block.entry] = .ok (places.map place) :=
    h.visit_map compact.inner
      (fun p _ => iff_of_false (Arena.not_marked_replicate _) (Arena.not_marked_replicate _)) found
  obtain ⟨states, read, read', known⟩ := h.mapM_fetch inside
  have index {q : StateId} (hq : q < block.arena.size) := h.idxOf_map inside hq
  -- The targets of a listed state are places of the block, so that they have their numbers there too.
  have renamed : (states.map (State.rename place)).map (State.rename ((places.map place).idxOf ·)) =
      states.map (State.rename (places.idxOf ·)) := by
    rw [List.map_map]
    refine List.map_congr_left fun state hs => ?_
    obtain ⟨id, found⟩ := known state hs
    exact State.rename_rename.trans
      (State.rename_congr fun q target => index (compact.inner id state found q target))
  refine ⟨⟨⟨(states.map (State.rename (places.idxOf ·))).toArray⟩, places.idxOf block.entry,
    places.idxOf block.exit⟩, ?_, ?_⟩
  · simp only [renumbered, reachable_eq_search, found, read, except_ok_bind]
    rfl
  · simp only [renumbered, reachable_eq_search, found', read', except_ok_bind]
    rw [index compact.entry_lt_size, index compact.exit.exit_lt, renamed]
    rfl

end Automaton

end Thompson
