import Mathlib.Logic.Relation
import Thompson.Arena.Search

namespace Thompson.Arena

def Leads (arena : Arena) (next : State → List StateId) (p q : StateId) : Prop :=
  ∃ state, arena.state? p = some state ∧ q ∈ next state

abbrev Reaches (arena : Arena) (next : State → List StateId) : StateId → StateId → Prop :=
  Relation.ReflTransGen (arena.Leads next)

def Marked {n : Nat} (seen : Vector Bool n) (p : StateId) : Prop :=
  ∃ h : p < n, seen[p] = true

variable {arena : Arena} {next : State → List StateId} {p q : StateId}

theorem state?_of_lt (h : p < arena.states.size) : arena.state? p = some arena.states[p] :=
  Array.getElem?_eq_getElem h

theorem lt_of_state? {state : State} (h : arena.state? p = some state) : p < arena.size :=
  (Array.getElem?_eq_some_iff.mp h).1

theorem leads_iff (h : p < arena.states.size) :
    arena.Leads next p q ↔ q ∈ next arena.states[p] := by
  simp [Leads, state?_of_lt h]

theorem marked_set_iff {n id : Nat} {seen : Vector Bool n} (h : id < n) :
    Marked (seen.set id true) p ↔ p = id ∨ Marked seen p := by
  constructor
  · intro given
    obtain ⟨hp, hm⟩ := given
    rw [Vector.getElem_set] at hm
    split at hm
    · rename_i he
      exact .inl he.symm
    · exact .inr ⟨hp, hm⟩
  · intro given
    rcases given with rfl | ⟨hp, hm⟩
    · exact ⟨h, by simp⟩
    · refine ⟨hp, ?_⟩
      rw [Vector.getElem_set]
      split
      · rfl
      · exact hm

theorem marked_iff {n : Nat} {seen : Vector Bool n} : Marked seen p ↔ seen[p]? = some true :=
  Vector.getElem?_eq_some_iff.symm

theorem not_marked_replicate (n : Nat) : ¬Marked (.replicate n false) p := by
  intro given
  obtain ⟨hp, hm⟩ := given
  simp at hm

section Visit

variable {pending places rest : List StateId} {seen : Vector Bool arena.states.size}

theorem visit_cons_of_marked (marked : Marked seen p) :
    arena.visit next (p :: rest) seen = arena.visit next rest seen := by
  obtain ⟨inside, marked⟩ := marked
  rw [visit, dif_pos inside, dif_neg (not_not_intro marked)]

/-- A place that is taken off unmarked is listed, and its targets wait before all others. -/
theorem visit_cons_of_fresh {state : State} (found : arena.state? p = some state)
    (fresh : ¬Marked seen p) (inside : ∀ q ∈ next state, q < arena.size) :
    arena.visit next (p :: rest) seen =
      (arena.visit next (next state ++ rest) (seen.set p true (lt_of_state? found))).map (p :: ·) := by
  have below : p < arena.states.size := lt_of_state? found
  have read : arena.states[p] = state :=
    Option.some.inj ((state?_of_lt below).symm.trans found)
  have none : (next state).reverse.find? (arena.size ≤ ·) = none := by
    simpa using inside
  rw [visit, dif_pos below, dif_pos fun marked => fresh ⟨below, marked⟩]
  simp only [read, none]

/-- Nothing is listed that no pending place leads to. -/
theorem reaches_of_mem_visit (h : arena.visit next pending seen = .ok places) (hq : q ∈ places) :
    ∃ p ∈ pending, arena.Reaches next p q := by
  fun_induction arena.visit next pending seen generalizing places with
  | case1 => cases h; simp at hq
  | case2 => cases h
  | case3 seen id rest hid unseen targets _ =>
    rename_i ih
    cases hv : arena.visit next (targets ++ rest) (seen.set id true) with
    | error fault => rw [hv] at h; cases h
    | ok found =>
      rw [hv] at h
      cases h
      rcases List.mem_cons.mp hq with rfl | hq
      · exact ⟨q, List.mem_cons_self, .refl⟩
      · obtain ⟨p, hp, hr⟩ := ih hv hq
        rcases List.mem_append.mp hp with ht | hp
        · exact ⟨id, List.mem_cons_self, .head ((leads_iff hid).mpr ht) hr⟩
        · exact ⟨p, List.mem_cons_of_mem _ hp, hr⟩
  | case4 seen id rest hid _ ih =>
    obtain ⟨p, hp, hr⟩ := ih h hq
    exact ⟨p, List.mem_cons_of_mem _ hp, hr⟩
  | case5 => cases h

/-- What is marked in the end holds the pending places and is closed under the edges. -/
theorem visit_closed (h : arena.visit next pending seen = .ok places) :
    (∀ p ∈ pending, Marked seen p ∨ p ∈ places) ∧
      ∀ p ∈ places, ∀ q, arena.Leads next p q → Marked seen q ∨ q ∈ places := by
  fun_induction arena.visit next pending seen generalizing places with
  | case1 => cases h; simp
  | case2 => cases h
  | case3 seen id rest hid unseen targets _ =>
    rename_i ih
    cases hv : arena.visit next (targets ++ rest) (seen.set id true) with
    | error fault => rw [hv] at h; cases h
    | ok found =>
      rw [hv] at h
      cases h
      obtain ⟨started, closed⟩ := ih hv
      simp only [marked_set_iff hid] at started closed
      have kept {p : StateId} (hp : (p = id ∨ Marked seen p) ∨ p ∈ found) :
          Marked seen p ∨ p ∈ id :: found := by
        rcases hp with (rfl | hm) | hf
        · exact .inr List.mem_cons_self
        · exact .inl hm
        · exact .inr (List.mem_cons_of_mem _ hf)
      constructor
      · intro p hp
        rcases List.mem_cons.mp hp with rfl | hp
        · exact .inr List.mem_cons_self
        · exact kept (started p (List.mem_append_right _ hp))
      · intro p hp q hl
        rcases List.mem_cons.mp hp with rfl | hp
        · exact kept (started q (List.mem_append_left _ ((leads_iff hid).mp hl)))
        · exact kept (closed p hp q hl)
  | case4 seen id rest hid again ih =>
    obtain ⟨started, closed⟩ := ih h
    refine ⟨fun p hp => ?_, closed⟩
    rcases List.mem_cons.mp hp with rfl | hp
    · exact .inl ⟨hid, by simpa using again⟩
    · exact started p hp
  | case5 => cases h

/-- What is listed is in the arena, since a place outside it ends the search. -/
theorem lt_of_mem_visit (h : arena.visit next pending seen = .ok places) (hq : q ∈ places) :
    q < arena.size := by
  fun_induction arena.visit next pending seen generalizing places with
  | case1 => cases h; simp at hq
  | case2 => cases h
  | case3 seen id rest hid unseen targets _ =>
    rename_i ih
    cases hv : arena.visit next (targets ++ rest) (seen.set id true) with
    | error fault => rw [hv] at h; cases h
    | ok found =>
      rw [hv] at h
      cases h
      rcases List.mem_cons.mp hq with rfl | hq
      · exact hid
      · exact ih hv hq
  | case4 _ _ _ _ _ ih => exact ih h hq
  | case5 => cases h

/-- No place is listed twice, since it is marked when it is listed. -/
theorem nodup_visit (h : arena.visit next pending seen = .ok places) :
    places.Nodup ∧ ∀ p ∈ places, ¬Marked seen p := by
  fun_induction arena.visit next pending seen generalizing places with
  | case1 => cases h; simp
  | case2 => cases h
  | case3 seen id rest hid unseen targets _ =>
    rename_i ih
    cases hv : arena.visit next (targets ++ rest) (seen.set id true) with
    | error fault => rw [hv] at h; cases h
    | ok found =>
      rw [hv] at h
      cases h
      obtain ⟨once, fresh⟩ := ih hv
      simp only [marked_set_iff hid, not_or] at fresh
      refine ⟨List.nodup_cons.mpr ⟨fun hf => (fresh id hf).1 rfl, once⟩, fun p hp => ?_⟩
      rcases List.mem_cons.mp hp with rfl | hp
      · exact fun ⟨_, marked⟩ => unseen marked
      · exact (fresh p hp).2
  | case4 _ _ _ _ _ ih => exact ih h
  | case5 => cases h

/-- A search that stays inside the arena meets no fault. -/
theorem visit_ok (inside : ∀ p ∈ pending, ∀ q, arena.Reaches next p q → q < arena.size) :
    ∃ places, arena.visit next pending seen = .ok places := by
  fun_induction arena.visit next pending seen with
  | case1 => exact ⟨[], rfl⟩
  | case2 seen id rest hid unseen targets missing hm =>
    have ht : missing ∈ targets := List.mem_reverse.mp (List.mem_of_find?_eq_some hm)
    have outside : arena.size ≤ missing := by simpa using List.find?_some hm
    have within := inside id List.mem_cons_self missing (.single ((leads_iff hid).mpr ht))
    exact absurd within (Nat.not_lt.mpr outside)
  | case3 seen id rest hid unseen targets _ =>
    rename_i ih
    have further : ∀ p ∈ targets ++ rest, ∀ q, arena.Reaches next p q → q < arena.size := by
      intro p hp q hr
      rcases List.mem_append.mp hp with ht | hp
      · exact inside id List.mem_cons_self q (.head ((leads_iff hid).mpr ht) hr)
      · exact inside p (List.mem_cons_of_mem _ hp) q hr
    obtain ⟨places, hv⟩ := ih further
    exact ⟨id :: places, by rw [hv]; rfl⟩
  | case4 seen id rest _ _ ih => exact ih fun p hp => inside p (List.mem_cons_of_mem _ hp)
  | case5 seen id rest hid => exact absurd (inside id List.mem_cons_self id .refl) hid

inductive Thinned {n : Nat} (seen : Vector Bool n) : List StateId → List StateId → Prop where
  | nil : Thinned seen [] []
  | keep {id : StateId} {kept pending : List StateId} (tail : Thinned seen kept pending) :
    Thinned seen (id :: kept) (id :: pending)
  | drop {id : StateId} {kept pending : List StateId} (marked : Marked seen id)
    (tail : Thinned seen kept pending) : Thinned seen kept (id :: pending)

namespace Thinned

variable {n : Nat} {seen later : Vector Bool n} {kept : List StateId}

theorem refl : (pending : List StateId) → Thinned seen pending pending
  | [] => .nil
  | _ :: pending => .keep (refl pending)

theorem mono (h : Thinned seen kept pending) (more : ∀ p, Marked seen p → Marked later p) :
    Thinned later kept pending := by
  induction h with
  | nil => exact .nil
  | keep _ ih => exact .keep ih
  | drop marked _ ih => exact .drop (more _ marked) ih

theorem append_left (front : List StateId) (h : Thinned seen kept pending) :
    Thinned seen (front ++ kept) (front ++ pending) := by
  induction front with
  | nil => exact h
  | cons id front ih => exact .keep ih

theorem filter_append (front rest : List StateId) :
    Thinned seen (front.filter (seen[·]? ≠ some true) ++ rest) (front ++ rest) := by
  induction front with
  | nil => exact refl rest
  | cons id front ih =>
    by_cases marked : seen[id]? = some true
    · rw [List.filter_cons_of_neg (by simpa using marked)]
      exact .drop (marked_iff.mpr marked) ih
    · rw [List.filter_cons_of_pos (by simpa using marked)]
      exact .keep ih

end Thinned

/-- A place that is marked can be left out of those that wait: it would be passed over. -/
theorem visit_thinned {kept : List StateId} {seen : Vector Bool arena.states.size}
    (h : Thinned seen kept pending) : arena.visit next kept seen = arena.visit next pending seen := by
  fun_induction arena.visit next pending seen generalizing kept with
  | case1 => cases h; rw [visit]
  | case2 seen id rest hid unseen targets missing =>
    rename_i hm
    cases h with
    | keep tail =>
      rw [visit, dif_pos hid, dif_pos unseen]
      simp only [targets] at hm
      simp only [hm]
    | drop marked _ => exact absurd marked.2 unseen
  | case3 seen id rest hid unseen targets hn =>
    rename_i ih
    cases h with
    | keep tail =>
      -- One more place is marked now, so that all that was left out may still be left out.
      have wider := tail.mono fun p => (marked_set_iff hid).mpr ∘ .inr
      rw [visit, dif_pos hid, dif_pos unseen]
      simp only [targets] at hn ih
      simp only [hn, ih (wider.append_left _), targets]
    | drop marked _ => exact absurd marked.2 unseen
  | case4 seen id rest hid again ih =>
    cases h with
    | keep tail => rw [visit, dif_pos hid, dif_neg again, ih tail]
    | drop _ tail => exact ih tail
  | case5 seen id rest hid =>
    cases h with
    | keep => rw [visit, dif_neg hid]
    | drop marked _ => exact absurd marked.1 hid

/-- The test of the targets changes nothing, not even a fault: what it keeps from waiting would be
passed over later. -/
theorem visitFresh_eq_visit (next : State → List StateId) (pending : List StateId)
    (seen : Vector Bool arena.states.size) :
    arena.visitFresh next pending seen = arena.visit next pending seen := by
  fun_induction arena.visitFresh next pending seen with
  | case1 => rw [visit]
  | case2 seen id rest hid unseen targets missing hm =>
    rw [visit, dif_pos hid, dif_pos unseen]
    simp only [targets] at hm
    simp only [hm]
  | case3 seen id rest hid unseen targets later hn fresh ih =>
    rw [visit, dif_pos hid, dif_pos unseen, ih, visit_thinned (.filter_append targets rest)]
    simp only [targets] at hn
    simp only [hn, targets, later]
  | case4 seen id rest hid again ih => rw [visit, dif_pos hid, dif_neg again, ih]
  | case5 seen id rest hid => rw [visit, dif_neg hid]

end Visit

theorem search_ok {roots : List StateId}
    (inside : ∀ p ∈ roots, ∀ q, arena.Reaches next p q → q < arena.size) :
    ∃ places, arena.search next roots = .ok places :=
  visit_ok inside

/-- The marks hold the roots and are closed, so that a place that is reached cannot be missing. -/
theorem mem_search_iff {roots places : List StateId}
    (h : arena.search next roots = .ok places) :
    q ∈ places ↔ ∃ p ∈ roots, arena.Reaches next p q := by
  refine ⟨reaches_of_mem_visit h, ?_⟩
  intro given
  obtain ⟨p, hp, hr⟩ := given
  obtain ⟨started, closed⟩ := visit_closed h
  induction hr with
  | refl => exact (started p hp).resolve_left (not_marked_replicate _)
  | tail _ hl ih => exact (closed _ ih _ hl).resolve_left (not_marked_replicate _)

theorem nodup_search {roots places : List StateId} (h : arena.search next roots = .ok places) :
    places.Nodup :=
  (nodup_visit h).1

/-- A search meets a fault just if something that is reached is not there. -/
theorem search_ok_iff {roots : List StateId} :
    (∃ places, arena.search next roots = .ok places) ↔
      ∀ p ∈ roots, ∀ q, arena.Reaches next p q → q < arena.size := by
  refine ⟨?_, search_ok⟩
  rintro ⟨places, h⟩ p hp q hr
  exact lt_of_mem_visit h ((mem_search_iff h).mpr ⟨p, hp, hr⟩)

end Thompson.Arena
