import Mathlib.Data.List.Pairwise
import Thompson.Proofs.Build
import Thompson.Proofs.Finish
import Thompson.Proofs.Region

namespace Thompson

open scoped Computability

def Rule.language : Rule (Language Char) → Language Char
  | empty => 1
  | symbol c => {[c]}
  | concat first second => first * second
  | union first second => first + second
  | closure operand => operand∗

structure State.GoesOn (state : State) (region : Set StateId) : Prop where
  rejecting : state.accepting = false
  bounded : state.edges.isBounded
  within : ∀ q ∈ state.targets, q ∈ region

theorem State.GoesOn.mono {state : State} {region wider : Set StateId} (h : state.GoesOn region)
    (le : region ⊆ wider) : state.GoesOn wider :=
  ⟨h.rejecting, h.bounded, fun q hq => le (h.within q hq)⟩

/-- A fragment, the states that belong to it and the texts that it reads. -/
structure Part where
  fragment : Fragment
  region : Set StateId
  language : Language Char

namespace Part

structure Intact (part : Part) (arena : Arena) : Prop where
  entry_mem : part.fragment.entry ∈ part.region
  exit_mem : part.fragment.exit ∈ part.region
  exit : arena.state? part.fragment.exit = some ⟨true, .empty⟩
  inner : ∀ id ∈ part.region, id ≠ part.fragment.exit →
    ∃ state, arena.state? id = some state ∧ state.GoesOn part.region
  reads : ∀ text, arena.Path part.fragment.entry text part.fragment.exit ↔ text ∈ part.language

variable {arena grown : Arena} {part : Part}

theorem Intact.lt_of_mem (h : part.Intact arena) {id : StateId} (hid : id ∈ part.region) :
    id < arena.size := by
  by_cases he : id = part.fragment.exit
  · exact he ▸ Arena.lt_of_state? h.exit
  · obtain ⟨state, found, _⟩ := h.inner id hid he
    exact Arena.lt_of_state? found

theorem Intact.stop (h : part.Intact arena) :
    ∀ label q, ¬arena.Edge part.fragment.exit label q :=
  fun _ _ => Arena.not_edge_of_empty h.exit

theorem Intact.mem_of_leads (h : part.Intact arena) {p q : StateId} (hp : p ∈ part.region)
    (hl : arena.Leads State.targets p q) : q ∈ part.region := by
  obtain ⟨state, found, target⟩ := hl
  by_cases he : p = part.fragment.exit
  · cases Option.some.inj (found.symm.trans (he ▸ h.exit))
    simp [State.targets, Edges.targets] at target
  · obtain ⟨state', found', goes⟩ := h.inner p hp he
    cases Option.some.inj (found.symm.trans found')
    exact goes.within q target

theorem Intact.closed (h : part.Intact arena) : arena.Closed part.region :=
  fun _ hp _ _ edge => h.mem_of_leads hp edge.leads

/-- An intact part has the shape that is looked for when it is finished. -/
theorem Intact.sealed (h : part.Intact arena) : arena.Sealed part.fragment := by
  refine ⟨h.exit, fun q hr => ?_⟩
  have hq : q ∈ part.region := by
    induction hr with
    | refl => exact h.entry_mem
    | tail _ hl ih => exact h.mem_of_leads ih hl
  intro hne
  obtain ⟨state, found, goes⟩ := h.inner q hq hne
  exact ⟨state, found, goes.rejecting, goes.bounded⟩

theorem Intact.recognizes (h : part.Intact arena) :
    (⟨arena, part.fragment.entry, part.fragment.exit⟩ : Automaton).Recognizes part.language := by
  intro text
  obtain ⟨answer, ha, hiff⟩ := h.sealed.recognizes text
  exact ⟨answer, ha, hiff.trans (h.reads text)⟩

/-- A part does not notice what happens outside its region. -/
theorem Intact.of_same (h : part.Intact arena)
    (same : ∀ id ∈ part.region, grown.state? id = arena.state? id) : part.Intact grown where
  entry_mem := h.entry_mem
  exit_mem := h.exit_mem
  exit := (same _ h.exit_mem).trans h.exit
  inner := by
    intro id hid ne
    obtain ⟨state, found, goes⟩ := h.inner id hid ne
    exact ⟨state, (same id hid).trans found, goes⟩
  reads text := (h.closed.path_iff_of_same same h.entry_mem).trans (h.reads text)

def Apart (a b : Part) : Prop :=
  ∀ id ∈ a.region, id ∉ b.region

instance : Std.Symm Apart :=
  ⟨fun _ _ h id hb ha => h id ha hb⟩

theorem Apart.not_mem {a b : Part} (h : a.Apart b) {id : StateId} (ha : id ∈ a.region) :
    id ∉ b.region :=
  h id ha

def ofRule (size : Nat) (rule : Rule Part) : Part where
  fragment := (rule.map fragment).fragment size
  region := {id | (∃ operand ∈ rule.operands, id ∈ operand.region) ∨
    size ≤ id ∧ id < size + rule.created}
  language := (rule.map language).language

structure Composable (arena : Arena) (rule : Rule Part) : Prop where
  intact : ∀ operand ∈ rule.operands, operand.Intact arena
  apart : rule.operands.Pairwise Apart

variable {rule : Rule Part}

/-- Intact operands have open exits, and those of parts that are apart are different. -/
theorem Composable.ready (h : Composable arena rule) : arena.Ready (rule.map fragment) := by
  constructor
  · intro f hf
    rw [Rule.operands_map] at hf
    obtain ⟨operand, ho, rfl⟩ := List.mem_map.mp hf
    exact (h.intact operand ho).exit
  · rw [Rule.operands_map, List.map_map]
    refine List.Pairwise.map _ ?_ (List.Pairwise.and_mem.mp h.apart)
    rintro a b ⟨ha, hb, hd⟩ (he : a.fragment.exit = b.fragment.exit)
    exact hd.not_mem (h.intact a ha).exit_mem (he ▸ (h.intact b hb).exit_mem)

/-- A rule does not write to parts that its operands do not meet. -/
theorem Composable.state?_of_apart (h : Composable arena rule) {other : Part}
    (intact : other.Intact arena) (apart : ∀ operand ∈ rule.operands, other.Apart operand)
    {id : StateId} (hid : id ∈ other.region) :
    (arena.extend (rule.map fragment)).state? id = arena.state? id := by
  refine Arena.state?_extend_of_lt h.ready (intact.lt_of_mem hid) fun f hf he => ?_
  rw [Rule.operands_map] at hf
  obtain ⟨operand, ho, rfl⟩ := List.mem_map.mp hf
  exact (apart operand ho).not_mem hid (he ▸ (h.intact operand ho).exit_mem)

/-- A part that no operand meets does not notice the rule. -/
theorem Composable.intact_of_apart (h : Composable arena rule) {other : Part}
    (intact : other.Intact arena) (apart : ∀ operand ∈ rule.operands, other.Apart operand) :
    other.Intact (arena.extend (rule.map fragment)) :=
  intact.of_same fun _ => h.state?_of_apart intact apart

theorem apart_ofRule {other : Part} (intact : other.Intact arena)
    (apart : ∀ operand ∈ rule.operands, other.Apart operand) :
    other.Apart (ofRule arena.size rule) := by
  intro id hid hr
  rcases hr with ⟨operand, ho, hr⟩ | ⟨le, _⟩
  · exact (apart operand ho).not_mem hid hr
  · exact absurd (intact.lt_of_mem hid) (Nat.not_lt.mpr le)

theorem Composable.eq_of_mem (h : Composable arena rule) {a b : Part} (ha : a ∈ rule.operands)
    (hb : b ∈ rule.operands) {id : StateId} (ida : id ∈ a.region) (idb : id ∈ b.region) :
    a = b := by
  by_contra ne
  exact (h.apart.forall ha hb ne).not_mem ida idb

/-- A rule writes to nothing inside its operands but their exits. -/
theorem Composable.state?_inner (h : Composable arena rule) {operand : Part}
    (ho : operand ∈ rule.operands) {id : StateId} (hid : id ∈ operand.region)
    (ne : id ≠ operand.fragment.exit) :
    (arena.extend (rule.map fragment)).state? id = arena.state? id := by
  refine Arena.state?_extend_of_lt h.ready ((h.intact operand ho).lt_of_mem hid) fun f hf he => ?_
  rw [Rule.operands_map] at hf
  obtain ⟨other, hother, rfl⟩ := List.mem_map.mp hf
  have same := h.eq_of_mem ho hother hid (he ▸ (h.intact other hother).exit_mem)
  exact ne (same ▸ he)

/-- From the entry of an operand everything goes through its exit, once a text of it is read. -/
theorem Composable.path_leave_iff (h : Composable arena rule) {operand : Part}
    (ho : operand ∈ rule.operands) {r : StateId} (hr : r ∉ operand.region) {w : List Char} :
    (arena.extend (rule.map fragment)).Path operand.fragment.entry w r ↔
      ∃ u v, u ∈ operand.language ∧
        (arena.extend (rule.map fragment)).Path operand.fragment.exit v r ∧ u ++ v = w := by
  have intact := h.intact operand ho
  rw [intact.closed.path_leave_iff intact.stop (fun _ => h.state?_inner ho) intact.entry_mem hr]
  simp only [intact.reads]

/-- What is left to show of a new part: its ends, the exits that now lead on and the new states. -/
theorem Composable.intact_ofRule (h : Composable arena rule)
    (exit : (arena.extend (rule.map fragment)).state? (ofRule arena.size rule).fragment.exit =
      some ⟨true, .empty⟩)
    (entry_mem : (ofRule arena.size rule).fragment.entry ∈ (ofRule arena.size rule).region)
    (exit_mem : (ofRule arena.size rule).fragment.exit ∈ (ofRule arena.size rule).region)
    (tied : ∀ operand ∈ rule.operands,
      operand.fragment.exit ≠ (ofRule arena.size rule).fragment.exit →
      ∃ state, (arena.extend (rule.map fragment)).state? operand.fragment.exit = some state ∧
        state.GoesOn (ofRule arena.size rule).region)
    (made : ∀ id, arena.size ≤ id → id < arena.size + rule.created →
      id ≠ (ofRule arena.size rule).fragment.exit →
      ∃ state, (arena.extend (rule.map fragment)).state? id = some state ∧
        state.GoesOn (ofRule arena.size rule).region)
    (reads : ∀ text, (arena.extend (rule.map fragment)).Path
      (ofRule arena.size rule).fragment.entry text (ofRule arena.size rule).fragment.exit ↔
        text ∈ (ofRule arena.size rule).language) :
    (ofRule arena.size rule).Intact (arena.extend (rule.map fragment)) := by
  refine ⟨entry_mem, exit_mem, exit, fun id hid ne => ?_, reads⟩
  rcases hid with ⟨operand, ho, hid⟩ | ⟨le, lt⟩
  · by_cases he : id = operand.fragment.exit
    · exact he ▸ tied operand ho (he ▸ ne)
    · obtain ⟨state, found, goes⟩ := (h.intact operand ho).inner id hid he
      have kept := (h.state?_inner ho hid he).trans found
      exact ⟨state, kept, goes.mono fun q hq => .inl ⟨operand, ho, hq⟩⟩
  · exact made id le lt ne

theorem goesOn_epsilon {targets : List StateId} {region : Set StateId} (ne : 0 < targets.length)
    (le : targets.length ≤ 2) (within : ∀ q ∈ targets, q ∈ region) :
    State.GoesOn ⟨false, .epsilon targets⟩ region :=
  ⟨rfl, by simp [Edges.isBounded, ne, le], within⟩

theorem fragment_ofRule (size : Nat) (h : rule.created = 2) :
    (ofRule size rule).fragment = ⟨size, size + 1⟩ := by
  cases rule <;> first | rfl | cases h

theorem size_mem_ofRule {size : Nat} (h : rule.created = 2) : size ∈ (ofRule size rule).region :=
  .inr ⟨Nat.le_refl _, h ▸ Nat.lt_add_of_pos_right Nat.two_pos⟩

theorem succ_mem_ofRule {size : Nat} (h : rule.created = 2) :
    size + 1 ∈ (ofRule size rule).region :=
  .inr ⟨Nat.le_succ _, h ▸ Nat.lt_succ_self _⟩

theorem mem_ofRule {size : Nat} {operand : Part} (ho : operand ∈ rule.operands) {id : StateId}
    (hid : id ∈ operand.region) : id ∈ (ofRule size rule).region :=
  .inl ⟨operand, ho, hid⟩

/-- A rule that makes states makes an entry and an exit around its operands. -/
theorem Composable.intact_wrapped (h : Composable arena rule) (created : rule.created = 2)
    {entry : State} (found : (arena.extend (rule.map fragment)).state? arena.size = some entry)
    (goes : entry.GoesOn (ofRule arena.size rule).region)
    (tied : ∀ operand ∈ rule.operands,
      ∃ state, (arena.extend (rule.map fragment)).state? operand.fragment.exit = some state ∧
        state.GoesOn (ofRule arena.size rule).region)
    (reads : ∀ text, (arena.extend (rule.map fragment)).Path arena.size text (arena.size + 1) ↔
      text ∈ (rule.map language).language) :
    (ofRule arena.size rule).Intact (arena.extend (rule.map fragment)) := by
  have ends := fragment_ofRule arena.size created
  refine h.intact_ofRule ?_ ?_ ?_ (fun operand ho _ => tied operand ho) ?_ ?_
  · rw [ends]
    exact Arena.state?_extend_exit (by simpa using created)
  · rw [ends]
    exact size_mem_ofRule created
  · rw [ends]
    exact succ_mem_ofRule created
  · intro id le lt ne
    rw [ends] at ne
    rw [created] at lt
    have same : id = arena.size :=
      (Nat.lt_succ_iff_lt_or_eq.mp lt).elim (fun lt => Nat.le_antisymm (Nat.le_of_lt_succ lt) le)
        fun he => absurd he ne
    exact ⟨entry, same ▸ found, goes⟩
  · rw [ends]
    exact reads

theorem intact_empty (h : Composable arena .empty) :
    (ofRule arena.size .empty).Intact (arena.extend .empty) := by
  have entry : (arena.extend .empty).state? arena.size =
      some ⟨false, .epsilon [arena.size + 1]⟩ := Arena.state?_wrapped_size rfl
  have exit : (arena.extend .empty).state? (arena.size + 1) = some ⟨true, .empty⟩ :=
    Arena.state?_extend_exit rfl
  refine h.intact_wrapped rfl entry (goesOn_epsilon (by simp) (by simp) ?_) (by simp) ?_
  · simpa using succ_mem_ofRule rfl
  · intro text
    change (arena.extend .empty).Path arena.size text (arena.size + 1) ↔ text ∈ (1 : Language Char)
    rw [Arena.path_iff_of_epsilon (Nat.ne_of_lt (Nat.lt_succ_self _)) entry, Language.mem_one]
    simp [Arena.path_iff_of_empty exit]

theorem intact_symbol {c : Char} (h : Composable arena (.symbol c)) :
    (ofRule arena.size (.symbol c)).Intact (arena.extend (.symbol c)) := by
  have entry : (arena.extend (.symbol c)).state? arena.size =
      some ⟨false, .labelled (Labels.empty.insert c (arena.size + 1))⟩ :=
    Arena.state?_wrapped_size rfl
  have exit : (arena.extend (.symbol c)).state? (arena.size + 1) = some ⟨true, .empty⟩ :=
    Arena.state?_extend_exit rfl
  have only {label : Option Char} {q : StateId} :
      (arena.extend (.symbol c)).Edge arena.size label q ↔
        label = some c ∧ q = arena.size + 1 := by
    rw [Arena.edge_iff_of_labelled entry]
    simp only [Labels.get?_insert, Labels.get?_empty]
    grind
  refine h.intact_wrapped rfl entry ⟨rfl, rfl, ?_⟩ (by simp) ?_
  · intro q hq
    have he : q = arena.size + 1 := List.mem_singleton.mp hq
    exact he ▸ succ_mem_ofRule rfl
  · intro text
    change (arena.extend (.symbol c)).Path arena.size text (arena.size + 1) ↔
      text ∈ ({[c]} : Set (List Char))
    refine ⟨fun path => ?_, fun he => ?_⟩
    · generalize hr : arena.size + 1 = r at path
      cases path with
      | here => exact absurd hr.symm (Nat.ne_of_lt (Nat.lt_succ_self _))
      | silent edge _ => cases (only.mp edge).1
      | read edge rest =>
        obtain ⟨hc, rfl⟩ := only.mp edge
        cases hc
        rw [((Arena.path_iff_of_empty exit).mp rest).2]
        rfl
    · subst he
      exact .read (only.mpr ⟨rfl, rfl⟩) .here

/-- The exit of the first part leads to the second, so that a text of the whole is cut there. -/
theorem intact_concat {first second : Part} (h : Composable arena (.concat first second)) :
    (ofRule arena.size (.concat first second)).Intact
      (arena.extend (.concat first.fragment second.fragment)) := by
  have left : first ∈ (Rule.concat first second).operands := by simp
  have right : second ∈ (Rule.concat first second).operands := by simp
  have intact := h.intact first left
  have intact' := h.intact second right
  have apart : first.Apart second := by simpa using h.apart
  have outside := (Std.Symm.symm _ _ apart).not_mem intact'.exit_mem
  have ne : first.fragment.exit ≠ second.fragment.exit := fun he => outside (he ▸ intact.exit_mem)
  have tied : (arena.extend (.concat first.fragment second.fragment)).state? first.fragment.exit =
      some ⟨false, .epsilon [second.fragment.entry]⟩ :=
    Arena.state?_put_self (intact.lt_of_mem intact.exit_mem)
  have same : ∀ id ∈ second.region,
      (arena.extend (.concat first.fragment second.fragment)).state? id = arena.state? id := by
    intro id hid
    refine Arena.state?_put_of_ne (intact.lt_of_mem intact.exit_mem) fun he => ?_
    exact apart.not_mem intact.exit_mem (he ▸ hid)
  refine h.intact_ofRule ((same _ intact'.exit_mem).trans intact'.exit)
    (mem_ofRule left intact.entry_mem) (mem_ofRule right intact'.exit_mem) ?_ ?_ ?_
  · intro operand ho inner
    simp only [Rule.operands, List.mem_cons, List.not_mem_nil, or_false] at ho
    rcases ho with rfl | rfl
    · refine ⟨_, tied, goesOn_epsilon (by simp) (by simp) ?_⟩
      simpa using mem_ofRule right intact'.entry_mem
    · exact absurd rfl inner
  · intro id le lt
    exact absurd lt (Nat.not_lt.mpr le)
  · intro text
    have onward {v : List Char} :
        (arena.extend (.concat first.fragment second.fragment)).Path first.fragment.exit v
          second.fragment.exit ↔ v ∈ second.language := by
      rw [Arena.path_iff_of_epsilon ne tied, ← intact'.reads,
        ← intact'.closed.path_iff_of_same same intact'.entry_mem]
      simp
    refine (h.path_leave_iff left outside).trans ?_
    change _ ↔ text ∈ first.language * second.language
    rw [Language.mem_mul]
    refine ⟨fun ⟨u, v, hu, path, he⟩ => ⟨u, hu, v, onward.mp path, he⟩, ?_⟩
    exact fun ⟨u, hu, v, hv, he⟩ => ⟨u, v, hu, onward.mpr hv, he⟩

theorem Intact.succ_not_mem (h : part.Intact arena) : arena.size + 1 ∉ part.region :=
  fun hid => absurd (h.lt_of_mem hid) (Nat.not_lt.mpr (Nat.le_succ _))

/-- An operand whose exit does nothing but lead to a last state is read as before. -/
theorem Composable.path_tied_iff (h : Composable arena rule) {operand : Part}
    (ho : operand ∈ rule.operands) {r : StateId} (hr : r ∉ operand.region) {accepting : Bool}
    (tied : (arena.extend (rule.map fragment)).state? operand.fragment.exit =
      some ⟨accepting, .epsilon [r]⟩)
    (last : (arena.extend (rule.map fragment)).state? r = some ⟨true, .empty⟩) {w : List Char} :
    (arena.extend (rule.map fragment)).Path operand.fragment.entry w r ↔ w ∈ operand.language := by
  have ne : operand.fragment.exit ≠ r := fun he => hr (he ▸ (h.intact operand ho).exit_mem)
  rw [h.path_leave_iff ho hr]
  simp only [Arena.path_iff_of_epsilon ne tied, List.mem_singleton, exists_eq_left,
    Arena.path_iff_of_empty last, true_and]
  simp

/-- From the new entry a path takes one of the two ways, and it comes to the exit with a text of
this one. -/
theorem intact_union {first second : Part} (h : Composable arena (.union first second)) :
    (ofRule arena.size (.union first second)).Intact
      (arena.extend (.union first.fragment second.fragment)) := by
  have left : first ∈ (Rule.union first second).operands := by simp
  have right : second ∈ (Rule.union first second).operands := by simp
  have intact := h.intact first left
  have intact' := h.intact second right
  have below := intact.lt_of_mem intact.exit_mem
  have below' := intact'.lt_of_mem intact'.exit_mem
  have ne : first.fragment.exit ≠ second.fragment.exit := by simpa [Rule.map] using h.ready.distinct
  have exit : (arena.extend (.union first.fragment second.fragment)).state? (arena.size + 1) =
      some ⟨true, .empty⟩ := Arena.state?_extend_exit rfl
  have tied := Arena.state?_extend_union_first below below' ne
  have tied' := Arena.state?_extend_union_second first.fragment below'
  refine h.intact_wrapped rfl Arena.state?_extend_union_entry
    (goesOn_epsilon (by simp) (by simp) ?_) ?_ ?_
  · intro q hq
    simp only [List.mem_cons, List.not_mem_nil, or_false] at hq
    rcases hq with rfl | rfl
    · exact mem_ofRule left intact.entry_mem
    · exact mem_ofRule right intact'.entry_mem
  · intro operand ho
    have onward : State.GoesOn ⟨false, .epsilon [arena.size + 1]⟩
        (ofRule arena.size (.union first second)).region :=
      goesOn_epsilon (by simp) (by simp) (by simpa using succ_mem_ofRule rfl)
    simp only [Rule.operands, List.mem_cons, List.not_mem_nil, or_false] at ho
    rcases ho with rfl | rfl
    · exact ⟨_, tied, onward⟩
    · exact ⟨_, tied', onward⟩
  · intro text
    change (arena.extend (.union first.fragment second.fragment)).Path arena.size text
      (arena.size + 1) ↔ text ∈ first.language + second.language
    have reads := h.path_tied_iff left intact.succ_not_mem tied exit (w := text)
    have reads' := h.path_tied_iff right intact'.succ_not_mem tied' exit (w := text)
    rw [Arena.path_iff_of_epsilon (Nat.ne_of_lt (Nat.lt_succ_self _))
      Arena.state?_extend_union_entry, Language.mem_add, ← reads, ← reads']
    simp [Rule.map]

section Closure

variable {operand : Part} (h : Composable arena (.closure operand))
include h

/-- On its way out a path goes around the loop some number of times. -/
theorem mem_kstar_of_path {p : StateId} {w : List Char} (hp : p ∈ operand.region)
    (path : (arena.extend (.closure operand.fragment)).Path p w (arena.size + 1)) :
    ∃ u v, arena.Path p u operand.fragment.exit ∧ v ∈ operand.language∗ ∧ u ++ v = w := by
  have ho : operand ∈ (Rule.closure operand).operands := by simp
  have intact := h.intact operand ho
  have exit : (arena.extend (.closure operand.fragment)).state? (arena.size + 1) =
      some ⟨true, .empty⟩ := Arena.state?_extend_exit rfl
  have tied := Arena.state?_extend_closure_exit (intact.lt_of_mem intact.exit_mem)
  generalize hr : arena.size + 1 = r at path
  induction path with
  | here => exact absurd (hr ▸ hp) intact.succ_not_mem
  | silent edge rest ih =>
    rename_i p q r w
    subst hr
    by_cases he : p = operand.fragment.exit
    · subst he
      obtain ⟨_, hq⟩ := (Arena.edge_iff_of_epsilon tied).mp edge
      simp only [List.mem_cons, List.not_mem_nil, or_false] at hq
      rcases hq with rfl | rfl
      · rw [((Arena.path_iff_of_empty exit).mp rest).2]
        exact ⟨[], [], .here, Language.nil_mem_kstar _, rfl⟩
      · obtain ⟨u, v, before, hv, rfl⟩ := ih intact.entry_mem rfl
        refine ⟨[], u ++ v, .here, ?_, rfl⟩
        rw [← Language.one_add_self_mul_kstar_eq_kstar]
        exact .inr (Language.append_mem_mul ((intact.reads u).mp before) hv)
    · have old := edge.of_state?_eq (h.state?_inner ho hp he).symm
      obtain ⟨u, v, before, hv, rfl⟩ := ih (intact.closed _ hp _ _ old) rfl
      exact ⟨u, v, .silent old before, hv, rfl⟩
  | read edge rest ih =>
    rename_i p q r c w
    subst hr
    by_cases he : p = operand.fragment.exit
    · subst he
      cases ((Arena.edge_iff_of_epsilon tied).mp edge).1
    · have old := edge.of_state?_eq (h.state?_inner ho hp he).symm
      obtain ⟨u, v, before, hv, rfl⟩ := ih (intact.closed _ hp _ _ old) rfl
      exact ⟨c :: u, v, .read old before, hv, rfl⟩

/-- Once more around the loop for each text. -/
theorem path_flatten (texts : List (List Char)) (hw : ∀ text ∈ texts, text ∈ operand.language) :
    (arena.extend (.closure operand.fragment)).Path operand.fragment.exit texts.flatten
      (arena.size + 1) := by
  have ho : operand ∈ (Rule.closure operand).operands := by simp
  have intact := h.intact operand ho
  have tied := Arena.state?_extend_closure_exit (intact.lt_of_mem intact.exit_mem)
  induction texts with
  | nil => exact .silent ((Arena.edge_iff_of_epsilon tied).mpr ⟨rfl, by simp⟩) .here
  | cons text others ih =>
    have rest := ih fun other hother => hw other (List.mem_cons_of_mem _ hother)
    have round := (h.path_leave_iff ho intact.succ_not_mem).mpr
      ⟨text, _, hw text (by simp), rest, rfl⟩
    exact .silent ((Arena.edge_iff_of_epsilon tied).mpr ⟨rfl, by simp⟩) round

/-- From the new entry a path leaves at once or goes round the operand, after each round with the
same choice. -/
theorem intact_closure :
    (ofRule arena.size (.closure operand)).Intact
      (arena.extend (.closure operand.fragment)) := by
  have ho : operand ∈ (Rule.closure operand).operands := by simp
  have intact := h.intact operand ho
  have exit : (arena.extend (.closure operand.fragment)).state? (arena.size + 1) =
      some ⟨true, .empty⟩ := Arena.state?_extend_exit rfl
  have tied := Arena.state?_extend_closure_exit (intact.lt_of_mem intact.exit_mem)
  have onward : State.GoesOn ⟨false, .epsilon [arena.size + 1, operand.fragment.entry]⟩
      (ofRule arena.size (.closure operand)).region := by
    refine goesOn_epsilon (by simp) (by simp) fun q hq => ?_
    simp only [List.mem_cons, List.not_mem_nil, or_false] at hq
    rcases hq with rfl | rfl
    · exact succ_mem_ofRule rfl
    · exact mem_ofRule ho intact.entry_mem
  refine h.intact_wrapped rfl Arena.state?_extend_closure_entry onward ?_ ?_
  · intro other hother
    cases List.mem_singleton.mp hother
    exact ⟨_, tied, onward⟩
  · intro text
    change (arena.extend (.closure operand.fragment)).Path arena.size text (arena.size + 1) ↔
      text ∈ operand.language∗
    rw [Arena.path_iff_of_epsilon (Nat.ne_of_lt (Nat.lt_succ_self _))
      Arena.state?_extend_closure_entry]
    refine ⟨?_, fun hw => ?_⟩
    · intro ⟨q, hq, path⟩
      simp only [List.mem_cons, List.not_mem_nil, or_false] at hq
      rcases hq with rfl | rfl
      · rw [((Arena.path_iff_of_empty exit).mp path).2]
        exact Language.nil_mem_kstar _
      · obtain ⟨u, v, before, hv, rfl⟩ := mem_kstar_of_path h intact.entry_mem path
        rw [← Language.one_add_self_mul_kstar_eq_kstar]
        exact .inr (Language.append_mem_mul ((intact.reads u).mp before) hv)
    · obtain ⟨texts, rfl, hall⟩ := Language.mem_kstar.mp hw
      cases texts with
      | nil => exact ⟨arena.size + 1, by simp, .here⟩
      | cons text others =>
        have rest := path_flatten h others fun other hother => hall other (by simp [hother])
        have round := (h.path_leave_iff ho intact.succ_not_mem).mpr
          ⟨text, _, hall text (by simp), rest, rfl⟩
        exact ⟨operand.fragment.entry, by simp, round⟩

end Closure

/-- A rule on parts that are apart makes an intact part. -/
theorem Composable.intact_extend (h : Composable arena rule) :
    (ofRule arena.size rule).Intact (arena.extend (rule.map fragment)) := by
  cases rule with
  | empty => exact intact_empty h
  | symbol c => exact intact_symbol h
  | concat first second => exact intact_concat h
  | union first second => exact intact_union h
  | closure operand => exact intact_closure h

end Part

end Thompson
