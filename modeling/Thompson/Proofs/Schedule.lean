import Mathlib.Computability.RegularExpressions
import Thompson.Proofs.Part

namespace Thompson

namespace Rule

def expression : Rule (RegularExpression Char) → RegularExpression Char
  | empty => 1
  | symbol c => .char c
  | concat first second => first * second
  | union first second => first + second
  | closure operand => operand.star

theorem matches_expression (rule : Rule (RegularExpression Char)) :
    rule.expression.matches' = (rule.map RegularExpression.matches').language := by
  cases rule <;> rfl

theorem map_map {α β γ : Type} (f : α → β) (g : β → γ) (rule : Rule α) :
    (rule.map f).map g = rule.map (g ∘ f) := by
  cases rule <;> rfl

end Rule

/-- Rules in order. Their operands are fragments of earlier rules, named by the number of the rule
that made them. -/
inductive Schedule : Nat → Type where
  | nil : Schedule 0
  | call {n : Nat} (before : Schedule n) (rule : Rule (Fin n)) : Schedule (n + 1)

namespace Schedule

def run {n : Nat} : Schedule n → Except Fault (Arena × Vector Fragment n)
  | nil => .ok ({}, #v[])
  | call before rule => do
    let (arena, made) ← before.run
    match arena.build (rule.map made.get) with
    | (grown, .ok fragment) => .ok (grown, made.push fragment)
    | (_, .error fault) => .error fault

def expressions {n : Nat} : Schedule n → Vector (RegularExpression Char) n
  | nil => #v[]
  | call before rule => before.expressions.push (rule.map before.expressions.get).expression

def taken {n : Nat} : Schedule n → List Nat
  | nil => []
  | call before rule => before.taken ++ rule.operands.map Fin.val

/-- All fragments made so far as parts of the arena. Those that are taken in are part of others and
are not spoken of any more. -/
structure Laid {n : Nat} (schedule : Schedule n) (arena : Arena) (parts : Vector Part n) : Prop where
  run : schedule.run = .ok (arena, parts.map Part.fragment)
  language : ∀ i, (parts.get i).language = (schedule.expressions.get i).matches'
  intact : ∀ i : Fin n, i.val ∉ schedule.taken → (parts.get i).Intact arena
  apart : ∀ i j : Fin n, i ≠ j → i.val ∉ schedule.taken → j.val ∉ schedule.taken →
    (parts.get i).Apart (parts.get j)

theorem get_push_last {α : Type} {n : Nat} (v : Vector α n) (x : α) :
    (v.push x).get (Fin.last n) = x :=
  Vector.getElem_push_eq

theorem get_push_castSucc {α : Type} {n : Nat} (v : Vector α n) (x : α) (i : Fin n) :
    (v.push x).get i.castSucc = v.get i :=
  Vector.getElem_push_lt i.isLt

theorem get_map {α β : Type} {n : Nat} (f : α → β) (v : Vector α n) (i : Fin n) :
    (v.map f).get i = f (v.get i) :=
  Vector.getElem_map f i.isLt

variable {n : Nat} {before : Schedule n} {rule : Rule (Fin n)} {arena : Arena}
  {parts : Vector Part n}

theorem not_mem_taken (once : (before.call rule).taken.Nodup) {i : Fin n}
    (hi : i ∈ rule.operands) : i.val ∉ before.taken := by
  intro hb
  have disjoint := (List.nodup_append.mp once).2.2
  exact disjoint i.val hb i.val (List.mem_map.mpr ⟨i, hi, rfl⟩) rfl

/-- Free fragments are intact and apart, so that a rule can take any of them. -/
theorem Laid.composable (laid : before.Laid arena parts) (once : (before.call rule).taken.Nodup) :
    Part.Composable arena (rule.map parts.get) := by
  refine ⟨?_, ?_⟩
  · intro operand ho
    rw [Rule.operands_map] at ho
    obtain ⟨i, hi, rfl⟩ := List.mem_map.mp ho
    exact laid.intact i (not_mem_taken once hi)
  · rw [Rule.operands_map]
    have distinct : rule.operands.Nodup :=
      List.Nodup.of_map _ (List.nodup_append.mp once).2.1
    refine List.Pairwise.map _ ?_ (List.Pairwise.and_mem.mp distinct)
    intro i j ⟨hi, hj, ne⟩
    exact laid.apart i j ne (not_mem_taken once hi) (not_mem_taken once hj)

/-- The arena does not refuse a rule whose operands are free. -/
theorem Laid.run_call (laid : before.Laid arena parts) (once : (before.call rule).taken.Nodup) :
    (before.call rule).run = .ok (arena.extend ((rule.map parts.get).map Part.fragment),
      (parts.push (.ofRule arena.size (rule.map parts.get))).map Part.fragment) := by
  have operands : rule.map (parts.map Part.fragment).get =
      (rule.map parts.get).map Part.fragment := by
    rw [Rule.map_map]
    exact congrArg rule.map (funext (get_map Part.fragment parts))
  simp only [Schedule.run, laid.run, except_ok_bind, operands,
    Arena.build_eq (laid.composable once).ready, Vector.map_push]
  rfl

/-- A fragment that is still free after a rule was free before it and is none of its operands. -/
theorem Laid.free (laid : before.Laid arena parts) (once : (before.call rule).taken.Nodup)
    {i : Fin n} (hi : i.val ∉ (before.call rule).taken) :
    i.val ∉ before.taken ∧ ∀ operand ∈ (rule.map parts.get).operands,
      (parts.get i).Apart operand := by
  have free : i.val ∉ before.taken := fun hb => hi (List.mem_append_left _ hb)
  refine ⟨free, fun operand ho => ?_⟩
  rw [Rule.operands_map] at ho
  obtain ⟨j, hj, rfl⟩ := List.mem_map.mp ho
  refine laid.apart i j (fun he => ?_) free (not_mem_taken once hj)
  exact hi (List.mem_append_right _ (List.mem_map.mpr ⟨j, hj, he ▸ rfl⟩))

theorem Laid.apart_ofRule (laid : before.Laid arena parts) (once : (before.call rule).taken.Nodup)
    {i : Fin n} (hi : i.val ∉ (before.call rule).taken) :
    (parts.get i).Apart (.ofRule arena.size (rule.map parts.get)) := by
  obtain ⟨free, apart⟩ := laid.free once hi
  exact Part.apart_ofRule (laid.intact i free) apart

theorem Laid.language_ofRule (laid : before.Laid arena parts) :
    (Part.ofRule arena.size (rule.map parts.get)).language =
      (rule.map before.expressions.get).expression.matches' := by
  have languages : Part.language ∘ parts.get =
      RegularExpression.matches' ∘ before.expressions.get := funext laid.language
  simp only [Part.ofRule, Rule.matches_expression, Rule.map_map, languages]

/-- One more rule joins the parts of its operands and leaves the other ones alone. -/
theorem Laid.call (laid : before.Laid arena parts) (once : (before.call rule).taken.Nodup) :
    (before.call rule).Laid (arena.extend ((rule.map parts.get).map Part.fragment))
      (parts.push (.ofRule arena.size (rule.map parts.get))) := by
  refine ⟨laid.run_call once, fun i => ?_, fun i hi => ?_, fun i j ne hi hj => ?_⟩
  · cases i using Fin.lastCases with
    | last =>
      rw [Schedule.expressions, get_push_last, get_push_last]
      exact laid.language_ofRule
    | cast i =>
      rw [Schedule.expressions, get_push_castSucc, get_push_castSucc]
      exact laid.language i
  · cases i using Fin.lastCases with
    | last =>
      rw [get_push_last]
      exact (laid.composable once).intact_extend
    | cast i =>
      rw [get_push_castSucc]
      obtain ⟨free, apart⟩ := laid.free once hi
      exact (laid.composable once).intact_of_apart (laid.intact i free) apart
  · cases i using Fin.lastCases with
    | last =>
      cases j using Fin.lastCases with
      | last => exact absurd rfl ne
      | cast j =>
        rw [get_push_last, get_push_castSucc]
        exact Std.Symm.symm _ _ (laid.apart_ofRule once hj)
    | cast i =>
      cases j using Fin.lastCases with
      | last =>
        rw [get_push_last, get_push_castSucc]
        exact laid.apart_ofRule once hi
      | cast j =>
        rw [get_push_castSucc, get_push_castSucc]
        have distinct : i ≠ j := fun he => ne (he ▸ rfl)
        exact laid.apart i j distinct (laid.free once hi).1 (laid.free once hj).1

/-- By the calls: no rule is refused, and the free fragments own parts that are apart. -/
theorem exists_laid (schedule : Schedule n) (once : schedule.taken.Nodup) :
    ∃ arena parts, schedule.Laid arena parts := by
  induction schedule with
  | nil =>
    exact ⟨{}, #v[], by simp [Schedule.run], fun i => i.elim0, fun i => i.elim0, fun i => i.elim0⟩
  | call before rule ih =>
    obtain ⟨arena, parts, laid⟩ := ih (List.nodup_append.mp once).1
    exact ⟨_, _, laid.call once⟩

/-- No rule is refused, and what is not taken in yet makes an automaton for its expression. -/
theorem finish_recognizes (schedule : Schedule n) (once : schedule.taken.Nodup) :
    ∃ arena made, schedule.run = .ok (arena, made) ∧
      ∀ i : Fin n, i.val ∉ schedule.taken →
        ∃ automaton, arena.finish (made.get i) = .ok automaton ∧
          automaton.Recognizes (schedule.expressions.get i).matches' := by
  obtain ⟨arena, parts, laid⟩ := schedule.exists_laid once
  refine ⟨arena, _, laid.run, fun i hi => ?_⟩
  have intact := laid.intact i hi
  rw [get_map, ← laid.language i]
  exact ⟨_, Arena.finish_eq_ok_iff.mpr ⟨intact.sealed, rfl⟩, intact.recognizes⟩

def interleaved : Schedule 6 :=
  (((((nil.call (.symbol 'a')).call (.symbol 'b')).call (.closure 0)).call .empty).call
    (.union 1 3)).call (.concat 2 4)

theorem finish_recognizes_interleaved : interleaved.taken.Nodup ∧
    ∃ arena made, interleaved.run = .ok (arena, made) ∧
      ∀ i : Fin 6, i.val ∉ interleaved.taken →
        ∃ automaton, arena.finish (made.get i) = .ok automaton ∧
          automaton.Recognizes (interleaved.expressions.get i).matches' :=
  ⟨by decide, finish_recognizes interleaved (by decide)⟩

end Schedule

end Thompson
