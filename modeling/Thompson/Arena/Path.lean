import Thompson.Arena

namespace Thompson.Arena

inductive Edge (arena : Arena) : StateId → Option Char → StateId → Prop where
  | silent {p q : StateId} {state : State} (found : arena.state? p = some state)
      (target : q ∈ state.epsilons) : Edge arena p none q
  | labelled {p q : StateId} {c : Char} {state : State} (found : arena.state? p = some state)
      (target : state.edges.next c = some q) : Edge arena p (some c) q

inductive Path (arena : Arena) : StateId → List Char → StateId → Prop where
  | here {p : StateId} : Path arena p [] p
  | silent {p q r : StateId} {w : List Char} (edge : arena.Edge p none q)
      (rest : Path arena q w r) : Path arena p w r
  | read {p q r : StateId} {c : Char} {w : List Char} (edge : arena.Edge p (some c) q)
      (rest : Path arena q w r) : Path arena p (c :: w) r

/-- Where two paths meet they are one, and it reads the two texts one after the other. -/
theorem Path.append {arena : Arena} {p q r : StateId} {u v : List Char}
    (first : arena.Path p u q) (second : arena.Path q v r) : arena.Path p (u ++ v) r := by
  induction first with
  | here => exact second
  | silent edge rest ih => exact .silent edge (ih second)
  | read edge rest ih => exact .read edge (ih second)

end Thompson.Arena
