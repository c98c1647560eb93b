namespace Thompson

abbrev StateId := Nat

structure Labels where
  entries : List (Char × StateId)
  ascending : entries.Pairwise (fun x y => x.1.toNat < y.1.toNat)
deriving DecidableEq

namespace Labels

def empty : Labels := ⟨[], .nil⟩

def get? (labels : Labels) (symbol : Char) : Option StateId :=
  labels.entries.lookup symbol

def contains (labels : Labels) (symbol : Char) : Bool :=
  (labels.get? symbol).isSome

def targets (labels : Labels) : List StateId :=
  labels.entries.map Prod.snd

def insertEntry (symbol : Char) (target : StateId) : List (Char × StateId) → List (Char × StateId)
  | [] => [(symbol, target)]
  | entry :: rest =>
    if symbol.toNat < entry.1.toNat then (symbol, target) :: entry :: rest
    else if symbol = entry.1 then (symbol, target) :: rest
    else entry :: insertEntry symbol target rest

theorem mem_insertEntry {symbol : Char} {target : StateId} {entries : List (Char × StateId)}
    {x : Char × StateId} (h : x ∈ insertEntry symbol target entries) :
    x = (symbol, target) ∨ x ∈ entries := by
  induction entries with
  | nil => simpa [insertEntry] using h
  | cons entry rest ih =>
    unfold insertEntry at h
    split at h
    · simpa using h
    · split at h
      · rcases List.mem_cons.mp h with he | hr
        · exact .inl he
        · exact .inr (List.mem_cons_of_mem _ hr)
      · rcases List.mem_cons.mp h with he | hr
        · exact .inr (he ▸ List.mem_cons_self)
        · exact (ih hr).imp id (List.mem_cons_of_mem _)

/-- An entry goes before the first one with a larger symbol, or in the place of the one with its own
symbol, so that the symbols still ascend and none stands twice. -/
theorem ascending_insertEntry (symbol : Char) (target : StateId) {entries : List (Char × StateId)}
    (h : entries.Pairwise (fun x y => x.1.toNat < y.1.toNat)) :
    (insertEntry symbol target entries).Pairwise (fun x y => x.1.toNat < y.1.toNat) := by
  induction entries with
  | nil => simp [insertEntry]
  | cons entry rest ih =>
    obtain ⟨below, tail⟩ := List.pairwise_cons.mp h
    unfold insertEntry
    split
    · rename_i before
      refine List.pairwise_cons.mpr ⟨fun x hx => ?_, h⟩
      rcases List.mem_cons.mp hx with he | hr
      · exact he ▸ before
      · exact Nat.lt_trans before (below x hr)
    · split
      · rename_i same
        exact List.pairwise_cons.mpr ⟨fun x hx => same ▸ below x hx, tail⟩
      · rename_i after other
        have above : entry.1.toNat < symbol.toNat :=
          Nat.lt_of_le_of_ne (Nat.le_of_not_lt after) fun he => other (Char.toNat_inj.mp he).symm
        refine List.pairwise_cons.mpr ⟨fun x hx => ?_, ih tail⟩
        rcases mem_insertEntry hx with he | hr
        · exact he ▸ above
        · exact below x hr

def insert (labels : Labels) (symbol : Char) (target : StateId) : Labels :=
  ⟨insertEntry symbol target labels.entries, ascending_insertEntry symbol target labels.ascending⟩

def ofList (entries : List (Char × StateId)) : Labels :=
  entries.foldl (fun labels entry => labels.insert entry.1 entry.2) empty

theorem get?_empty (symbol : Char) : empty.get? symbol = none := rfl

theorem lookup_cons_eq_ite (symbol other : Char) (target : StateId)
    (rest : List (Char × StateId)) :
    ((symbol, target) :: rest).lookup other =
      if other = symbol then some target else rest.lookup other := by
  by_cases h : other = symbol
  · simp [h]
  · have hb : (other == symbol) = false := by simpa using h
    rw [List.lookup_cons, hb, if_neg h]

/-- A symbol that was there before gets the new target, and all others keep theirs. -/
theorem get?_insert (labels : Labels) (symbol : Char) (target : StateId) (other : Char) :
    (labels.insert symbol target).get? other =
      if other = symbol then some target else labels.get? other := by
  simp only [get?, insert]
  induction labels.entries with
  | nil => simp [insertEntry, lookup_cons_eq_ite]
  | cons entry rest ih =>
    obtain ⟨key, value⟩ := entry
    unfold insertEntry
    split
    · simp only [lookup_cons_eq_ite]
    · split
      · rename_i same
        subst same
        simp only [lookup_cons_eq_ite]
        split <;> rfl
      · rename_i different
        simp only [lookup_cons_eq_ite, ih]
        by_cases h : other = key
        · have : ¬other = symbol := fun he => different (he.symm.trans h)
          simp only [h, if_true]
          rw [if_neg (h ▸ this)]
        · simp only [h, if_false]

end Labels

end Thompson
