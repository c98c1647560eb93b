import Thompson.Text.Layout
import Thompson.Text.Quoted
import Mathlib.Data.Nat.Digits.Defs

namespace Thompson.Text

section Pieces

variable {sep : Char} {tail u v x y : List Char} {xs ys : List (List Char)}

/-- Where a piece ends is told by the first character that it cannot have. -/
theorem append_cons_inj (hx : sep ∉ x) (hy : sep ∉ y) (same : x ++ sep :: u = y ++ sep :: v) :
    x = y ∧ u = v := by
  -- If one of them went on for longer, the separator behind the other would be in it.
  rcases List.append_eq_append_iff.mp same with ⟨middle, rfl, rest⟩ | ⟨middle, rfl, rest⟩
  · cases middle with
    | nil => simpa using rest
    | cons c middle => exact absurd (by simp [(List.cons.inj rest).1]) hy
  · cases middle with
    | nil => simpa using rest.symm
    | cons c middle => exact absurd (by simp [(List.cons.inj rest).1]) hx

/-- Pieces that end with a separator each can be taken apart again. -/
theorem pieces_inj (hx : ∀ x ∈ xs, sep ∉ x) (hy : ∀ y ∈ ys, sep ∉ y)
    (same : xs.flatMap (· ++ sep :: tail) = ys.flatMap (· ++ sep :: tail)) : xs = ys := by
  induction xs generalizing ys with
  | nil =>
    cases ys with
    | nil => rfl
    | cons y ys => simp at same
  | cons x xs ih =>
    cases ys with
    | nil => simp at same
    | cons y ys =>
      obtain ⟨free, others⟩ := List.forall_mem_cons.mp hx
      obtain ⟨free', others'⟩ := List.forall_mem_cons.mp hy
      simp only [List.flatMap_cons, List.append_assoc, List.cons_append] at same
      obtain ⟨rfl, rest⟩ := append_cons_inj free free' same
      rw [ih others others' (List.append_cancel_left rest)]

theorem toList_commaSeparated {items : List String} (ne : items ≠ []) :
    (commaSeparated items).toList ++ [',', ' '] =
      (items.map String.toList).flatMap (· ++ [',', ' ']) := by
  induction items with
  | nil => exact absurd rfl ne
  | cons item rest ih =>
    cases rest with
    | nil => simp [commaSeparated]
    | cons next others =>
      have later := ih (List.cons_ne_nil _ _)
      rw [commaSeparated] at later ⊢
      rw [String.intercalate_cons_cons, String.toList_append, String.toList_append,
        List.append_assoc, later]
      simp

end Pieces

section Numbers

variable {n m : Nat} {ns ms : List Nat} {c : Char}

theorem toList_toString (n : Nat) : (toString n).toList = Nat.toDigits 10 n := by
  rw [Nat.toString_eq_repr, Nat.toList_repr]

theorem toDigits_injective (same : Nat.toDigits 10 n = Nat.toDigits 10 m) : n = m := by
  rw [← Nat.ofDigitChars_ten_toDigits (n := n), same, Nat.ofDigitChars_ten_toDigits]

theorem isDigit_of_mem_toDigits (h : c ∈ Nat.toDigits 10 n) : c.isDigit :=
  Nat.isDigit_of_mem_toDigits (by omega) (by omega) h

theorem isDigit_of_mem_toString (h : c ∈ (toString n).toList) : c.isDigit :=
  isDigit_of_mem_toDigits (toList_toString n ▸ h)

theorem isDigit_of_mem_zeroPadded {width : Nat} (h : c ∈ (zeroPadded width n).toList) :
    c.isDigit := by
  rw [zeroPadded, String.toList_ofList, List.leftpad] at h
  rcases List.mem_append.mp h with zero | digit
  · rw [List.eq_of_mem_replicate zero]
    rfl
  · exact isDigit_of_mem_toDigits digit

/-- Of a list of numbers, each character is a digit or between two numbers. -/
theorem mem_commaSeparated (h : c ∈ (commaSeparated (ns.map toString)).toList) :
    c.isDigit ∨ c = ',' ∨ c = ' ' := by
  by_cases ne : ns = []
  · subst ne
    cases h
  · have mem := List.mem_append_left [',', ' '] h
    rw [toList_commaSeparated (by simpa using ne)] at mem
    obtain ⟨piece, there, mem⟩ := List.mem_flatMap.mp mem
    obtain ⟨item, listed, rfl⟩ := List.mem_map.mp there
    obtain ⟨n, _, rfl⟩ := List.mem_map.mp listed
    rcases List.mem_append.mp mem with digit | separator
    · exact .inl (isDigit_of_mem_toString digit)
    · exact .inr (by simpa using separator)

theorem commaSeparated_inj (hn : ns ≠ []) (hm : ms ≠ [])
    (same : commaSeparated (ns.map toString) = commaSeparated (ms.map toString)) : ns = ms := by
  have free (ns : List Nat) : ∀ x ∈ (ns.map toString).map String.toList, ',' ∉ x := by
    rw [List.map_map, List.forall_mem_map]
    exact fun n _ => mt isDigit_of_mem_toString Bool.false_ne_true
  have texts := congrArg (·.toList ++ [',', ' ']) same
  beta_reduce at texts
  rw [toList_commaSeparated (by simpa using hn), toList_commaSeparated (by simpa using hm)] at texts
  have pieces := pieces_inj (free ns) (free ms) texts
  rw [List.map_map, List.map_map] at pieces
  refine (List.map_inj_right fun n m same => toDigits_injective ?_).mp pieces
  rw [← toList_toString, ← toList_toString]
  exact same

end Numbers

section Quotes

variable {c : Char}

def hexDigit (c : Char) : Nat :=
  if c.isDigit then c.toNat - '0'.toNat else c.toNat - 'a'.toNat + 10

def ofHexadecimal (digits : List Char) : Nat :=
  digits.foldl (fun n c => 16 * n + hexDigit c) 0

theorem hexDigit_digitChar : ∀ n < 16, hexDigit (Nat.digitChar n) = n := by
  decide

/-- The last hexadecimal digit is that of the remainder by sixteen. -/
theorem toDigits_append {m k : Nat} (pos : 0 < m) (small : k < 16) :
    Nat.toDigits 16 (16 * m + k) = Nat.toDigits 16 m ++ [Nat.digitChar k] := by
  rw [← Nat.toDigits_append_toDigits (by omega) pos small, Nat.toDigits_of_lt_base small]

theorem ofHexadecimal_toDigits (n : Nat) : ofHexadecimal (Nat.toDigits 16 n) = n := by
  induction n using Nat.base_induction 16 (by omega) with
  | single m small =>
    simp [ofHexadecimal, Nat.toDigits_of_lt_base small, hexDigit_digitChar m small]
  | digit m k small pos ih =>
    rw [ofHexadecimal] at ih
    rw [toDigits_append pos small, ofHexadecimal, List.foldl_append, ih, List.foldl_cons,
      List.foldl_nil, hexDigit_digitChar k small]

theorem exists_of_mem_toDigits {n : Nat} (h : c ∈ Nat.toDigits 16 n) :
    ∃ k < 16, c = Nat.digitChar k := by
  induction n using Nat.base_induction 16 (by omega) with
  | single m small =>
    rw [Nat.toDigits_of_lt_base small] at h
    exact ⟨m, small, List.mem_singleton.mp h⟩
  | digit m k small pos ih =>
    rw [toDigits_append pos small] at h
    rcases List.mem_append.mp h with higher | last
    · exact ih higher
    · exact ⟨k, small, List.mem_singleton.mp last⟩

def unescape : List Char → Char
  | ['\\', '0'] => '\x00'
  | ['\\', 't'] => '\t'
  | ['\\', 'n'] => '\n'
  | ['\\', 'r'] => '\r'
  | ['\\', '\x27'] => '\x27'
  | ['\\', '\\'] => '\\'
  | '\\' :: 'u' :: '\x7b' :: digits => Char.ofNat (ofHexadecimal digits.dropLast)
  | text => text.headD ' '

theorem toList_escape_unprintable (c : Char) :
    ("\\u\x7b" ++ hexadecimal c.toNat ++ "\x7d").toList =
      '\\' :: 'u' :: '\x7b' :: (Nat.toDigits 16 c.toNat ++ ['\x7d']) := by
  simp [hexadecimal]

/-- No two characters are escaped alike, since what is escaped can be read off. -/
theorem unescape_escape (c : Char) : unescape (escape c).toList = c := by
  unfold escape
  split
  case h_7 =>
    split
    · rw [toList_escape_unprintable, unescape, List.dropLast_concat, ofHexadecimal_toDigits,
        Char.ofNat_toNat]
    · simp [unescape]
  all_goals rfl

/-- A line break is written with letters, and every other control character is escaped. -/
theorem newline_not_mem_escape (c : Char) : '\n' ∉ (escape c).toList := by
  unfold escape
  split
  case h_7 newline _ _ _ =>
    split
    · rw [toList_escape_unprintable]
      intro mem
      have digit : '\n' ∈ Nat.toDigits 16 c.toNat := by simpa using mem
      obtain ⟨k, small, same⟩ := exists_of_mem_toDigits digit
      revert k
      decide
    · intro mem
      have same : '\n' = c := by simpa using mem
      exact newline same.symm
  all_goals decide

/-- How the characters are written: on one line, behind a quote, and no two of them alike. Nothing is
said of what stands between the quotes, not even that it cannot have a quote in it. -/
structure Legible (quote : Char → String) : Prop where
  injective : Function.Injective quote
  oneLine : ∀ c, '\n' ∉ (quote c).toList
  quoted : ∀ c, (quote c).toList.head? = some '\x27'

theorem legible_quote : Legible quote where
  injective c d same := by
    have inner : escape c = escape d := by
      simpa [quote] using same
    rw [← unescape_escape c, inner, unescape_escape]
  oneLine c := by
    simpa [quote] using newline_not_mem_escape c
  quoted c := by simp [quote]

end Quotes

end Thompson.Text
