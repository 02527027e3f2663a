import SignalFlow.Text
import Mathlib.Data.List.Basic

/-!
# Reading texts

Characters are told apart by what they pass. What is read does not depend on the fuel, as
long as there is enough.

The pieces of a text are what the list of its characters is split into at a separator. There
are two of them exactly if the separator occurs once, and then they are what stands before it
and behind it. A cut at the first separator gives the same two.
-/

namespace SignalFlow

/-- A character that passes a test is not one that fails it. -/
theorem ne_of_passes {c d : Char} {test : Char → Bool} (hc : test c = true)
    (hd : test d = false) : c ≠ d := by
  rintro rfl
  rw [hc] at hd
  cases hd

/-- What holds with one step more than some fuel that is enough holds with any fuel that is. -/
theorem forall_fuel {P : Nat → Prop} {size : Nat} (h : ∀ fuel, size ≤ fuel → P (fuel + 1)) :
    ∀ fuel, size < fuel → P fuel
  | 0, hfuel => absurd hfuel (Nat.not_lt_zero size)
  | fuel + 1, hfuel => h fuel (Nat.le_of_lt_succ hfuel)

namespace Text

variable {separator : Char} {s before after : List Char}

theorem pieces_eq_splitOn (separator : Char) (s : List Char) :
    pieces separator s = s.splitOn separator := by
  induction s with
  | nil => rfl
  | cons c rest ih =>
    rw [pieces, ih, List.splitOn_cons_eq_if_modifyHead]
    split
    · next heq => rw [if_pos (beq_iff_eq.2 heq)]
    · next hne =>
      rw [if_neg fun h ↦ hne (beq_iff_eq.1 h)]
      obtain ⟨piece, more, hpieces⟩ :=
        List.exists_cons_of_ne_nil (List.splitOn_ne_nil separator rest)
      rw [hpieces, List.modifyHead_cons]

theorem length_pieces (separator : Char) (s : List Char) :
    (pieces separator s).length = s.count separator + 1 := by
  induction s with
  | nil => rfl
  | cons c rest ih =>
    rw [pieces]
    split
    · next heq => rw [heq, List.length_cons, ih, List.count_cons_self]
    · next hne =>
      rw [List.count_cons_of_ne hne, ← ih]
      split
      · next hnone =>
        exact absurd (pieces_eq_splitOn separator rest ▸ hnone) (List.splitOn_ne_nil _ _)
      · next hpieces => rw [hpieces, List.length_cons, List.length_cons]

/-- What is on the two sides of the only separator does not hold it. -/
theorem not_mem_sides (h : (before ++ separator :: after).count separator = 1) :
    separator ∉ before ∧ separator ∉ after := by
  rw [List.count_append, List.count_cons_self] at h
  constructor <;> rw [← List.count_eq_zero] <;> omega

/-- A text has two pieces exactly if it has one separator, and these are its sides. -/
theorem pieces_eq_pair_iff : pieces separator s = [before, after] ↔
    s.count separator = 1 ∧ s = before ++ separator :: after := by
  constructor
  · intro h
    have hlength := length_pieces separator s
    have hjoined : List.intercalate [separator] (s.splitOn separator) = s :=
      List.intercalate_splitOn separator
    rw [← pieces_eq_splitOn, h] at hjoined
    rw [h, List.length_cons, List.length_singleton] at hlength
    exact ⟨by omega, by simpa [List.intercalate] using hjoined.symm⟩
  · rintro ⟨hcount, rfl⟩
    obtain ⟨hbefore, hafter⟩ := not_mem_sides hcount
    have hsplit : (List.intercalate [separator] [before, after]).splitOn separator =
        [before, after] :=
      List.splitOn_intercalate separator (by simp [hbefore, hafter]) (List.cons_ne_nil _ _)
    rw [pieces_eq_splitOn, ← hsplit]
    simp [List.intercalate]

theorem exists_pieces_eq_pair_iff :
    (∃ before after, pieces separator s = [before, after]) ↔ s.count separator = 1 := by
  rw [← List.length_eq_two, length_pieces, Nat.add_left_inj]

/-- A cut at the first separator leaves none in front of it. -/
theorem cutFirst?_append (h : separator ∉ before) (after : List Char) :
    cutFirst? separator (before ++ separator :: after) = some (before, after) := by
  induction before with
  | nil => exact if_pos rfl
  | cons c before ih =>
    obtain ⟨hne, hbefore⟩ := not_or.1 (mt List.mem_cons.2 h)
    rw [List.cons_append, cutFirst?, if_neg (Ne.symm hne), ih hbefore]
    rfl

end Text

end SignalFlow
