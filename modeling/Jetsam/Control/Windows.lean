import Mathlib.Data.List.Range

/-!
# Windows on a sequence

A window of bounded length that takes one member of a sequence at a time, dropping its oldest when
it is full, always holds the last members.
-/

namespace Control

open List

variable {α : Type} {sequence : Nat → α} {length shorter tip : Nat}

/-- The last members up to a position, oldest first; fewer near the start. -/
def recent (sequence : Nat → α) (length tip : Nat) : List α :=
  (List.range' (tip + 1 - length) (tip + 1 - (tip + 1 - length))).map sequence

theorem length_recent (sequence : Nat → α) (length tip : Nat) :
    (recent sequence length tip).length = min length (tip + 1) := by
  rw [recent, length_map, length_range']
  omega

theorem getElem?_recent {index : Nat} (inside : index < min length (tip + 1)) :
    (recent sequence length tip)[index]? = some (sequence (tip + 1 - length + index)) := by
  rw [recent, getElem?_map, getElem?_range' (by omega)]
  simp

theorem recent_succ (full : length ≤ tip + 1) :
    recent sequence length tip ++ [sequence (tip + 1)] =
      sequence (tip + 1 - length) :: recent sequence length (tip + 1) := by
  apply ext_getElem?
  intro index
  rcases lt_trichotomy index length with before | rfl | behind
  · rw [getElem?_append_left (by rw [length_recent]; omega), getElem?_recent (by omega)]
    cases index with
    | zero => simp
    | succ index =>
      rw [getElem?_cons_succ, getElem?_recent (by omega)]
      congr 2
      omega
  · have last : (recent sequence index tip).length = index := by
      rw [length_recent]
      omega
    rw [getElem?_append_right (by omega), last, Nat.sub_self]
    cases index with
    | zero => simp
    | succ index =>
      rw [getElem?_cons_succ, getElem?_recent (by omega)]
      simp only [getElem?_cons_zero, Option.some.injEq]
      congr 1
      omega
  · rw [getElem?_eq_none, getElem?_eq_none]
    · rw [length_cons, length_recent]
      omega
    · rw [length_append, length_recent, length_singleton]
      omega

theorem recent_succ_of_short (short : tip + 1 < length) :
    recent sequence length tip ++ [sequence (tip + 1)] = recent sequence length (tip + 1) := by
  apply ext_getElem?
  intro index
  rcases lt_trichotomy index (tip + 1) with before | rfl | behind
  · rw [getElem?_append_left (by rw [length_recent]; omega), getElem?_recent (by omega),
      getElem?_recent (by omega)]
    congr 2
    omega
  · rw [getElem?_append_right (by rw [length_recent]; omega), length_recent,
      getElem?_recent (by omega)]
    rw [Nat.min_eq_right (by omega), Nat.sub_self]
    simp only [getElem?_cons_zero, Option.some.injEq]
    congr 1
    omega
  · rw [getElem?_eq_none, getElem?_eq_none]
    · rw [length_recent]
      omega
    · rw [length_append, length_recent, length_singleton]
      omega

end Control
