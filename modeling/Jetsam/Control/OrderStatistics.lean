import Mathlib.Data.List.GetD
import Mathlib.Data.List.Sort

/-!
# Order statistics of unsorted lists

The entry at a position of the sorted list reaches a bound exactly when enough entries of the list
do. Hence the middle entry of a window does not fall when a value at or above it comes in and at
most one value leaves.
-/

namespace Control

open List

variable {α : Type} [LinearOrder α]

/-- In a sorted list an entry reaches a bound exactly when as many entries do as stand from its
position on. -/
theorem le_getElem_iff_countP {values : List α} (sorted : values.Pairwise (· ≤ ·)) {index : Nat}
    (inside : index < values.length) (bound : α) :
    bound ≤ values[index] ↔ values.length - index ≤ values.countP (bound ≤ ·) := by
  induction values generalizing index with
  | nil => exact absurd inside (Nat.not_lt_zero index)
  | cons head values ih =>
    obtain ⟨low, sorted⟩ := pairwise_cons.mp sorted
    have most : values.countP (bound ≤ ·) ≤ values.length := countP_le_length
    by_cases reaches : bound ≤ head
    · -- All entries reach the bound with the lowest one.
      have all : values.countP (bound ≤ ·) = values.length := by
        rw [countP_eq_length]
        intro value mem
        exact decide_eq_true (reaches.trans (low value mem))
      have entry : bound ≤ (head :: values)[index] := by
        cases index with
        | zero => exact reaches
        | succ index => exact reaches.trans (low _ (getElem_mem _))
      rw [countP_cons_of_pos (by simpa using reaches), all, length_cons]
      exact iff_of_true entry (by omega)
    · rw [countP_cons_of_neg (by simpa using reaches), length_cons]
      cases index with
      | zero => exact iff_of_false reaches (by omega)
      | succ index =>
        rw [getElem_cons_succ, ih sorted (by simpa using inside), Nat.add_sub_add_right]

/-- The upper middle entry of a list, or a given value when there is none. -/
def middle (default : α) (values : List α) : α :=
  (values.insertionSort (· ≤ ·)).getD (values.length / 2) default

theorem le_middle_iff {values : List α} (nonempty : values ≠ []) (default bound : α) :
    bound ≤ middle default values ↔
      values.length - values.length / 2 ≤ values.countP (bound ≤ ·) := by
  have pos : 0 < values.length := length_pos_iff.mpr nonempty
  have length : (values.insertionSort (· ≤ ·)).length = values.length :=
    length_insertionSort ..
  have inside : values.length / 2 < (values.insertionSort (· ≤ ·)).length := by omega
  have same : (values.insertionSort (· ≤ ·)).countP (bound ≤ ·) = values.countP (bound ≤ ·) :=
    (perm_insertionSort (· ≤ ·) values).countP_eq _
  rw [middle, getD_eq_getElem _ _ inside,
    le_getElem_iff_countP (pairwise_insertionSort (· ≤ ·) values) inside, length, same]

theorem middle_le_middle_of_slide {default new : α} {values dropped next : List α}
    (nonempty : values ≠ []) (reaches : middle default values ≤ new)
    (slide : dropped ++ next = values ++ [new]) (one : dropped.length ≤ 1) :
    middle default values ≤ middle default next := by
  have half := (le_middle_iff nonempty default _).mp (le_refl (middle default values))
  have lengths := congrArg List.length slide
  have counts := congrArg (List.countP (middle default values ≤ ·)) slide
  have left : dropped.countP (middle default values ≤ ·) ≤ dropped.length := countP_le_length
  have pos : 0 < values.length := length_pos_iff.mpr nonempty
  rw [length_append, length_append, length_singleton] at lengths
  rw [countP_append, countP_append, countP_singleton, if_pos (by simpa)] at counts
  rw [le_middle_iff (length_pos_iff.mp (by omega))]
  omega

end Control
