import Mathlib.Data.List.GetD
import Jetsam.Algebra.EvaluationCodes
import Jetsam.Algebra.Subspace

/-!
# Codes over the products of subspace polynomials

The products of the scaled subspace polynomials carry an evaluation code. The upper half of the
coordinates has a common factor: where it does not vanish, that half alone reaches every choice of
few values.
-/

namespace BinaryField

open Polynomial

variable {K : Type} [Field K] {L : Type} [Field L] [Algebra K L]

/-- The products as a sequence over an extension field, continued by the powers. -/
noncomputable def novelSequence {b : ℕ → K} {width : ℕ}
    (nonzero : ∀ level < width, subspaceEval b level (b level) ≠ 0) (L : Type) [Field L]
    [Algebra K L] : Polynomial.Sequence L where
  elems' index :=
    if index < 2 ^ width then (novelPoly b width index).map (algebraMap K L) else X ^ index
  degree_eq' index := by
    split
    · rename_i small
      rw [degree_map, degree_novelPoly nonzero small]
    · exact degree_X_pow index

variable {b : ℕ → K} {width : ℕ}

theorem novelSequence_apply (nonzero : ∀ level < width, subspaceEval b level (b level) ≠ 0)
    (L : Type) [Field L] [Algebra K L] {index : ℕ} (small : index < 2 ^ width) :
    novelSequence nonzero L index = (novelPoly b width index).map (algebraMap K L) :=
  if_pos small

noncomputable def novelCombination (b : ℕ → K) (width : ℕ)
    (cells : List L) : L[X] :=
  ∑ index ∈ Finset.range (2 ^ width),
    C (cells.getD index 0) * (novelPoly b width index).map (algebraMap K L)

theorem novelCombination_append (b : ℕ → K) {low : List L} (half : low.length = 2 ^ width)
    (high : List L) :
    novelCombination b (width + 1) (low ++ high) = novelCombination b width low +
      (normalizedPoly b width).map (algebraMap K L) * novelCombination b width high := by
  rw [novelCombination, pow_succ, mul_two, Finset.sum_range_add, novelCombination,
    novelCombination, Finset.mul_sum]
  congr 1
  · apply Finset.sum_congr rfl
    intro index inside
    have small : index < low.length := half ▸ Finset.mem_range.mp inside
    rw [List.getD_append _ _ _ _ small, novelPoly_succ_of_lt _ (Finset.mem_range.mp inside)]
  · apply Finset.sum_congr rfl
    intro index inside
    rw [List.getD_append_right _ _ _ _ (half ▸ Nat.le_add_right _ _), half, Nat.add_sub_cancel_left,
      novelPoly_two_pow_add b (Finset.mem_range.mp inside), Polynomial.map_mul]
    ring

/-- The polynomial with given coordinates, as a message of the evaluation code. -/
theorem novelCombination_eq_message (nonzero : ∀ level < width, subspaceEval b level (b level) ≠ 0)
    (cells : List L) :
    novelCombination b width cells = EvaluationCode.message (novelSequence nonzero L)
      (2 ^ width) fun index => cells.getD index 0 := by
  rw [EvaluationCode.message_apply, novelCombination, Finset.sum_range]
  apply Finset.sum_congr rfl
  intro index _
  rw [novelSequence_apply _ L index.isLt, smul_eq_C_mul]

theorem card_upper_halves {ι : Type} [Fintype ι] [DecidableEq ι]
    (nonzero : ∀ level < width, subspaceEval b level (b level) ≠ 0) {points : ι → L}
    (distinct : Function.Injective points)
    (present : ∀ i, ((normalizedPoly b width).map (algebraMap K L)).eval (points i) ≠ 0)
    (few : Fintype.card ι ≤ 2 ^ width) {low : List L} (half : low.length = 2 ^ width)
    (target : ι → L) :
    Nat.card {high : Fin (2 ^ width) → L // ∀ i,
        (novelCombination b (width + 1) (low ++ List.ofFn high)).eval (points i) = target i} =
      Nat.card L ^ (2 ^ width - Fintype.card ι) := by
  have count := EvaluationCode.card_scaled_values (novelSequence nonzero L) distinct present few
    fun i => target i - (novelCombination b width low).eval (points i)
  rw [← count]
  apply Nat.card_congr
  apply Equiv.subtypeEquivRight
  intro high
  have cells : (fun index : Fin (2 ^ width) => (List.ofFn high).getD index 0) = high := by
    funext index
    rw [List.getD_eq_getElem _ _ (by simp), List.getElem_ofFn]
  apply forall_congr'
  intro i
  rw [novelCombination_append b half, novelCombination_eq_message nonzero (List.ofFn high), cells,
    eval_add, eval_mul, eq_sub_iff_add_eq']

end BinaryField
