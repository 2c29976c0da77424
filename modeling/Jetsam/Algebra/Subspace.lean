import Mathlib.Data.LawfulXor.Basic
import Mathlib.LinearAlgebra.Lagrange
import Mathlib.Tactic.LinearCombination

/-!
# Subspace polynomials

For a sequence in a field of characteristic two, the polynomial of level `n` vanishes exactly on the
sums of some of the first `n` elements. Scaled to be one at `b n`, their products are a basis of all
polynomials, one of each degree.
-/

namespace BinaryField

open Polynomial

variable {K : Type} [Field K]

/-- The sum of those of the first `count` elements whose bit is set in the mask. -/
def combine (b : ℕ → K) (count mask : ℕ) : K :=
  ∑ index ∈ Finset.range count, if mask.testBit index then b index else 0

theorem combine_succ (b : ℕ → K) (count mask : ℕ) :
    combine b (count + 1) mask =
      combine b count mask + if mask.testBit count then b count else 0 :=
  Finset.sum_range_succ _ _

theorem combine_succ' (b : ℕ → K) (count mask : ℕ) :
    combine b (count + 1) mask =
      (if mask.testBit 0 then b 0 else 0) +
        combine (fun index => b (index + 1)) count (mask / 2) := by
  rw [combine, Finset.sum_range_succ', add_comm]
  simp only [combine, Nat.testBit_succ]

variable {count mask : ℕ}

theorem combine_congr (b : ℕ → K) {mask' : ℕ}
    (same : ∀ index < count, mask.testBit index = mask'.testBit index) :
    combine b count mask = combine b count mask' := by
  apply Finset.sum_congr rfl
  intro index inside
  rw [same index (Finset.mem_range.mp inside)]

theorem combine_eq_of_lt (b : ℕ → K) {count' : ℕ} (fewer : count ≤ count')
    (small : mask < 2 ^ count) : combine b count' mask = combine b count mask := by
  symm
  apply Finset.sum_subset (Finset.range_subset_range.mpr fewer)
  intro index _ above
  have high : count ≤ index := by simpa using above
  rw [Nat.testBit_lt_two_pow (small.trans_le (Nat.pow_le_pow_right two_pos high)),
    if_neg Bool.false_ne_true]

variable [CharP K 2]

theorem combine_xor (b : ℕ → K) (count mask mask' : ℕ) :
    combine b count (mask ^^^ mask') = combine b count mask + combine b count mask' := by
  rw [combine, combine, combine, ← Finset.sum_add_distrib]
  apply Finset.sum_congr rfl
  intro index inside
  rw [Nat.testBit_xor]
  cases mask.testBit index <;> cases mask'.testBit index <;> simp [CharTwo.add_self_eq_zero]

def subspaceEval (b : ℕ → K) : ℕ → K → K
  | 0, x => x
  | level + 1, x =>
    subspaceEval b level x * (subspaceEval b level x + subspaceEval b level (b level))

theorem subspaceEval_add (b : ℕ → K) (level : ℕ) (x y : K) :
    subspaceEval b level (x + y) = subspaceEval b level x + subspaceEval b level y := by
  induction level with
  | zero => rfl
  | succ level ih =>
    simp only [subspaceEval, ih]
    linear_combination
      CharTwo.add_self_eq_zero (subspaceEval b level x * subspaceEval b level y)

theorem subspaceEval_zero (b : ℕ → K) (level : ℕ) : subspaceEval b level 0 = 0 := by
  have twice := subspaceEval_add b level 0 0
  rwa [CharTwo.add_self_eq_zero, CharTwo.add_self_eq_zero] at twice

variable {index level : ℕ}

theorem subspaceEval_of_lt (b : ℕ → K) (below : index < level) :
    subspaceEval b level (b index) = 0 := by
  induction level with
  | zero => exact absurd below (Nat.not_lt_zero index)
  | succ level ih =>
    rw [subspaceEval]
    rcases Nat.lt_succ_iff_lt_or_eq.mp below with lower | rfl
    · rw [ih lower, zero_mul]
    · rw [CharTwo.add_self_eq_zero, mul_zero]

theorem subspaceEval_combine (b c : ℕ → K) (level count mask : ℕ) :
    subspaceEval b level (combine c count mask) =
      combine (fun index => subspaceEval b level (c index)) count mask := by
  induction count with
  | zero => exact subspaceEval_zero b level
  | succ count ih =>
    rw [combine_succ, combine_succ, subspaceEval_add, ih]
    split
    · rfl
    · rw [subspaceEval_zero]

/-- The polynomial of a level vanishes on the sums of the elements below it. -/
theorem subspaceEval_combine_eq_zero (b : ℕ → K) (below : count ≤ level) (mask : ℕ) :
    subspaceEval b level (combine b count mask) = 0 := by
  rw [subspaceEval_combine]
  apply Finset.sum_eq_zero
  intro index inside
  have root := subspaceEval_of_lt b (lt_of_lt_of_le (Finset.mem_range.mp inside) below)
  simp only [root, ite_self]

/-- It vanishes nowhere else. -/
theorem exists_combine_of_subspaceEval_eq_zero (b : ℕ → K) {x : K}
    (root : subspaceEval b level x = 0) : ∃ mask < 2 ^ level, x = combine b level mask := by
  induction level generalizing x with
  | zero => exact ⟨0, one_pos, root⟩
  | succ level ih =>
    rw [subspaceEval, ← subspaceEval_add, mul_eq_zero] at root
    rcases root with here | shifted
    · obtain ⟨mask, small, rfl⟩ := ih here
      have wider := Nat.pow_lt_pow_right one_lt_two (Nat.lt_succ_self level)
      refine ⟨mask, small.trans wider, ?_⟩
      rw [combine_succ, Nat.testBit_lt_two_pow small, if_neg Bool.false_ne_true, add_zero]
    · obtain ⟨mask, small, sum⟩ := ih shifted
      refine ⟨mask + 2 ^ level, by rw [pow_succ]; omega, ?_⟩
      rw [combine_succ, add_comm mask, Nat.testBit_two_pow_add_eq,
        Nat.testBit_lt_two_pow small, Bool.not_false, if_pos rfl]
      have low : combine b level (2 ^ level + mask) = combine b level mask := by
        apply combine_congr
        intro index inside
        exact Nat.testBit_two_pow_add_gt inside mask
      rw [low, ← sum, add_assoc, CharTwo.add_self_eq_zero, add_zero]

variable {b : ℕ → K}

/-- If no level vanishes at its own element, the elements are independent. -/
theorem eq_zero_of_combine_eq_zero (nonzero : ∀ level < count, subspaceEval b level (b level) ≠ 0)
    (small : mask < 2 ^ count) (zero : combine b count mask = 0) : mask = 0 := by
  induction count with
  | zero => omega
  | succ count ih =>
    have lower : ∀ level < count, subspaceEval b level (b level) ≠ 0 :=
      fun level below => nonzero level (below.trans (Nat.lt_succ_self count))
    rw [combine_succ] at zero
    cases top : mask.testBit count with
    | true =>
      rw [top, if_pos rfl] at zero
      apply absurd _ (nonzero count (Nat.lt_succ_self count))
      have value := congrArg (subspaceEval b count) zero
      rwa [subspaceEval_add, subspaceEval_combine_eq_zero b le_rfl, zero_add,
        subspaceEval_zero] at value
    | false =>
      rw [top, if_neg Bool.false_ne_true, add_zero] at zero
      apply ih lower _ zero
      apply Nat.lt_pow_two_of_testBit
      intro index above
      rcases eq_or_lt_of_le above with rfl | higher
      · exact top
      · exact Nat.testBit_lt_two_pow (small.trans_le (Nat.pow_le_pow_right two_pos higher))

theorem combine_injOn (nonzero : ∀ level < count, subspaceEval b level (b level) ≠ 0) :
    Set.InjOn (combine b count) (Set.Iio (2 ^ count)) := by
  intro mask small mask' small' same
  have zero : combine b count (mask ^^^ mask') = 0 := by
    rw [combine_xor, same, CharTwo.add_self_eq_zero]
  exact xor_eq_zero_iff.mp
    (eq_zero_of_combine_eq_zero nonzero (Nat.xor_lt_two_pow small small') zero)

/-- The value of the subspace polynomial, scaled to be one at the element of the level. -/
def normalizedEval (b : ℕ → K) (level : ℕ) (x : K) : K :=
  subspaceEval b level x * (subspaceEval b level (b level))⁻¹

theorem normalizedEval_add (b : ℕ → K) (level : ℕ) (x y : K) :
    normalizedEval b level (x + y) = normalizedEval b level x + normalizedEval b level y := by
  rw [normalizedEval, subspaceEval_add, add_mul]
  rfl

theorem normalizedEval_zero (b : ℕ → K) (level : ℕ) : normalizedEval b level 0 = 0 := by
  rw [normalizedEval, subspaceEval_zero, zero_mul]

theorem normalizedEval_of_lt (b : ℕ → K) (below : index < level) :
    normalizedEval b level (b index) = 0 := by
  rw [normalizedEval, subspaceEval_of_lt b below, zero_mul]

omit [CharP K 2] in
theorem normalizedEval_self (nonzero : subspaceEval b level (b level) ≠ 0) :
    normalizedEval b level (b level) = 1 :=
  mul_inv_cancel₀ nonzero

theorem normalizedEval_combine (b c : ℕ → K) (level count mask : ℕ) :
    normalizedEval b level (combine c count mask) =
      combine (fun index => normalizedEval b level (c index)) count mask := by
  rw [normalizedEval, subspaceEval_combine, combine, combine, Finset.sum_mul]
  apply Finset.sum_congr rfl
  intro index inside
  rw [ite_mul, zero_mul]
  rfl

/-- The images of the elements from a level on under its scaled polynomial. -/
def projected (b : ℕ → K) (level : ℕ) (index : ℕ) : K := normalizedEval b level (b (level + index))

omit [CharP K 2] in
theorem subspaceEval_projected (b : ℕ → K) (level count : ℕ) (x : K) :
    subspaceEval (projected b level) count (normalizedEval b level x) =
      subspaceEval b (level + count) x * (subspaceEval b level (b level))⁻¹ ^ 2 ^ count := by
  induction count generalizing x with
  | zero => rw [subspaceEval, pow_zero, pow_one, add_zero, normalizedEval]
  | succ count ih =>
    have doubled : (subspaceEval b level (b level))⁻¹ ^ 2 ^ (count + 1) =
        (subspaceEval b level (b level))⁻¹ ^ 2 ^ count *
          (subspaceEval b level (b level))⁻¹ ^ 2 ^ count := by
      rw [pow_succ, mul_two, pow_add]
    rw [subspaceEval, ih, projected, ih, ← add_assoc, subspaceEval, doubled]
    ring

omit [CharP K 2] in
theorem normalizedEval_projected (nonzero : subspaceEval b level (b level) ≠ 0) (count : ℕ)
    (x : K) :
    normalizedEval (projected b level) count (normalizedEval b level x) =
      normalizedEval b (level + count) x := by
  have top : subspaceEval (projected b level) count (projected b level count) =
      subspaceEval b (level + count) (b (level + count)) *
        (subspaceEval b level (b level))⁻¹ ^ 2 ^ count :=
    subspaceEval_projected b level count (b (level + count))
  rw [normalizedEval, subspaceEval_projected, top, mul_inv, normalizedEval]
  field_simp

omit [CharP K 2] in
theorem subspaceEval_projected_ne_zero (nonzero : subspaceEval b level (b level) ≠ 0)
    (above : subspaceEval b (level + count) (b (level + count)) ≠ 0) :
    subspaceEval (projected b level) count (projected b level count) ≠ 0 := by
  have value := subspaceEval_projected b level count (b (level + count))
  rw [← projected] at value
  rw [value]
  exact mul_ne_zero above (pow_ne_zero _ (inv_ne_zero nonzero))

noncomputable def subspacePoly (b : ℕ → K) : ℕ → K[X]
  | 0 => X
  | level + 1 => subspacePoly b level * (subspacePoly b level + C (subspaceEval b level (b level)))

omit [CharP K 2] in
@[simp]
theorem eval_subspacePoly (b : ℕ → K) (level : ℕ) (x : K) :
    (subspacePoly b level).eval x = subspaceEval b level x := by
  induction level with
  | zero => exact eval_X
  | succ level ih => simp only [subspacePoly, subspaceEval, eval_mul, eval_add, eval_C, ih]

omit [CharP K 2] in
theorem degree_subspacePoly (b : ℕ → K) (level : ℕ) :
    (subspacePoly b level).degree = (2 ^ level : ℕ) := by
  induction level with
  | zero => exact degree_X
  | succ level ih =>
    have below : (C (subspaceEval b level (b level))).degree < (subspacePoly b level).degree := by
      rw [ih]
      refine degree_C_le.trans_lt ?_
      exact_mod_cast Nat.two_pow_pos level
    rw [subspacePoly, degree_mul, degree_add_eq_left_of_degree_lt below, ih, pow_succ, mul_two]
    norm_cast

noncomputable def normalizedPoly (b : ℕ → K) (level : ℕ) : K[X] :=
  subspacePoly b level * C (subspaceEval b level (b level))⁻¹

omit [CharP K 2] in
@[simp]
theorem eval_normalizedPoly (b : ℕ → K) (level : ℕ) (x : K) :
    (normalizedPoly b level).eval x = normalizedEval b level x := by
  rw [normalizedPoly, eval_mul, eval_C, eval_subspacePoly, normalizedEval]

omit [CharP K 2] in
theorem degree_normalizedPoly (nonzero : subspaceEval b level (b level) ≠ 0) :
    (normalizedPoly b level).degree = (2 ^ level : ℕ) := by
  rw [normalizedPoly, degree_mul_C (inv_ne_zero nonzero), degree_subspacePoly]

/-- The product of the scaled polynomials whose bit is set in the index. -/
noncomputable def novelPoly (b : ℕ → K) (width index : ℕ) : K[X] :=
  ∏ level ∈ Finset.range width, if index.testBit level then normalizedPoly b level else 1

def novelEval (b : ℕ → K) (width index : ℕ) (x : K) : K :=
  ∏ level ∈ Finset.range width, if index.testBit level then normalizedEval b level x else 1

omit [CharP K 2] in
@[simp]
theorem eval_novelPoly (b : ℕ → K) (width index : ℕ) (x : K) :
    (novelPoly b width index).eval x = novelEval b width index x := by
  rw [novelPoly, eval_prod, novelEval]
  apply Finset.prod_congr rfl
  intro level inside
  split
  · exact eval_normalizedPoly b level x
  · exact eval_one

variable {width : ℕ}

omit [CharP K 2] in
theorem degree_novelPoly (nonzero : ∀ level < width, subspaceEval b level (b level) ≠ 0)
    (small : index < 2 ^ width) : (novelPoly b width index).degree = index := by
  induction width generalizing index with
  | zero =>
    obtain rfl : index = 0 := by omega
    exact degree_one
  | succ width ih =>
    have lower : ∀ level < width, subspaceEval b level (b level) ≠ 0 :=
      fun level below => nonzero level (below.trans (Nat.lt_succ_self width))
    have top : (normalizedPoly b width).degree = (2 ^ width : ℕ) :=
      degree_normalizedPoly (nonzero width (Nat.lt_succ_self width))
    have bits : novelPoly b width index = novelPoly b width (index % 2 ^ width) := by
      apply Finset.prod_congr rfl
      intro level inside
      rw [Nat.testBit_mod_two_pow, decide_eq_true (Finset.mem_range.mp inside), Bool.true_and]
    have rest := ih lower (Nat.mod_lt index (Nat.two_pow_pos width))
    have split : novelPoly b (width + 1) index = novelPoly b width index *
        if index.testBit width then normalizedPoly b width else 1 :=
      Finset.prod_range_succ _ _
    rw [split, bits, degree_mul, rest]
    by_cases high : 2 ^ width ≤ index
    · have set : index.testBit width = true :=
        Nat.testBit_of_two_pow_le_and_two_pow_add_one_gt high small
      have exact : index % 2 ^ width + 2 ^ width = index := by
        rw [Nat.mod_eq_sub_mod high, Nat.mod_eq_of_lt (by omega)]
        omega
      rw [if_pos set, top]
      exact_mod_cast congrArg ((↑) : ℕ → WithBot ℕ) exact
    · have clear : index.testBit width = false := Nat.testBit_lt_two_pow (not_le.mp high)
      rw [clear, if_neg Bool.false_ne_true, degree_one, add_zero, Nat.mod_eq_of_lt (not_le.mp high)]

omit [CharP K 2] in
theorem novelPoly_two_pow_add (b : ℕ → K) (small : index < 2 ^ width) :
    novelPoly b (width + 1) (2 ^ width + index) =
      novelPoly b width index * normalizedPoly b width := by
  rw [novelPoly, Finset.prod_range_succ, Nat.testBit_two_pow_add_eq, Nat.testBit_lt_two_pow small,
    Bool.not_false, if_pos rfl]
  congr 1
  apply Finset.prod_congr rfl
  intro place inside
  rw [Nat.testBit_two_pow_add_gt (Finset.mem_range.mp inside)]

omit [CharP K 2] in
theorem novelPoly_succ_of_lt (b : ℕ → K) (small : index < 2 ^ width) :
    novelPoly b (width + 1) index = novelPoly b width index := by
  rw [novelPoly, Finset.prod_range_succ, Nat.testBit_lt_two_pow small,
    if_neg Bool.false_ne_true, mul_one, novelPoly]

omit [CharP K 2] in
theorem novelEval_projected (nonzero : subspaceEval b level (b level) ≠ 0) (width index : ℕ)
    (x : K) :
    novelEval (projected b level) width index (normalizedEval b level x) =
      ∏ place ∈ Finset.range width,
        if index.testBit place then normalizedEval b (level + place) x else 1 := by
  apply Finset.prod_congr rfl
  intro place _
  rw [normalizedEval_projected nonzero]

end BinaryField
