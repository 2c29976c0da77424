import Mathlib.Algebra.BigOperators.Intervals

/-!
# Sums over binary indices

A sum over twice as many indices is the sum over the lower bits, or the sum over the highest bit.
-/

namespace BinaryField

theorem exists_two_mul_add_toNat (n : ℕ) : ∃ (half : ℕ) (bit : Bool), n = 2 * half + bit.toNat := by
  rcases Nat.mod_two_eq_zero_or_one n with even | odd
  · exact ⟨n / 2, false, by simp only [Bool.toNat_false]; omega⟩
  · exact ⟨n / 2, true, by simp only [Bool.toNat_true]; omega⟩

@[simp]
theorem two_mul_add_toNat_div_two (half : ℕ) (bit : Bool) : (2 * half + bit.toNat) / 2 = half := by
  cases bit
  · simp
  · simp only [Bool.toNat_true]
    omega

@[simp]
theorem testBit_zero_two_mul_add_toNat (half : ℕ) (bit : Bool) :
    (2 * half + bit.toNat).testBit 0 = bit := by
  cases bit <;> simp [Nat.testBit_zero]

@[simp]
theorem testBit_succ_two_mul_add_toNat (half place : ℕ) (bit : Bool) :
    (2 * half + bit.toNat).testBit (place + 1) = half.testBit place := by
  rw [Nat.testBit_succ, two_mul_add_toNat_div_two]

variable {M : Type} [AddCommMonoid M]

theorem sum_range_two_mul (f : ℕ → M) (n : ℕ) :
    ∑ index ∈ Finset.range (2 * n), f index =
      ∑ index ∈ Finset.range n, (f (2 * index) + f (2 * index + 1)) := by
  induction n with
  | zero => rfl
  | succ n ih =>
    rw [Nat.mul_succ, Finset.sum_range_succ, Finset.sum_range_succ, ih, Finset.sum_range_succ,
      add_assoc]

end BinaryField
