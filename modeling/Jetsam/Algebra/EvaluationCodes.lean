import Mathlib.Algebra.Polynomial.Sequence
import Mathlib.LinearAlgebra.Lagrange
import Mathlib.LinearAlgebra.FiniteDimensional.Lemmas
import Mathlib.FieldTheory.Finiteness

/-!
# Evaluation codes

A message gives the coordinates of a polynomial in a sequence with one polynomial of each degree,
and the code word holds its values at distinct points. Two messages agree in few points, and any few
values are reached, each in the same number of ways.
-/

namespace EvaluationCode

open Polynomial Module

variable {F : Type} [Field F] (S : Polynomial.Sequence F) {n : ℕ}

noncomputable def message (n : ℕ) : (Fin n → F) →ₗ[F] F[X] :=
  Fintype.linearCombination F fun index : Fin n => S index

theorem message_apply (a : Fin n → F) : message S n a = ∑ index, a index • S index :=
  Fintype.linearCombination_apply F _ _

theorem range_message : LinearMap.range (message S n) = degreeLT F n := by
  have units : ∀ index < n, IsUnit (S index).leadingCoeff :=
    fun index _ => (leadingCoeff_ne_zero.mpr (S.ne_zero index)).isUnit
  have image : Set.range (fun index : Fin n => S index) = S '' Set.Iio n := by
    ext p
    constructor
    · rintro ⟨index, rfl⟩
      exact ⟨index, index.isLt, rfl⟩
    · rintro ⟨index, below, rfl⟩
      exact ⟨⟨index, below⟩, rfl⟩
  rw [message, Fintype.range_linearCombination, image, S.span_degreeLT units]

theorem degree_message_lt (a : Fin n → F) : (message S n a).degree < n :=
  mem_degreeLT.mp (range_message S ▸ LinearMap.mem_range_self (message S n) a)

theorem message_injective : Function.Injective (message S n) := by
  have independent : LinearIndependent F fun index : Fin n => S index :=
    S.linearIndependent.comp _ Fin.val_injective
  exact linearIndependent_iff_injective_fintypeLinearCombination.mp independent

noncomputable def values {ι : Type} (n : ℕ) (points : ι → F) : (Fin n → F) →ₗ[F] (ι → F) :=
  LinearMap.pi fun i => (leval (points i)).comp (message S n)

@[simp]
theorem values_apply {ι : Type} (points : ι → F) (a : Fin n → F) (i : ι) :
    values S n points a i = (message S n a).eval (points i) := rfl

theorem eq_of_agree {a b : Fin n → F} {agreed : Finset F} (many : n ≤ agreed.card)
    (agree : ∀ x ∈ agreed, (message S n a).eval x = (message S n b).eval x) : a = b := by
  have fits : ((agreed.card : ℕ) : WithBot ℕ) ≥ n := by exact_mod_cast many
  apply message_injective S
  exact eq_of_degrees_lt_of_eval_finset_eq agreed ((degree_message_lt S a).trans_le fits)
    ((degree_message_lt S b).trans_le fits) agree

variable {ι : Type} [Fintype ι]

theorem values_surjective [DecidableEq ι] {points : ι → F} (distinct : Function.Injective points)
    (few : Fintype.card ι ≤ n) : Function.Surjective (values S n points) := by
  intro target
  have small : (Lagrange.interpolate Finset.univ points target).degree < n := by
    refine (Lagrange.degree_interpolate_lt target distinct.injOn).trans_le ?_
    exact_mod_cast few
  have reached :
      Lagrange.interpolate Finset.univ points target ∈ LinearMap.range (message S n) := by
    rw [range_message]
    exact mem_degreeLT.mpr small
  obtain ⟨a, same⟩ := reached
  refine ⟨a, funext fun i => ?_⟩
  rw [values_apply, same]
  exact Lagrange.eval_interpolate_at_node target distinct.injOn (Finset.mem_univ i)

theorem card_fiber_of_surjective {V W : Type} [AddCommGroup V] [Module F V] [AddCommGroup W]
    [Module F W] [Module.Finite F V] {f : V →ₗ[F] W} (onto : Function.Surjective f) (target : W) :
    Nat.card {v : V // f v = target} = Nat.card F ^ (finrank F V - finrank F W) := by
  obtain ⟨base, rfl⟩ := onto target
  let shift : {v : V // f v = f base} ≃ LinearMap.ker f :=
    { toFun := fun v => ⟨v.1 - base, by rw [LinearMap.mem_ker, map_sub, v.2, sub_self]⟩
      invFun := fun k => ⟨k.1 + base, by rw [map_add, LinearMap.mem_ker.mp k.2, zero_add]⟩
      left_inv := fun v => Subtype.ext (sub_add_cancel v.1 base)
      right_inv := fun k => Subtype.ext (add_sub_cancel_right k.1 base) }
  have ranks := f.finrank_range_add_finrank_ker
  rw [LinearMap.range_eq_top.mpr onto, finrank_top] at ranks
  rw [Nat.card_congr shift, natCard_eq_pow_finrank (K := F), ← ranks, Nat.add_sub_cancel_left]

/-- With a nonzero factor at each point, every choice of values at few distinct points is reached
by the same number of messages. -/
theorem card_scaled_values [DecidableEq ι] {points factors : ι → F}
    (distinct : Function.Injective points) (nonzero : ∀ i, factors i ≠ 0)
    (few : Fintype.card ι ≤ n) (target : ι → F) :
    Nat.card {a : Fin n → F // ∀ i, factors i * (message S n a).eval (points i) = target i} =
      Nat.card F ^ (n - Fintype.card ι) := by
  have same : ∀ a : Fin n → F, (∀ i, factors i * (message S n a).eval (points i) = target i) ↔
      values S n points a = fun i => (factors i)⁻¹ * target i := by
    intro a
    rw [funext_iff]
    exact forall_congr' fun i => (eq_inv_mul_iff_mul_eq₀ (nonzero i)).symm
  rw [Nat.card_congr (Equiv.subtypeEquivRight same),
    card_fiber_of_surjective (values_surjective S distinct few), finrank_fin_fun,
    finrank_fintype_fun_eq_card]

end EvaluationCode
