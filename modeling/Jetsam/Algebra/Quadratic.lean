import Mathlib.Algebra.CharP.Two
import Mathlib.Algebra.CharP.Algebra
import Mathlib.Tactic.FieldSimp
import Mathlib.Tactic.LinearCombination

/-!
# Quadratic extensions in characteristic two

Over a field of characteristic two, the pairs `lo + hi * X` with `X ^ 2 = X + tau` are a field as
soon as `X ^ 2 + X + tau` has no root, and then `tau * X` is again such a constant.
-/

namespace BinaryField

/-- A pair of coordinates, read as `lo + hi * X` with `X ^ 2 = X + tau`. -/
@[ext]
structure Quadratic {K : Type} (tau : K) where
  lo : K
  hi : K
deriving DecidableEq

class NoRoot {K : Type} [Field K] (tau : K) : Prop where
  ne_zero : ∀ x : K, x * x + x + tau ≠ 0

namespace Quadratic

variable {K : Type} [Field K] {tau : K}

instance : Zero (Quadratic tau) := ⟨⟨0, 0⟩⟩

instance : One (Quadratic tau) := ⟨⟨1, 0⟩⟩

instance : Add (Quadratic tau) := ⟨fun x y => ⟨x.lo + y.lo, x.hi + y.hi⟩⟩

instance : Neg (Quadratic tau) := ⟨fun x => ⟨-x.lo, -x.hi⟩⟩

/-- The product, with three multiplications of coordinates. -/
instance : Mul (Quadratic tau) where
  mul x y :=
    let low := x.lo * y.lo
    let high := x.hi * y.hi
    let cross := (x.lo + x.hi) * (y.lo + y.hi)
    ⟨low + high * tau, low + cross⟩

def norm (x : Quadratic tau) : K := x.hi * x.hi * tau + x.hi * x.lo + x.lo * x.lo

instance : Inv (Quadratic tau) where
  inv x := ⟨(x.hi + x.lo) * x.norm⁻¹, x.hi * x.norm⁻¹⟩

def ofBase (x : K) : Quadratic tau := ⟨x, 0⟩

variable (x : Quadratic tau)

@[simp] theorem zero_lo : (0 : Quadratic tau).lo = 0 := rfl

@[simp] theorem zero_hi : (0 : Quadratic tau).hi = 0 := rfl

@[simp] theorem one_lo : (1 : Quadratic tau).lo = 1 := rfl

@[simp] theorem one_hi : (1 : Quadratic tau).hi = 0 := rfl

@[simp] theorem add_lo (x y : Quadratic tau) : (x + y).lo = x.lo + y.lo := rfl

@[simp] theorem add_hi (x y : Quadratic tau) : (x + y).hi = x.hi + y.hi := rfl

@[simp] theorem neg_lo : (-x).lo = -x.lo := rfl

@[simp] theorem neg_hi : (-x).hi = -x.hi := rfl

@[simp] theorem mul_lo (x y : Quadratic tau) : (x * y).lo = x.lo * y.lo + x.hi * y.hi * tau := rfl

@[simp] theorem inv_lo : (x⁻¹).lo = (x.hi + x.lo) * x.norm⁻¹ := rfl

@[simp] theorem inv_hi : (x⁻¹).hi = x.hi * x.norm⁻¹ := rfl

@[simp] theorem ofBase_lo (x : K) : (ofBase x : Quadratic tau).lo = x := rfl

@[simp] theorem ofBase_hi (x : K) : (ofBase x : Quadratic tau).hi = 0 := rfl

variable [CharP K 2]

@[simp]
theorem mul_hi (x y : Quadratic tau) :
    (x * y).hi = x.lo * y.hi + x.hi * y.lo + x.hi * y.hi := by
  change x.lo * y.lo + (x.lo + x.hi) * (y.lo + y.hi) = _
  linear_combination CharTwo.add_self_eq_zero (x.lo * y.lo)

instance : CommRing (Quadratic tau) where
  add_assoc x y z := by ext <;> simp <;> ring
  zero_add x := by ext <;> simp
  add_zero x := by ext <;> simp
  add_comm x y := by ext <;> simp <;> ring
  neg_add_cancel x := by ext <;> simp
  mul_assoc x y z := by ext <;> simp <;> ring
  one_mul x := by ext <;> simp
  mul_one x := by ext <;> simp
  zero_mul x := by ext <;> simp
  mul_zero x := by ext <;> simp
  left_distrib x y z := by ext <;> simp <;> ring
  right_distrib x y z := by ext <;> simp <;> ring
  mul_comm x y := by ext <;> simp <;> ring
  nsmul := nsmulRec
  zsmul := zsmulRec

instance : Algebra K (Quadratic tau) :=
  RingHom.toAlgebra
    { toFun := ofBase
      map_one' := rfl
      map_zero' := rfl
      map_add' := fun x y => by ext <;> simp
      map_mul' := fun x y => by ext <;> simp }

@[simp]
theorem algebraMap_apply (x : K) : algebraMap K (Quadratic tau) x = ofBase x := rfl

omit [CharP K 2] in
theorem ofBase_injective : Function.Injective (ofBase : K → Quadratic tau) :=
  fun _ _ same => congrArg Quadratic.lo same

instance : CharP (Quadratic tau) 2 :=
  charP_of_injective_algebraMap (R := K) (A := Quadratic tau) ofBase_injective 2

instance : Nontrivial (Quadratic tau) := ofBase_injective.nontrivial

omit [CharP K 2] in
theorem norm_ne_zero [NoRoot tau] {x : Quadratic tau} (nonzero : x ≠ 0) : x.norm ≠ 0 := by
  intro vanishes
  rw [norm] at vanishes
  by_cases flat : x.hi = 0
  · have low : x.lo = 0 := by simpa [flat] using vanishes
    exact nonzero (Quadratic.ext low flat)
  · apply (inferInstance : NoRoot tau).ne_zero (x.lo / x.hi)
    calc x.lo / x.hi * (x.lo / x.hi) + x.lo / x.hi + tau
        = (x.hi * x.hi * tau + x.hi * x.lo + x.lo * x.lo) / (x.hi * x.hi) := by
          field_simp
          ring
      _ = 0 := by rw [vanishes, zero_div]

instance [NoRoot tau] : Field (Quadratic tau) where
  exists_pair_ne := exists_pair_ne _
  mul_inv_cancel x nonzero := by
    have cancels : x.norm * x.norm⁻¹ = 1 := mul_inv_cancel₀ (norm_ne_zero nonzero)
    have twice := CharTwo.add_self_eq_zero (x.lo * x.hi * x.norm⁻¹)
    have twiceHigh := CharTwo.add_self_eq_zero (x.hi * x.hi * x.norm⁻¹)
    ext
    · rw [mul_lo, inv_lo, inv_hi, one_lo]
      nth_rewrite 1 [norm] at cancels
      linear_combination cancels
    · rw [mul_hi, inv_lo, inv_hi, one_hi]
      linear_combination twice + twiceHigh
  inv_zero := by ext <;> simp
  nnqsmul := _
  nnqsmul_def := fun _ _ => rfl
  qsmul := _
  qsmul_def := fun _ _ => rfl

/-- The constant of the next extension has no root either: its high coordinate would be one. -/
instance [NoRoot tau] : NoRoot (⟨0, tau⟩ : Quadratic tau) where
  ne_zero x vanishes := by
    have high := congrArg Quadratic.hi vanishes
    simp only [add_hi, mul_hi, zero_hi] at high
    apply (inferInstance : NoRoot tau).ne_zero x.hi
    linear_combination high - CharTwo.add_self_eq_zero (x.lo * x.hi)

end Quadratic

end BinaryField
