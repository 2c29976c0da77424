import Mathlib.GroupTheory.Perm.Cycle.Basic

/-!
# Two involutions without fixed points

The elements that two such involutions reach from one another lie on a cycle on which the two
alternate.
-/

section Involutions

open Function Equiv.Perm

variable {α : Type} {first second : α → α} (involutive : Involutive first)
  (involutive' : Involutive second) (moves : ∀ x, first x ≠ x) (moves' : ∀ x, second x ≠ x)

include involutive involutive' moves moves'

/-- An alternating word of odd length is a conjugate of one of the two. -/
theorem first_iterate_ne (count : ℕ) (x : α) : first ((first ∘ second)^[count] x) ≠ x := by
  induction count using Nat.twoStepInduction generalizing x with
  | zero => exact moves x
  | one =>
    rw [iterate_one, comp_apply, involutive]
    exact moves' x
  | more count ih _ =>
    intro fixed
    rw [iterate_succ_apply', iterate_succ_apply, comp_apply, comp_apply, involutive] at fixed
    apply ih (first (second x))
    rw [← involutive' ((first ∘ second)^[count] _), fixed]

theorem exists_alternating [LinearOrder α] :
    ∃ color : α → Bool, ∀ x, color (first x) = !color x ∧ color (second x) = !color x := by
  obtain ⟨turn, turn_apply⟩ : ∃ turn : Equiv.Perm α, ∀ x, turn x = first (second x) :=
    ⟨involutive'.toPerm.trans involutive.toPerm, fun _ => rfl⟩
  have power (count : ℕ) (x : α) : (turn ^ count) x = (first ∘ second)^[count] x := by
    rw [← iterate_eq_pow, show (turn : α → α) = first ∘ second from funext turn_apply]
  have apart (x : α) : ¬ SameCycle turn x (first x) := by
    rintro ⟨count | count, reached⟩
    · rw [Int.ofNat_eq_natCast, zpow_natCast, power] at reached
      apply first_iterate_ne involutive involutive' moves moves' count x
      rw [reached, involutive]
    · rw [zpow_negSucc, inv_eq_iff_eq, power] at reached
      apply first_iterate_ne involutive involutive' moves moves' (count + 1) (first x)
      rw [← reached]
  -- Each cycle of the composition has a representative, and the first involution changes it.
  let root (x : α) : α := (Quotient.mk (SameCycle.setoid turn) x).out
  have root_eq {x y : α} : root x = root y ↔ SameCycle turn x y :=
    Quotient.out_inj.trans Quotient.eq
  refine ⟨fun x => decide (root x < root (first x)), fun x => ⟨?_, ?_⟩⟩
  · have distinct := mt root_eq.mp (apart x)
    simp only [involutive x]
    grind
  · have distinct := mt root_eq.mp (apart x)
    have next : root (first (second x)) = root x :=
      root_eq.mpr (SameCycle.symm ⟨1, by rw [zpow_one, turn_apply]⟩)
    have back : root (second x) = root (first x) :=
      root_eq.mpr ⟨1, by rw [zpow_one, turn_apply, involutive']⟩
    simp only [next, back]
    grind

end Involutions
