import Mathlib.Data.Nat.Bits
import Mathlib.Tactic.Ring

/-!
# Full binary Merkle trees

The root of a full tree over a family of leaves, with the rules by which it is cut at a level,
changed at one leaf, and read along a path. The node function is an arbitrary binary operation.
-/

namespace Merkle

variable {D : Type*}

/-- Root of the full binary tree of depth `depth` over `leaves 0, …, leaves (2 ^ depth - 1)`. -/
def root (node : D → D → D) : Nat → (Nat → D) → D
  | 0, leaves => leaves 0
  | depth + 1, leaves =>
    node (root node depth leaves) (root node depth fun i => leaves (2 ^ depth + i))

def zeroRoot (node : D → D → D) (zero : D) : Nat → D
  | 0 => zero
  | depth + 1 => node (zeroRoot node zero depth) (zeroRoot node zero depth)

variable {node : D → D → D}

@[simp]
theorem root_zero (leaves : Nat → D) : root node 0 leaves = leaves 0 := rfl

theorem root_succ (depth : Nat) (leaves : Nat → D) :
    root node (depth + 1) leaves =
      node (root node depth leaves) (root node depth fun i => leaves (2 ^ depth + i)) := rfl

variable {depth : Nat} {left right : Nat → D}

theorem root_congr (agree : ∀ i < 2 ^ depth, left i = right i) :
    root node depth left = root node depth right := by
  induction depth generalizing left right with
  | zero => exact agree 0 (by norm_num)
  | succ depth ih =>
    rw [root_succ, root_succ]
    have lower : root node depth left = root node depth right :=
      ih fun i bound => agree i (by rw [pow_succ]; omega)
    have upper : root node depth (fun i => left (2 ^ depth + i)) =
        root node depth fun i => right (2 ^ depth + i) :=
      ih fun i bound => agree (2 ^ depth + i) (by rw [pow_succ]; omega)
    rw [lower, upper]

theorem root_const (zero : D) (depth : Nat) :
    root node depth (fun _ => zero) = zeroRoot node zero depth := by
  induction depth with
  | zero => rfl
  | succ depth ih => rw [root_succ, ih, zeroRoot]

theorem root_expand {leaves : Nat → D} {zero : D}
    (upper : ∀ i < 2 ^ depth, leaves (2 ^ depth + i) = zero) :
    root node (depth + 1) leaves =
      node (root node depth leaves) (zeroRoot node zero depth) := by
  rw [root_succ, ← root_const zero depth]
  congr 1
  exact root_congr upper

/-- Cutting a tree at level `low`: its upper part is a tree over the roots of the blocks. -/
theorem root_add (low high : Nat) (leaves : Nat → D) :
    root node (low + high) leaves =
      root node high fun block => root node low fun i => leaves (2 ^ low * block + i) := by
  induction high generalizing leaves with
  | zero => simp
  | succ high ih =>
    rw [← add_assoc, root_succ, root_succ, ih, ih]
    congr 1
    ring_nf

theorem root_succ_bottom (depth : Nat) (leaves : Nat → D) :
    root node (depth + 1) leaves =
      root node depth fun i => node (leaves (2 * i)) (leaves (2 * i + 1)) := by
  rw [add_comm, root_add 1 depth]
  simp [root]

/-- A collision-free node function makes the root determine every leaf. -/
theorem root_injective (injective : Function.Injective2 node)
    (roots : root node depth left = root node depth right) :
    ∀ i < 2 ^ depth, left i = right i := by
  induction depth generalizing left right with
  | zero =>
    intro i bound
    obtain rfl : i = 0 := by omega
    exact roots
  | succ depth ih =>
    obtain ⟨lower, upper⟩ := injective roots
    intro i bound
    by_cases inLower : i < 2 ^ depth
    · exact ih lower i inLower
    · have shifted := ih upper (i - 2 ^ depth) (by rw [pow_succ] at bound; omega)
      simpa [show 2 ^ depth + (i - 2 ^ depth) = i by omega] using shifted

def subtree (node : D → D → D) (leaves : Nat → D) (level position : Nat) : D :=
  root node level fun i => leaves (2 ^ level * position + i)

variable {leaves : Nat → D}

@[simp]
theorem subtree_zero (position : Nat) : subtree node leaves 0 position = leaves position := by
  simp [subtree]

theorem subtree_succ (level position : Nat) :
    subtree node leaves (level + 1) position =
      node (subtree node leaves level (2 * position))
        (subtree node leaves level (2 * position + 1)) := by
  unfold subtree
  rw [root_succ]
  congr 2
  · funext i
    ring_nf
  · funext i
    ring_nf

theorem subtree_top (depth : Nat) : subtree node leaves depth 0 = root node depth leaves := by
  simp [subtree]

theorem subtree_congr {other : Nat → D} {level position : Nat}
    (agree : ∀ index, index / 2 ^ level = position → leaves index = other index) :
    subtree node leaves level position = subtree node other level position := by
  refine root_congr fun i bound => agree _ ?_
  rw [Nat.mul_add_div (Nat.two_pow_pos level), Nat.div_eq_of_lt bound, Nat.add_zero]

end Merkle
