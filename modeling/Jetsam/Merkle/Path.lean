import Jetsam.Merkle.Heap

/-!
# Authentication paths

A path lists the siblings of an entry and of its ancestors, the lowest first. When the node function
has no collisions, a walk that ends in a node of a tree started in the tree.
-/

namespace Merkle

variable {D : Type}

/-- Walk a path upwards from the entry at a position. -/
def pathRoot (node : D → D → D) (entry : D) (position : Nat) : List D → D
  | [] => entry
  | sibling :: siblings =>
    pathRoot node (if position % 2 = 0 then node entry sibling else node sibling entry)
      (position / 2) siblings

variable {node : D → D → D} {tree : Nat → D} {leaves : Nat → D}

def pathPairs (node : D → D → D) (entry : D) (position : Nat) : List D → List (D × D)
  | [] => []
  | sibling :: siblings =>
    let pair := if position % 2 = 0 then (entry, sibling) else (sibling, entry)
    pair :: pathPairs node (node pair.1 pair.2) (position / 2) siblings

def subtreePairs (node : D → D → D) (leaves : Nat → D) (level place : Nat) : Set (D × D) :=
  {pair | ∃ lower position, lower < level ∧ position / 2 ^ (level - (lower + 1)) = place ∧
    pair = (subtree node leaves lower (2 * position), subtree node leaves lower (2 * position + 1))}

/-- A path that ends in a node started at the node below it, if the pairs hashed on the walk and
under the node do not collide. -/
theorem entry_eq_subtree_of_injOn {known : Set (D × D)}
    (injective : Set.InjOn (Function.uncurry node) known) {siblings : List D} {entry : D}
    {position level place : Nat} (short : siblings.length ≤ level)
    (walked : ∀ pair ∈ pathPairs node entry position siblings, pair ∈ known)
    (inside : subtreePairs node leaves level place ⊆ known)
    (reaches : pathRoot node entry position siblings = subtree node leaves level place) :
    entry = subtree node leaves (level - siblings.length)
      (place * 2 ^ siblings.length + position % 2 ^ siblings.length) := by
  induction siblings generalizing entry position with
  | nil => simpa [pathRoot, Nat.mod_one] using reaches
  | cons sibling siblings ih =>
    rw [List.length_cons] at short ⊢
    obtain ⟨lower, height⟩ : ∃ lower, level - siblings.length = lower + 1 :=
      ⟨level - siblings.length - 1, by omega⟩
    have place' : place * 2 ^ (siblings.length + 1) + position % 2 ^ (siblings.length + 1) =
        2 * (place * 2 ^ siblings.length + position / 2 % 2 ^ siblings.length) +
          position % 2 := by
      rw [pow_succ', Nat.mod_mul]
      ring
    have parent : (place * 2 ^ siblings.length + position / 2 % 2 ^ siblings.length) /
        2 ^ (level - (lower + 1)) = place := by
      have power := Nat.two_pow_pos siblings.length
      rw [show level - (lower + 1) = siblings.length by omega, mul_comm,
        Nat.mul_add_div power, Nat.div_eq_of_lt (Nat.mod_lt _ power), add_zero]
    have children := inside ⟨lower, _, by omega, parent, rfl⟩
    rw [pathPairs, List.forall_mem_cons] at walked
    rw [pathRoot] at reaches
    rw [place', show level - (siblings.length + 1) = lower by omega]
    rcases Nat.mod_two_eq_zero_or_one position with even | odd
    · rw [if_pos even] at reaches walked
      have above := ih (by omega) walked.2 reaches
      rw [height, subtree_succ] at above
      rw [even, add_zero]
      exact (Prod.mk.inj (injective walked.1 children above)).1
    · rw [if_neg (by omega)] at reaches walked
      have above := ih (by omega) walked.2 reaches
      rw [height, subtree_succ] at above
      rw [odd]
      exact (Prod.mk.inj (injective walked.1 children above)).2

end Merkle
