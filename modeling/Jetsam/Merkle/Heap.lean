import Jetsam.Merkle.Tree

/-!
# Trees in heap order

A full tree in one array: leaf `i` of `count` leaves at `count + i`, and the node over entries `2 *
k` and `2 * k + 1` at `k`. It is built from the last node down, and one leaf is changed by
recomputing the nodes above it.
-/

namespace Merkle

open List Function

variable {D : Type*}

def recompute (node : D → D → D) (tree : Nat → D) (index : Nat) : Nat → D :=
  Function.update tree index (node (tree (2 * index)) (tree (2 * index + 1)))

/-- Array of a tree over `count` leaves, its nodes computed in decreasing order. -/
def buildHeap (node : D → D → D) (blank : D) (count : Nat) (leaves : Nat → D) : Nat → D :=
  (List.range' 1 (count - 1)).reverse.foldl (recompute node)
    fun index => if count ≤ index then leaves (index - count) else blank

/-- Recompute the nodes above entry `index`, from its parent to the root. -/
def climb (node : D → D → D) (tree : Nat → D) (index : Nat) : Nat → D :=
  if above : 1 < index then climb node (recompute node tree (index / 2)) (index / 2) else tree
termination_by index

def setLeaf (node : D → D → D) (count : Nat) (tree : Nat → D) (index : Nat) (leaf : D) :
    Nat → D :=
  climb node (Function.update tree (count + index) leaf) (count + index)

/-- The array holds the given leaves, and every node is computed from its children. -/
structure IsHeap (node : D → D → D) (count : Nat) (leaves : Nat → D) (tree : Nat → D) : Prop where
  leaf : ∀ i < count, tree (count + i) = leaves i
  inner : ∀ k, 1 ≤ k → k < count → tree k = node (tree (2 * k)) (tree (2 * k + 1))

variable {node : D → D → D} {count : Nat} {leaves : Nat → D} {tree : Nat → D}

variable {index other : Nat}

theorem recompute_of_ne (different : other ≠ index) :
    recompute node tree index other = tree other :=
  update_of_ne different _ _

theorem recompute_self (pos : 1 ≤ index) :
    recompute node tree index index =
      node (recompute node tree index (2 * index)) (recompute node tree index (2 * index + 1)) := by
  rw [recompute_of_ne (show 2 * index ≠ index by omega),
    recompute_of_ne (show 2 * index + 1 ≠ index by omega)]
  exact update_self _ _ _

theorem foldl_recompute_inner (low steps : Nat) (pos : 1 ≤ low)
    (later : ∀ k, low + steps ≤ k → k < count → tree k = node (tree (2 * k)) (tree (2 * k + 1))) :
    ∀ k, low ≤ k → k < count →
      (List.range' low steps).reverse.foldl (recompute node) tree k =
        node ((List.range' low steps).reverse.foldl (recompute node) tree (2 * k))
          ((List.range' low steps).reverse.foldl (recompute node) tree (2 * k + 1)) := by
  induction steps generalizing low with
  | zero => simpa using later
  | succ steps ih =>
    intro k lower upper
    rw [range'_succ, reverse_cons, foldl_append, foldl_cons, foldl_nil]
    rcases Nat.eq_or_lt_of_le lower with rfl | higher
    · exact recompute_self pos
    · rw [recompute_of_ne (by omega), recompute_of_ne (by omega), recompute_of_ne (by omega)]
      exact ih (low + 1) (by omega) (fun j bound => later j (by omega)) k higher upper

theorem foldl_recompute_of_notMem (indices : List Nat) (outside : other ∉ indices) :
    indices.foldl (recompute node) tree other = tree other := by
  induction indices generalizing tree with
  | nil => rfl
  | cons index indices ih =>
    rw [mem_cons, not_or] at outside
    rw [foldl_cons, ih outside.2, recompute_of_ne outside.1]

theorem isHeap_buildHeap (blank : D) : IsHeap node count leaves (buildHeap node blank count leaves)
    where
  leaf := fun i bound => by
    rw [buildHeap, foldl_recompute_of_notMem]
    · simp
    · simp only [mem_reverse, mem_range'_1]
      omega
  inner := fun k pos bound =>
    foldl_recompute_inner 1 (count - 1) le_rfl (fun j low high => by omega) k pos bound

/-- Entry `2 ^ (depth - level) + m` is the root of the `m`-th subtree of that level. -/
theorem IsHeap.subtree {depth : Nat} (heap : IsHeap node (2 ^ depth) leaves tree) {level : Nat}
    (low : level ≤ depth) {m : Nat} (bound : m < 2 ^ (depth - level)) :
    tree (2 ^ (depth - level) + m) = root node level fun i => leaves (2 ^ level * m + i) := by
  induction level generalizing m with
  | zero => simpa using heap.leaf m bound
  | succ level ih =>
    obtain ⟨high, rfl⟩ : ∃ high, depth = level + 1 + high := ⟨depth - (level + 1), by omega⟩
    rw [Nat.add_sub_cancel_left] at bound ⊢
    have halves : level + 1 + high - level = high + 1 := by omega
    have double : 2 ^ (high + 1) = 2 * 2 ^ high := by rw [pow_succ]; ring
    have below : 2 ^ high + m < 2 ^ (level + 1 + high) := by
      calc
        2 ^ high + m < 2 ^ (high + 1) := by omega
        _ ≤ 2 ^ (level + 1 + high) := Nat.pow_le_pow_right (by norm_num) (by omega)
    have left := @ih (by omega) (2 * m) (by rw [halves]; omega)
    have right := @ih (by omega) (2 * m + 1) (by rw [halves]; omega)
    rw [halves, double] at left right
    rw [heap.inner _ (by have := Nat.two_pow_pos high; omega) below,
      show 2 * (2 ^ high + m) = 2 * 2 ^ high + 2 * m by ring,
      show 2 * 2 ^ high + 2 * m + 1 = 2 * 2 ^ high + (2 * m + 1) by ring, left, right, root_succ]
    congr 2 <;> funext i <;> congr 1 <;> rw [pow_succ] <;> ring

theorem IsHeap.root_eq {depth : Nat} (heap : IsHeap node (2 ^ depth) leaves tree) :
    tree 1 = root node depth leaves := by
  have top := @IsHeap.subtree D node leaves tree depth heap depth le_rfl 0 (by simp)
  simpa using top

theorem climb_of_le (outside : index ≤ other) :
    climb node tree index other = tree other := by
  fun_induction climb node tree index with
  | case1 tree index above ih => rw [ih (by omega), recompute_of_ne (by omega)]
  | case2 => rfl

theorem climb_inner (elsewhere : ∀ k, 1 ≤ k → k < count → (∀ t, k ≠ index / 2 ^ (t + 1)) →
      tree k = node (tree (2 * k)) (tree (2 * k + 1))) :
    ∀ k, 1 ≤ k → k < count →
      climb node tree index k =
        node (climb node tree index (2 * k)) (climb node tree index (2 * k + 1)) := by
  fun_induction climb node tree index with
  | case1 tree index above ih =>
    refine ih fun k pos bound notAncestor => ?_
    rcases eq_or_ne k (index / 2) with rfl | different
    · exact recompute_self pos
    · -- Only the grandparent reads the recomputed parent.
      have leftKept : 2 * k ≠ index / 2 := fun child =>
        notAncestor 0 (by rw [pow_one]; omega)
      have rightKept : 2 * k + 1 ≠ index / 2 := fun child =>
        notAncestor 0 (by rw [pow_one]; omega)
      rw [recompute_of_ne different, recompute_of_ne leftKept, recompute_of_ne rightKept]
      refine elsewhere k pos bound fun t => ?_
      cases t with
      | zero => simpa using different
      | succ t =>
        have := notAncestor t
        rwa [Nat.div_div_eq_div_mul, ← pow_succ'] at this
  | case2 tree index top =>
    refine fun k pos bound => elsewhere k pos bound fun t => ?_
    have : index / 2 ^ (t + 1) = 0 := by
      refine Nat.div_eq_of_lt ?_
      calc
        index < 2 := by omega
        _ ≤ 2 ^ (t + 1) := Nat.le_self_pow (by omega) 2
    omega

theorem IsHeap.setLeaf (heap : IsHeap node count leaves tree) (bound : index < count) (leaf : D) :
    IsHeap node count (update leaves index leaf) (setLeaf node count tree index leaf) where
  leaf := fun i inRange => by
    rcases eq_or_ne i index with rfl | different
    · rw [Merkle.setLeaf, climb_of_le le_rfl, update_self, update_self]
    · rw [update_of_ne different, Merkle.setLeaf]
      have kept : climb node (update tree (count + index) leaf) (count + index)
          (count + i) = update tree (count + index) leaf (count + i) := by
        unfold climb
        split
        · rw [climb_of_le (by omega), recompute_of_ne (by omega)]
        · rfl
      rw [kept, update_of_ne (by omega)]
      exact heap.leaf i inRange
  inner := by
    refine climb_inner fun k pos below notAncestor => ?_
    have leftKept : 2 * k ≠ count + index := fun child =>
      notAncestor 0 (by rw [pow_one]; omega)
    have rightKept : 2 * k + 1 ≠ count + index := fun child =>
      notAncestor 0 (by rw [pow_one]; omega)
    rw [update_of_ne (by omega), update_of_ne leftKept,
      update_of_ne rightKept]
    exact heap.inner k pos below

end Merkle
