import Jetsam.State.Storage
import Jetsam.Merkle.Streaming
import Jetsam.Merkle.Heap

/-!
# The compact root cache

One root per segment and the tree over them. The root of a segment is streamed from its live slots.
-/

namespace Jetsam

open Control

variable {D : Type}

/-- The exact-state hashes, over an arbitrary type of digests. -/
structure StateHasher (D : Type) where
  slotLeafHash : SlotValue → D
  stateNodeHash : D → D → D
  /-- The all-zero digest that fills a fresh array. -/
  blank : D

namespace StateHasher

def zeroSlotRoot (hasher : StateHasher D) (depth : Nat) : D :=
  Merkle.zeroRoot hasher.stateNodeHash (hasher.slotLeafHash .empty) depth

/-- Root of the full tree over the leaf hashes of `2 ^ depth` slots. -/
def slotRoot (hasher : StateHasher D) (depth : Nat) (slots : Nat → SlotValue) : D :=
  Merkle.root hasher.stateNodeHash depth fun i => hasher.slotLeafHash (slots i)

/-- Root of one segment of a slot map. -/
def segmentRoot (hasher : StateHasher D) (logSize : Nat) (slots : Nat → SlotValue) (segId : Nat) :
    D :=
  hasher.slotRoot logSize fun i => slots (segId * 2 ^ logSize + i)

structure CollisionFree (hasher : StateHasher D) : Prop where
  leaf : Function.Injective hasher.slotLeafHash
  node : Function.Injective2 hasher.stateNodeHash

variable {hasher : StateHasher D}

variable {depth : Nat} {left right : Nat → SlotValue}

theorem slotRoot_congr (agree : ∀ i < 2 ^ depth, left i = right i) :
    hasher.slotRoot depth left = hasher.slotRoot depth right :=
  Merkle.root_congr fun i bound => by rw [agree i bound]

theorem slotRoot_empty (depth : Nat) :
    hasher.slotRoot depth (fun _ => .empty) = hasher.zeroSlotRoot depth :=
  Merkle.root_const _ depth

/-- The map of an expanded domain hashes to the old root over an empty right half. -/
theorem slotRoot_expand {slots : Nat → SlotValue}
    (upper : ∀ index, 2 ^ depth ≤ index → slots index = .empty) :
    hasher.slotRoot (depth + 1) slots =
      hasher.stateNodeHash (hasher.slotRoot depth slots) (hasher.zeroSlotRoot depth) :=
  Merkle.root_expand fun i _ => by rw [upper _ (by omega)]

theorem slotRoot_eq_segments (low high : Nat) (slots : Nat → SlotValue) :
    hasher.slotRoot (low + high) slots =
      Merkle.root hasher.stateNodeHash high (hasher.segmentRoot low slots) := by
  rw [slotRoot, Merkle.root_add]
  refine Merkle.root_congr fun block _ => ?_
  simp only [segmentRoot, slotRoot, mul_comm]

theorem CollisionFree.slotRoot_injective (free : hasher.CollisionFree)
    (roots : hasher.slotRoot depth left = hasher.slotRoot depth right) :
    ∀ i < 2 ^ depth, left i = right i :=
  fun i bound => free.leaf (Merkle.root_injective free.node roots i bound)

def slotWithUpdates (columns : Option SegmentColumns) (updates : Nat → Option SlotValue)
    (i : Nat) : SlotValue :=
  match updates i with
  | some value => value
  | none =>
    match columns with
    | none => .empty
    | some columns => columns.getD i .empty

/-- Root of a segment, streamed from its columns and local updates. The stream cannot fail. -/
def exactSegmentRootWithUpdates (hasher : StateHasher D) (logSize : Nat)
    (columns : Option SegmentColumns) (updates : Nat → Option SlotValue) : D :=
  (Merkle.Stream.sparseRoot hasher.stateNodeHash hasher.zeroSlotRoot logSize
    (fun i => !(slotWithUpdates columns updates i).isEmpty)
    (fun i => hasher.slotLeafHash (slotWithUpdates columns updates i))).getD hasher.blank

theorem exactSegmentRootWithUpdates_eq (hasher : StateHasher D) (logSize : Nat)
    (columns : Option SegmentColumns) (updates : Nat → Option SlotValue) :
    hasher.exactSegmentRootWithUpdates logSize columns updates =
      hasher.slotRoot logSize (slotWithUpdates columns updates) := by
  rw [exactSegmentRootWithUpdates,
    show hasher.zeroSlotRoot = Merkle.zeroRoot hasher.stateNodeHash
      (hasher.slotLeafHash .empty) from rfl,
    Merkle.Stream.sparseRoot_eq]
  · rfl
  · intro i vacant
    have empty : slotWithUpdates columns updates i = .empty := by simpa using vacant
    rw [empty]

end StateHasher

/-- Digests that record what was hashed. -/
inductive SymbolicDigest where
  | blank
  | leaf (slot : SlotValue)
  | node (left right : SymbolicDigest)
  deriving DecidableEq

/-- Hashing that forgets nothing. -/
def symbolicHasher : StateHasher SymbolicDigest := ⟨.leaf, .node, .blank⟩

theorem symbolicHasher_collisionFree : symbolicHasher.CollisionFree where
  leaf := fun _ _ equal => SymbolicDigest.leaf.inj equal
  node := fun _ _ _ _ equal => SymbolicDigest.node.inj equal

/-- Compact two-level exact-state root cache. -/
structure ExactSegmentRootCache (D : Type) where
  logSlots : Nat
  segmentCount : Nat
  segmentRoots : Nat → D
  tree : Nat → D

namespace ExactSegmentRootCache

def effectiveLogSeg (cache : ExactSegmentRootCache D) : Nat := min cache.logSlots logSegmentSize

/-- The tree over an array of segment roots. -/
def buildTree (hasher : StateHasher D) (count : Nat) (roots : Nat → D) : Nat → D :=
  Merkle.buildHeap hasher.stateNodeHash hasher.blank count roots

def empty (hasher : StateHasher D) (logSlots : Nat) : ExactSegmentRootCache D :=
  let logSeg := min logSlots logSegmentSize
  let count := 2 ^ (logSlots - logSeg)
  let roots := fun _ => hasher.zeroSlotRoot logSeg
  ⟨logSlots, count, roots, buildTree hasher count roots⟩

def root (cache : ExactSegmentRootCache D) : D :=
  if cache.segmentCount = 1 then cache.segmentRoots 0 else cache.tree 1

def setSegmentRoot (hasher : StateHasher D) (cache : ExactSegmentRootCache D) (segId : Nat)
    (root : D) : ExactSegmentRootCache D :=
  let roots := Function.update cache.segmentRoots segId root
  if cache.segmentCount = 1 then { cache with segmentRoots := roots }
  else
    { cache with
      segmentRoots := roots
      tree := Merkle.setLeaf hasher.stateNodeHash cache.segmentCount cache.tree segId root }

def expandOne (hasher : StateHasher D) (cache : ExactSegmentRootCache D) :
    ExactSegmentRootCache D :=
  if cache.logSlots + 1 ≤ logSegmentSize then
    let joined := hasher.stateNodeHash cache.root (hasher.zeroSlotRoot cache.logSlots)
    let roots := Function.update cache.segmentRoots 0 joined
    ⟨cache.logSlots + 1, cache.segmentCount, roots, buildTree hasher cache.segmentCount roots⟩
  else
    let count := cache.segmentCount * 2
    let roots := SegmentedFriState.resized cache.segmentCount cache.segmentRoots
      (hasher.zeroSlotRoot cache.effectiveLogSeg)
    ⟨cache.logSlots + 1, count, roots, buildTree hasher count roots⟩

/-- Fall back by one level; below the segment size the root is only a placeholder. -/
def shrinkOne (hasher : StateHasher D) (cache : ExactSegmentRootCache D) :
    ExactSegmentRootCache D :=
  let logSlots := cache.logSlots - 1
  if cache.logSlots ≤ logSegmentSize then
    let roots := fun _ => hasher.zeroSlotRoot logSlots
    ⟨logSlots, 1, roots, buildTree hasher 1 roots⟩
  else
    let count := cache.segmentCount / 2
    ⟨logSlots, count, cache.segmentRoots, buildTree hasher count cache.segmentRoots⟩

def shrinkTo (hasher : StateHasher D) (cache : ExactSegmentRootCache D) (target : Nat) :
    ExactSegmentRootCache D :=
  (shrinkOne hasher)^[cache.logSlots - target] cache

/-- The counts match the depth, and the tree is computed from the segment roots. -/
structure WellFormed (hasher : StateHasher D) (cache : ExactSegmentRootCache D) : Prop where
  count : cache.segmentCount = 2 ^ (cache.logSlots - cache.effectiveLogSeg)
  heap : cache.segmentCount ≠ 1 →
    Merkle.IsHeap hasher.stateNodeHash cache.segmentCount cache.segmentRoots cache.tree

variable {hasher : StateHasher D} {cache : ExactSegmentRootCache D}

theorem wellFormed_empty (hasher : StateHasher D) (logSlots : Nat) :
    (empty hasher logSlots).WellFormed hasher :=
  ⟨rfl, fun _ => Merkle.isHeap_buildHeap _⟩

theorem WellFormed.root_eq (wellFormed : cache.WellFormed hasher) :
    cache.root =
      Merkle.root hasher.stateNodeHash (cache.logSlots - cache.effectiveLogSeg)
        cache.segmentRoots := by
  unfold root
  split
  next single =>
    have level : cache.logSlots - cache.effectiveLogSeg = 0 := by
      have := wellFormed.count
      rw [single] at this
      exact (Nat.pow_eq_one.mp this.symm).resolve_left (by norm_num)
    rw [level, Merkle.root_zero]
  next several =>
    have heap := wellFormed.heap several
    rw [wellFormed.count] at heap
    exact heap.root_eq

theorem WellFormed.setSegmentRoot (wellFormed : cache.WellFormed hasher) {segId : Nat}
    (inRange : segId < cache.segmentCount) (root : D) :
    (cache.setSegmentRoot hasher segId root).WellFormed hasher := by
  unfold ExactSegmentRootCache.setSegmentRoot
  split_ifs with single
  · exact ⟨wellFormed.count, fun several => absurd single several⟩
  · exact ⟨wellFormed.count, fun several => (wellFormed.heap several).setLeaf inRange root⟩

@[simp]
theorem setSegmentRoot_logSlots (segId : Nat) (root : D) :
    (cache.setSegmentRoot hasher segId root).logSlots = cache.logSlots := by
  unfold setSegmentRoot
  split_ifs <;> rfl

@[simp]
theorem setSegmentRoot_segmentCount (segId : Nat) (root : D) :
    (cache.setSegmentRoot hasher segId root).segmentCount = cache.segmentCount := by
  unfold setSegmentRoot
  split_ifs <;> rfl

@[simp]
theorem setSegmentRoot_segmentRoots (segId : Nat) (root : D) :
    (cache.setSegmentRoot hasher segId root).segmentRoots =
      Function.update cache.segmentRoots segId root := by
  unfold setSegmentRoot
  split_ifs <;> rfl

@[simp]
theorem expandOne_logSlots : (cache.expandOne hasher).logSlots = cache.logSlots + 1 := by
  unfold expandOne
  split_ifs <;> rfl

theorem WellFormed.expandOne (wellFormed : cache.WellFormed hasher) :
    (cache.expandOne hasher).WellFormed hasher := by
  have count := wellFormed.count
  unfold ExactSegmentRootCache.expandOne
  split_ifs with small
  · refine ⟨?_, fun _ => Merkle.isHeap_buildHeap _⟩
    simp only [effectiveLogSeg] at count ⊢
    rw [count]
    congr 1
    omega
  · refine ⟨?_, fun _ => Merkle.isHeap_buildHeap _⟩
    simp only [effectiveLogSeg, logSegmentSize] at count small ⊢
    rw [count, ← pow_succ]
    congr 1
    omega

theorem expandOne_segmentRoots_small (small : cache.logSlots + 1 ≤ logSegmentSize) :
    (cache.expandOne hasher).segmentRoots 0 =
      hasher.stateNodeHash cache.root (hasher.zeroSlotRoot cache.logSlots) := by
  simp [expandOne, small]

theorem expandOne_segmentRoots_large (large : logSegmentSize ≤ cache.logSlots) (segId : Nat) :
    (cache.expandOne hasher).segmentRoots segId =
      if segId < cache.segmentCount then cache.segmentRoots segId
      else hasher.zeroSlotRoot logSegmentSize := by
  have notSmall : ¬ cache.logSlots + 1 ≤ logSegmentSize := by omega
  simp [expandOne, notSmall, SegmentedFriState.resized, effectiveLogSeg, large]

@[simp]
theorem shrinkOne_logSlots : (cache.shrinkOne hasher).logSlots = cache.logSlots - 1 := by
  simp only [shrinkOne]
  split_ifs <;> rfl

theorem WellFormed.shrinkOne (wellFormed : cache.WellFormed hasher) :
    (cache.shrinkOne hasher).WellFormed hasher := by
  have count := wellFormed.count
  simp only [ExactSegmentRootCache.shrinkOne]
  split_ifs with small
  · refine ⟨?_, fun _ => Merkle.isHeap_buildHeap _⟩
    simp only [effectiveLogSeg]
    rw [show cache.logSlots - 1 - min (cache.logSlots - 1) logSegmentSize = 0 by omega, pow_zero]
  · refine ⟨?_, fun _ => Merkle.isHeap_buildHeap _⟩
    simp only [effectiveLogSeg, logSegmentSize] at count small ⊢
    rw [count, show cache.logSlots - min cache.logSlots 16 =
      cache.logSlots - 1 - min (cache.logSlots - 1) 16 + 1 by omega, pow_succ,
      Nat.mul_div_cancel _ two_pos]

theorem shrinkOne_segmentRoots (large : logSegmentSize < cache.logSlots) :
    (cache.shrinkOne hasher).segmentRoots = cache.segmentRoots := by
  simp [shrinkOne, not_le.mpr large]

theorem WellFormed.shrinkTo (wellFormed : cache.WellFormed hasher) {target : Nat}
    (below : target ≤ cache.logSlots) :
    (cache.shrinkTo hasher target).WellFormed hasher ∧
      (cache.shrinkTo hasher target).logSlots = target ∧
      (logSegmentSize ≤ target →
        (cache.shrinkTo hasher target).segmentRoots = cache.segmentRoots) := by
  obtain ⟨steps, logSlots⟩ : ∃ steps, cache.logSlots = target + steps :=
    ⟨cache.logSlots - target, by omega⟩
  unfold ExactSegmentRootCache.shrinkTo
  rw [logSlots, Nat.add_sub_cancel_left]
  clear below
  induction steps generalizing cache with
  | zero => exact ⟨wellFormed, logSlots, fun _ => rfl⟩
  | succ steps ih =>
    obtain ⟨final, finalLog, finalRoots⟩ := ih wellFormed.shrinkOne
      (by rw [shrinkOne_logSlots]; omega)
    rw [Function.iterate_succ_apply]
    refine ⟨final, finalLog, fun large => ?_⟩
    rw [finalRoots large, shrinkOne_segmentRoots (by omega)]

end ExactSegmentRootCache
end Jetsam
