import Jetsam.Sparse.Multiproof
import Jetsam.State.Lifecycle

/-!
# Frontier of the compact state

The chain state answers a multiproof request from two levels: siblings inside a segment are streamed
from its columns, siblings above come from the cached segment roots. On a coherent sealed state each
answer is the subtree of the full tree.
-/

namespace Jetsam

open Control Merkle SegmentedFriState

variable {D : Type}

inductive ExactFrontierError
  | sparseMerkle (error : SparseMerkleError)
  | exactStateRead (error : ExactStateReadError)
  | compactRootMismatch
  deriving DecidableEq

/-- Node of the tree over the segment roots; level 0 holds the roots themselves. -/
def ExactSegmentRootCache.segmentNodeHash (cache : ExactSegmentRootCache D)
    (level nodeIndex : Nat) : Option D :=
  let count := cache.segmentCount
  if Nat.log2 count < level ∨ count / 2 ^ level ≤ nodeIndex then none
  else if level = 0 then some (cache.segmentRoots nodeIndex)
  else some (cache.tree (count / 2 ^ level + nodeIndex))

/-- Root of a subtree of one segment, streamed from its columns. -/
def StateHasher.exactLocalSubtreeRoot (hasher : StateHasher D) (columns : Option SegmentColumns)
    (localStart level : Nat) : D :=
  match columns with
  | none => hasher.zeroSlotRoot level
  | some columns =>
    (Stream.sparseRoot hasher.stateNodeHash hasher.zeroSlotRoot level
      (fun offset => !(columns.getD (localStart + offset) .empty).isEmpty)
      (fun offset => hasher.slotLeafHash (columns.getD (localStart + offset) .empty))).getD
        hasher.blank

namespace ChainState

variable (hasher : StateHasher D)

/-- One frontier sibling, from the segment roots or from the columns of its segment. -/
def frontierSibling (chain : ChainState D) (position : FrontierSiblingPosition) :
    Except ExactFrontierError D :=
  let effectiveLog := chain.state.effectiveLogSegmentSize
  if effectiveLog ≤ position.level then
    okOr (chain.exactRoots.segmentNodeHash (position.level - effectiveLog) position.nodeIndex)
      .compactRootMismatch
  else do
    let nodesPerSegment := 2 ^ (effectiveLog - position.level)
    let segId := position.nodeIndex / nodesPerSegment % 2 ^ 16
    require (segId ∉ chain.state.evicted) (.exactStateRead (.evictedSegment segId))
    let localStart := position.nodeIndex % nodesPerSegment * 2 ^ position.level
    pure (hasher.exactLocalSubtreeRoot (chain.state.tryGetSegmentColumns segId) localStart
      position.level)

/-- The exact-state sibling frontier of sorted touched slots. -/
def exactFrontierSiblings [DecidableEq D] (chain : ChainState D) (touched : List Nat)
    (depth : Nat) : Except ExactFrontierError (List D) := do
  require (depth = chain.state.logSlots ∧ chain.exactRoots.logSlots = chain.state.logSlots)
    (.sparseMerkle (.cacheDepthMismatch chain.exactRoots.logSlots depth))
  require (chain.state.exactDirty = [] ∧ chain.exactRoots.root = chain.utxoRoot)
    .compactRootMismatch
  let positions ← mapError .sparseMerkle (frontierSiblingPositions touched depth)
  positions.mapM (chain.frontierSibling hasher)

/-- Nothing is stale: the cache has the depth of the domain and its root is the stored one. -/
structure Sealed (chain : ChainState D) : Prop where
  synced : chain.Synced
  fresh : chain.state.exactDirty = []
  root : chain.exactRoots.root = chain.utxoRoot

variable {hasher} {chain : ChainState D} {slots : Nat → SlotValue}

theorem exactLocalSubtreeRoot_some (columns : SegmentColumns) (localStart level : Nat) :
    hasher.exactLocalSubtreeRoot (some columns) localStart level =
      hasher.slotRoot level fun offset => columns.getD (localStart + offset) .empty := by
  rw [StateHasher.exactLocalSubtreeRoot,
    show hasher.zeroSlotRoot = zeroRoot hasher.stateNodeHash (hasher.slotLeafHash .empty) from rfl,
    Stream.sparseRoot_eq]
  · rfl
  · intro offset vacant
    have empty : columns.getD (localStart + offset) .empty = .empty := by simpa using vacant
    rw [empty]

def slotLeaves (hasher : StateHasher D) (slots : Nat → SlotValue) (index : Nat) : D :=
  hasher.slotLeafHash (slots index)

/-- A node below the segment boundary lies at its local start in its segment. -/
theorem local_start {level log position : Nat} (below : level < log) :
    position / 2 ^ (log - level) * 2 ^ log + position % 2 ^ (log - level) * 2 ^ level =
      2 ^ level * position := by
  have power : 2 ^ log = 2 ^ (log - level) * 2 ^ level := by
    rw [← pow_add, Nat.sub_add_cancel below.le]
  rw [power, ← mul_assoc, ← add_mul, Nat.div_add_mod', mul_comm]

variable {level position : Nat}

theorem exactLocalSubtreeRoot_eq (holds : chain.state.Holds slots) {segId : Nat}
    (below : level < chain.state.effectiveLogSegmentSize)
    (segment : segId = position / 2 ^ (chain.state.effectiveLogSegmentSize - level))
    (resident : segId ∉ chain.state.evicted) :
    hasher.exactLocalSubtreeRoot (chain.state.tryGetSegmentColumns segId)
        (position % 2 ^ (chain.state.effectiveLogSegmentSize - level) * 2 ^ level) level =
      subtree hasher.stateNodeHash (slotLeaves hasher slots) level position := by
  have start := @local_start level chain.state.effectiveLogSegmentSize position below
  rw [← segment, ← segmentSlotCount_eq] at start
  have inside : ∀ offset < 2 ^ level,
      position % 2 ^ (chain.state.effectiveLogSegmentSize - level) * 2 ^ level + offset <
        chain.state.segmentSlotCount := by
    intro offset bound
    have node := Nat.mod_lt position
      (Nat.two_pow_pos (chain.state.effectiveLogSegmentSize - level))
    rw [segmentSlotCount_eq, ← Nat.sub_add_cancel below.le, pow_add, Nat.sub_add_cancel below.le]
    calc _ < (position % 2 ^ (chain.state.effectiveLogSegmentSize - level) + 1) * 2 ^ level := by
          rw [add_mul]
          omega
      _ ≤ _ := Nat.mul_le_mul_right _ node
  unfold tryGetSegmentColumns
  cases loaded : chain.state.segments segId with
  | none =>
    rw [StateHasher.exactLocalSubtreeRoot, ← StateHasher.slotRoot_empty]
    refine root_congr fun offset bound => congrArg hasher.slotLeafHash ?_
    have vacant := holds.vacant loaded resident _ (inside offset bound)
    rw [← add_assoc, start] at vacant
    exact vacant.symm
  | some columns =>
    rw [exactLocalSubtreeRoot_some, holds.resident segId columns loaded]
    refine root_congr fun offset bound => congrArg hasher.slotLeafHash ?_
    refine (getD_segmentOf slots segId (inside offset bound)).trans ?_
    rw [← add_assoc, start]

/-- A node above the segments is the root over the segments under it. -/
theorem subtree_above (logSize level position : Nat) :
    subtree hasher.stateNodeHash (slotLeaves hasher slots) (logSize + level) position =
      root hasher.stateNodeHash level fun block =>
        hasher.segmentRoot logSize slots (2 ^ level * position + block) := by
  rw [subtree, root_add]
  refine root_congr fun block _ => ?_
  refine root_congr fun i _ => ?_
  rw [pow_add]
  congr 1
  ring

/-- An upper sibling is found in the cache, and is the subtree of the full tree. -/
theorem Coherent.segmentNodeHash_eq (coherent : chain.Coherent hasher slots) (synced : chain.Synced)
    (fresh : chain.state.exactDirty = []) (above : chain.state.effectiveLogSegmentSize ≤ level)
    (below : level < chain.state.logSlots) (bound : position < 2 ^ (chain.state.logSlots - level)) :
    chain.exactRoots.segmentNodeHash (level - chain.state.effectiveLogSegmentSize) position =
      some (subtree hasher.stateNodeHash (slotLeaves hasher slots) level position) := by
  obtain ⟨upper, rfl⟩ := Nat.exists_eq_add_of_le above
  have count : chain.exactRoots.segmentCount =
      2 ^ (chain.state.logSlots - chain.state.effectiveLogSegmentSize) :=
    SameGeometry.segmentCount synced coherent.cache
  set high := chain.state.logSlots - chain.state.effectiveLogSegmentSize with highDef
  have upperLe : upper ≤ high := by omega
  have cut : chain.exactRoots.segmentCount / 2 ^ upper = 2 ^ (high - upper) := by
    rw [count, Nat.pow_div upperLe (by norm_num)]
  rw [show chain.state.logSlots - (chain.state.effectiveLogSegmentSize + upper) = high - upper by
    omega] at bound
  have roots : ∀ segId < 2 ^ high, chain.exactRoots.segmentRoots segId =
      hasher.segmentRoot chain.state.effectiveLogSegmentSize slots segId := fun segId inRange =>
    coherent.roots segId inRange (by simp [fresh])
  rw [Nat.add_sub_cancel_left, ExactSegmentRootCache.segmentNodeHash, cut, count,
    Nat.log2_two_pow, if_neg (by omega), subtree_above]
  split_ifs with bottom
  · subst bottom
    rw [roots position (by simpa using bound)]
    simp
  · have several : chain.exactRoots.segmentCount ≠ 1 := by
      rw [count]
      exact (Nat.one_lt_two_pow (by omega)).ne'
    have heap := coherent.cache.heap several
    rw [count] at heap
    rw [heap.subtree upperLe bound]
    refine congrArg some (root_congr fun block inside => roots _ ?_)
    calc 2 ^ upper * position + block < 2 ^ upper * (position + 1) := by
          rw [mul_add]
          omega
      _ ≤ 2 ^ upper * 2 ^ (high - upper) := Nat.mul_le_mul_left _ bound
      _ = 2 ^ high := by rw [← pow_add, Nat.add_sub_cancel' upperLe]

def nodeSegment (chain : ChainState D) (place : Nat × Nat) : Nat :=
  place.2 / 2 ^ (chain.state.effectiveLogSegmentSize - place.1)

/-- The frontier node can be read: above the boundary always, below it from a resident segment. -/
def Readable (chain : ChainState D) (place : Nat × Nat) : Prop :=
  place.1 < chain.state.effectiveLogSegmentSize → chain.nodeSegment place ∉ chain.state.evicted

variable {place : Nat × Nat}

theorem nodeSegment_lt (shallow : chain.state.logSlots ≤ 32)
    (below : place.1 < chain.state.effectiveLogSegmentSize)
    (bound : place.2 < 2 ^ (chain.state.logSlots - place.1)) :
    chain.nodeSegment place < 2 ^ 16 := by
  have few : chain.state.logSlots - chain.state.effectiveLogSegmentSize ≤ 16 := by
    rw [effectiveLogSegmentSize, logSegmentSize]
    omega
  rw [nodeSegment, Nat.div_lt_iff_lt_mul (Nat.two_pow_pos _), ← pow_add]
  exact bound.trans_le (Nat.pow_le_pow_right (by norm_num) (by omega))

theorem Coherent.frontierSibling_eq_ok (coherent : chain.Coherent hasher slots)
    (synced : chain.Synced) (fresh : chain.state.exactDirty = [])
    (shallow : chain.state.logSlots ≤ 32) (below : place.1 < chain.state.logSlots)
    (bound : place.2 < 2 ^ (chain.state.logSlots - place.1)) {digest : D} :
    chain.frontierSibling hasher (toPosition place) = .ok digest ↔
      chain.Readable place ∧
        subtree hasher.stateNodeHash (slotLeaves hasher slots) place.1 place.2 = digest := by
  rw [frontierSibling, toPosition, Readable]
  dsimp only
  split_ifs with above
  · rw [coherent.segmentNodeHash_eq synced fresh above below bound, okOr_eq_ok, Option.some.injEq]
    exact ⟨fun same => ⟨fun inside => absurd above (by omega), same⟩, fun both => both.2⟩
  · have inside := not_le.mp above
    have segment : place.2 / 2 ^ (chain.state.effectiveLogSegmentSize - place.1) % 2 ^ 16 =
        chain.nodeSegment place := Nat.mod_eq_of_lt (nodeSegment_lt shallow inside bound)
    rw [segment, require_bind_eq_ok, pure_eq_ok]
    constructor
    · rintro ⟨resident, rfl⟩
      exact ⟨fun _ => resident, (exactLocalSubtreeRoot_eq coherent.holds inside rfl resident).symm⟩
    · rintro ⟨resident, rfl⟩
      exact ⟨resident inside, exactLocalSubtreeRoot_eq coherent.holds inside rfl (resident inside)⟩

/-- A frontier node below the boundary lies in the segment of a touched slot. -/
theorem nodeSegment_touched {touched : List Nat} {depth : Nat}
    (mem : place ∈ frontierNodes touched depth)
    (below : place.1 < chain.state.effectiveLogSegmentSize) :
    ∃ index ∈ touched, chain.nodeSegment place = chain.state.segIdOf index := by
  obtain ⟨-, parent, known, missing⟩ := mem_frontier.mp mem
  obtain ⟨index, inside, rfl⟩ := mem_knownAt.mp known
  have half := (missingChild_cases missing).2
  refine ⟨index, inside, ?_⟩
  obtain ⟨rest, size⟩ := Nat.exists_eq_add_of_lt below
  rw [nodeSegment, segIdOf, segmentSlotCount_eq, size,
    show place.1 + rest + 1 - place.1 = 1 + rest by omega, pow_add, pow_one,
    ← Nat.div_div_eq_div_mul, half, Nat.div_div_eq_div_mul, ← pow_add]
  congr 2
  omega

/-- The frontier of a coherent state is answered exactly when it is sealed and every node can be
read. -/
theorem Coherent.exactFrontierSiblings_eq_ok [DecidableEq D]
    (coherent : chain.Coherent hasher slots) {touched : List Nat}
    (set : TouchedSet chain.state.logSlots touched) {depth : Nat} {siblings : List D} :
    chain.exactFrontierSiblings hasher touched depth = .ok siblings ↔
      depth = chain.state.logSlots ∧ chain.Sealed ∧
        (∀ place ∈ frontierNodes touched chain.state.logSlots, chain.Readable place) ∧
        ((frontierNodes touched chain.state.logSlots).map fun place =>
          subtree hasher.stateNodeHash (slotLeaves hasher slots) place.1 place.2) = siblings := by
  have answers : chain.Synced → chain.state.exactDirty = [] →
      (((frontierNodes touched chain.state.logSlots).map toPosition).mapM
          (chain.frontierSibling hasher) = .ok siblings ↔
        (∀ place ∈ frontierNodes touched chain.state.logSlots, chain.Readable place) ∧
          ((frontierNodes touched chain.state.logSlots).map fun place =>
            subtree hasher.stateNodeHash (slotLeaves hasher slots) place.1 place.2) =
              siblings) := by
    intro synced fresh
    rw [List.mapM_map]
    refine mapM_eq_ok_of_mem fun place member digest => ?_
    exact coherent.frontierSibling_eq_ok synced fresh set.depth_le (mem_frontier.mp member).1
      (frontier_lt set.inRange member)
  simp only [exactFrontierSiblings, bind_eq_ok, require_eq_ok, exists_const, mapError_eq_ok]
  constructor
  · rintro ⟨⟨rfl, synced⟩, ⟨fresh, root⟩, positions, found, read⟩
    rw [set.frontierSiblingPositions] at found
    obtain rfl := Except.ok.inj found
    exact ⟨rfl, ⟨synced, fresh, root⟩, (answers synced fresh).mp read⟩
  · rintro ⟨rfl, ⟨synced, fresh, root⟩, read⟩
    exact ⟨⟨rfl, synced⟩, ⟨fresh, root⟩, _, set.frontierSiblingPositions,
      (answers synced fresh).mpr read⟩

end ChainState

namespace ShelvedState

variable {hasher : StateHasher D} [DecidableEq D]

omit [DecidableEq D] in
theorem frontierSibling_isOk {chain : ChainState D} (nothing : chain.state.evicted = [])
    {position : FrontierSiblingPosition}
    (upper : chain.state.effectiveLogSegmentSize ≤ position.level →
      ∃ digest, chain.exactRoots.segmentNodeHash
        (position.level - chain.state.effectiveLogSegmentSize) position.nodeIndex = some digest) :
    ∃ digest, chain.frontierSibling hasher position = .ok digest := by
  unfold ChainState.frontierSibling
  dsimp only
  split_ifs with above
  · obtain ⟨digest, found⟩ := upper above
    exact ⟨digest, okOr_eq_ok.mpr found⟩
  · exact ⟨_, require_bind_eq_ok.mpr ⟨by simp [nothing], rfl⟩⟩

theorem frontier_zero_upper {place : Nat × Nat} (mem : place ∈ frontierNodes [0] 17)
    (high : 16 ≤ place.1) : place = (16, 1) := by
  have below := (mem_frontier.mp mem).1
  have bound := frontier_lt (show ∀ index ∈ [0], index < 2 ^ 17 by decide) mem
  have unknown := frontier_not_known mem
  obtain ⟨level, position⟩ := place
  obtain rfl : level = 16 := by
    omega
  have nonzero : position ≠ 0 := fun zero =>
    unknown (mem_knownAt.mpr ⟨0, by simp, by simp [zero]⟩)
  norm_num at bound
  rw [show position = 1 by omega]

theorem mem_frontier_zero : (16, 1) ∈ frontierNodes [0] 17 := by
  have known : ∀ level, 0 ∈ knownAt [0] level := fun level =>
    mem_knownAt.mpr ⟨0, by simp, by simp⟩
  have absent : 1 ∉ knownAt [0] 16 := by
    rw [mem_knownAt]
    simp
  exact mem_frontier_of_child (by norm_num) (known 17) (by norm_num) absent

end ShelvedState

end Jetsam
