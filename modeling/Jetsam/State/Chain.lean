import Jetsam.State.RootCache

/-!
# Chain state

The slot storage with its exact root, the two consensus counters and the supply. Roots are refreshed
from the segments that changed, and evicted segments are reinstalled only against their cached root.
-/

namespace Jetsam

open Control

inductive ExactStateReadError where
  | evictedSegment (segId : Nat)
  | segmentRootMismatch (segId : Nat)
  deriving DecidableEq

inductive ApplyExactTransitionError where
  | slotOutOfRange
  | headerLogSlotsMismatch
  | exactStateRead (error : ExactStateReadError)
  | cachedRootMismatch
  | circulatingSupplyInvariant
  deriving DecidableEq

def supplyBound : Nat := 2 ^ 128

structure ChainState (D : Type) where
  state : SegmentedFriState
  utxoRoot : D
  activeSlotCount : Nat
  allocCounter : Nat
  circulatingSupply : Nat
  exactRoots : ExactSegmentRootCache D

namespace ChainState

variable {D : Type} (hasher : StateHasher D)

def withLogSlots (logSlots : Nat) : ChainState D where
  state := .newEmpty logSlots
  utxoRoot := hasher.zeroSlotRoot logSlots
  activeSlotCount := 0
  allocCounter := 0
  circulatingSupply := 0
  exactRoots := .empty hasher logSlots

def new : ChainState D := withLogSlots hasher stateLogSlots

/-- Supply after one entry of a batch; `previous` is read from the state before the batch. -/
def supplyStep (chain : ChainState D) (supply : Nat) (entry : Nat × SlotValue) : Option Nat :=
  if entry.1 < chain.state.numSlots ∧ chain.state.isEvicted (chain.state.segIdOf entry.1) then none
  else
    let previous :=
      if entry.1 < chain.state.numSlots then chain.state.slot entry.1 else SlotValue.empty
    if previous.amount.toNat ≤ supply then
      checkedAdd supplyBound (supply - previous.amount.toNat) entry.2.amount.toNat
    else none

/-- Supply after a batch of slot updates, the last write to a slot counting. -/
def supplyAfterSlotUpdates (chain : ChainState D) (updates : List (Nat × SlotValue)) :
    Option Nat :=
  (orderedMap updates).foldlM chain.supplyStep chain.circulatingSupply

def syncedRoots (chain : ChainState D) : ExactSegmentRootCache D :=
  let grown := (ExactSegmentRootCache.expandOne hasher)^[
    chain.state.logSlots - chain.exactRoots.logSlots] chain.exactRoots
  grown.shrinkTo hasher chain.state.logSlots

/-- Recompute the cached root of every stale segment from its columns. -/
def refreshSegments (state : SegmentedFriState) (cache : ExactSegmentRootCache D) :
    Except ExactStateReadError (ExactSegmentRootCache D) :=
  state.exactDirty.foldlM
    (fun cache segId => do
      require (segId ∉ state.evicted) (ExactStateReadError.evictedSegment segId)
      return cache.setSegmentRoot hasher segId (hasher.exactSegmentRootWithUpdates
        state.effectiveLogSegmentSize (state.tryGetSegmentColumns segId) fun _ => none))
    cache

/-- Refresh the stale subtree roots and return the exact root. -/
def tryStateRoot (chain : ChainState D) : Except ExactStateReadError (ChainState D × D) := do
  let cache ← refreshSegments hasher chain.state (chain.syncedRoots hasher)
  let root := cache.root
  return ({ chain with
    state := chain.state.clearExactDirty, exactRoots := cache, utxoRoot := root }, root)

/-- Reinstall an evicted segment whose columns match the cached count and root. -/
def restoreEvictedSegment [DecidableEq D] (chain : ChainState D) (segId : Nat)
    (columns : SegmentColumns) : Except ExactStateReadError (ChainState D) := do
  require (columns.length = chain.state.segmentSlotCount)
    (ExactStateReadError.segmentRootMismatch segId)
  require (chain.state.liveCounts segId = SegmentedFriState.countLive columns)
    (ExactStateReadError.segmentRootMismatch segId)
  let actual := hasher.exactSegmentRootWithUpdates chain.state.effectiveLogSegmentSize
    (some columns) fun _ => none
  require (segId < chain.exactRoots.segmentCount ∧ chain.exactRoots.segmentRoots segId = actual)
    (ExactStateReadError.segmentRootMismatch segId)
  return { chain with state := chain.state.restoreEvictedSegment segId columns }

/-- Grow the slot domain by one level, with the old root as the left child. -/
def expandOne [DecidableEq D] (chain : ChainState D) :
    Except StateResizeError (ChainState D) := do
  let logSlots := chain.state.logSlots
  let cacheWasCurrent := chain.state.exactDirty = [] ∧ chain.exactRoots.logSlots = logSlots ∧
    chain.exactRoots.root = chain.utxoRoot
  let expanded ← chain.state.expand
  return { chain with
    state := if cacheWasCurrent then expanded.clearExactDirty else expanded
    exactRoots := chain.exactRoots.expandOne hasher
    utxoRoot := hasher.stateNodeHash chain.utxoRoot (hasher.zeroSlotRoot logSlots) }

/-- Expansion of exact-only metadata. -/
def expandExactMetadataForReplay (chain : ChainState D) :
    Except StateResizeError (ChainState D) := do
  let expanded ← chain.state.expandExactMetadataForReplay
  return { chain with
    state := expanded
    exactRoots := chain.exactRoots.expandOne hasher
    utxoRoot :=
      hasher.stateNodeHash chain.utxoRoot (hasher.zeroSlotRoot chain.state.logSlots) }

/-- Local updates of one segment of the target domain. -/
def localUpdates (logSize segId : Nat) (updates : List (Nat × SlotValue)) (i : Nat) :
    Option SlotValue :=
  ((updates.reverse.find? fun update => update.1 == segId * 2 ^ logSize + i)).map Prod.snd

/-- Segments of the target domain that a batch touches, in increasing order. -/
def touchedSegments (logSize : Nat) (updates : List (Nat × SlotValue)) : List Nat :=
  (orderedMap (updates.map fun update => (update.1 / 2 ^ logSize, ()))).map Prod.fst

/-- Set the root of every segment that a batch touches. -/
def updateSegments (state : SegmentedFriState) (logSize : Nat)
    (updates : List (Nat × SlotValue)) (cache : ExactSegmentRootCache D) :
    Except ApplyExactTransitionError (ExactSegmentRootCache D) :=
  (touchedSegments logSize updates).foldlM
    (fun cache segId => do
      let columns ←
        if state.numSegments ≤ segId then pure none
        else do
          require (segId ∉ state.evicted)
            (ApplyExactTransitionError.exactStateRead (.evictedSegment segId))
          pure (state.tryGetSegmentColumns segId)
      return cache.setSegmentRoot hasher segId
        (hasher.exactSegmentRootWithUpdates logSize columns (localUpdates logSize segId updates)))
    cache

/-- Root of the child state after a batch of updates, derived without changing the state. -/
def exactUtxoRootAfterSlotUpdates [DecidableEq D] (chain : ChainState D) (logSlots : Nat)
    (updates : List (Nat × SlotValue)) : Except ApplyExactTransitionError D := do
  let current := chain.state.logSlots
  require (current ≤ logSlots ∧ logSlots ≤ current + 1)
    ApplyExactTransitionError.headerLogSlotsMismatch
  require (∀ update ∈ updates, update.1 < 2 ^ logSlots) ApplyExactTransitionError.slotOutOfRange
  let cache ← mapError ApplyExactTransitionError.exactStateRead
    (refreshSegments hasher chain.state chain.exactRoots)
  require (cache.root = chain.utxoRoot) ApplyExactTransitionError.cachedRootMismatch
  let cache := if current < logSlots then cache.expandOne hasher else cache
  let cache ← updateSegments hasher chain.state (min logSlots logSegmentSize) updates cache
  return cache.root

/-- The expansion before an installed batch: whole segments are added without storage work. -/
def expandToChild [DecidableEq D] (chain : ChainState D) (logSlots : Nat) :
    Except ApplyExactTransitionError (ChainState D) :=
  if logSlots = chain.state.logSlots + 1 then
    mapError (fun _ => ApplyExactTransitionError.headerLogSlotsMismatch)
      (if logSegmentSize ≤ chain.state.logSlots then chain.expandExactMetadataForReplay hasher
      else chain.expandOne hasher)
  else .ok chain

/-- Install a verified child: the root it commits to, its slot updates and its counters. -/
def applyVerifiedExactTransition [DecidableEq D] (chain : ChainState D) (logSlots : Nat)
    (childStateRoot : D) (updates : List (Nat × SlotValue)) (activeSlotCount allocCounter : Nat) :
    Except ApplyExactTransitionError (ChainState D × D) := do
  let current := chain.state.logSlots
  require (current ≤ logSlots ∧ logSlots ≤ current + 1)
    ApplyExactTransitionError.headerLogSlotsMismatch
  require (∀ update ∈ updates, update.1 < 2 ^ logSlots) ApplyExactTransitionError.slotOutOfRange
  let computed ← chain.exactUtxoRootAfterSlotUpdates hasher logSlots updates
  require (computed = childStateRoot) ApplyExactTransitionError.cachedRootMismatch
  let supply ← okOr (chain.supplyAfterSlotUpdates updates)
    ApplyExactTransitionError.circulatingSupplyInvariant
  let expanded ← chain.expandToChild hasher logSlots
  let written ← mapError (fun _ => ApplyExactTransitionError.slotOutOfRange)
    (expanded.state.applyDeltaUnrooted updates)
  let (rooted, appliedRoot) ← mapError ApplyExactTransitionError.exactStateRead
    ({ expanded with state := written }.tryStateRoot hasher)
  return ({ rooted with
    activeSlotCount := activeSlotCount
    allocCounter := allocCounter
    circulatingSupply := supply }, appliedRoot)

variable {chain after : ChainState D}

theorem expandOne_logSlots [DecidableEq D] {hasher : StateHasher D}
    (expanded : chain.expandOne hasher = .ok after) :
    after.state.logSlots = chain.state.logSlots + 1 := by
  simp only [expandOne, bind_eq_ok, pure_eq_ok] at expanded
  obtain ⟨grown, expanded, rfl⟩ := expanded
  have depth := SegmentedFriState.expand_logSlots expanded
  split <;> exact depth

theorem tryStateRoot_eq_ok {hasher : StateHasher D} {root : D}
    (read : chain.tryStateRoot hasher = .ok (after, root)) :
    after.utxoRoot = root ∧ after.state.logSlots = chain.state.logSlots := by
  simp only [tryStateRoot, bind_eq_ok, pure_eq_ok, Prod.mk.injEq] at read
  obtain ⟨cache, -, rfl, rfl⟩ := read
  exact ⟨rfl, rfl⟩

end ChainState
end Jetsam
