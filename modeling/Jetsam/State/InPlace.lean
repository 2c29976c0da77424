import Jetsam.State.ExactTransition
import Jetsam.Control.InPlace

/-!
# State calls as they mutate

The calls that take the chain state by mutable reference, assignment by assignment. An installed
transition refuses only while nothing has been assigned yet, because its checks exclude every later
refusal.
-/

namespace Jetsam

open Control SegmentedFriState List

variable {deltas : List (Nat × SlotValue)}

namespace ChainState

variable {D : Type} (hasher : StateHasher D)

def updateState {ε : Type} (change : SegmentedFriState → SegmentedFriState) :
    InPlace (ChainState D) ε Unit :=
  .update fun chain => { chain with state := change chain.state }

def applyDeltaUnrootedInPlace (deltas : List (Nat × SlotValue)) :
    InPlace (ChainState D) StateError Unit := do
  let chain ← .get
  .lift (require (∀ delta ∈ deltas, delta.1 < chain.state.numSlots) StateError.slotOutOfRange)
  .each (fun delta => updateState fun state => state.writeSlot delta.1 delta.2) deltas

def refreshSegmentInPlace (segId : Nat) : InPlace (ChainState D) ExactStateReadError Unit := do
  let chain ← .get
  .lift (require (segId ∉ chain.state.evicted) (ExactStateReadError.evictedSegment segId))
  .update fun chain => { chain with
    exactRoots := chain.exactRoots.setSegmentRoot hasher segId (hasher.exactSegmentRootWithUpdates
      chain.state.effectiveLogSegmentSize (chain.state.tryGetSegmentColumns segId) fun _ => none) }

/-- `try_state_root`; a refusal leaves the roots refreshed so far. -/
def tryStateRootInPlace : InPlace (ChainState D) ExactStateReadError D := do
  .update fun chain => { chain with exactRoots := chain.syncedRoots hasher }
  let chain ← .get
  .each (refreshSegmentInPlace hasher) chain.state.exactDirty
  updateState clearExactDirty
  .update fun chain => { chain with utxoRoot := chain.exactRoots.root }
  let chain ← .get
  return chain.utxoRoot

/-- `expand` on the storage: a small domain is flushed, which panics on an evicted commitment. -/
def expandStateInPlace {ε : Type} : InPlace (ChainState D) ε Unit := do
  let chain ← .get
  if chain.state.logSlots + 1 ≤ logSegmentSize then
    updateState fun state => { state with
      logSlots := state.logSlots + 1
      segments := Function.update state.segments 0
        ((state.segments 0).map (· ++ List.replicate (2 ^ state.logSlots) SlotValue.empty))
      dirty := state.dirty.insert 0
      exactDirty := state.exactDirty.insert 0 }
    .assert fun chain => decide (∀ segId ∈ chain.state.dirty, segId ∉ chain.state.evicted)
    updateState fun state => { state with dirty := [] }
  else
    updateState fun state => { state with
      logSlots := state.logSlots + 1
      segments := resized state.numSegments state.segments none
      liveCounts := resized state.numSegments state.liveCounts 0 }

def expandOneInPlace [DecidableEq D] {ε : Type} : InPlace (ChainState D) ε Unit := do
  let old ← .get
  expandStateInPlace
  .update fun chain => { chain with exactRoots := chain.exactRoots.expandOne hasher }
  .update fun chain => { chain with
    utxoRoot := hasher.stateNodeHash chain.utxoRoot (hasher.zeroSlotRoot old.state.logSlots) }
  updateState fun state =>
    if old.state.exactDirty = [] ∧ old.exactRoots.logSlots = old.state.logSlots ∧
        old.exactRoots.root = old.utxoRoot then state.clearExactDirty
    else state

/-- `expand_exact_metadata_for_replay`: the only refusal comes before the first assignment. -/
def expandExactMetadataForReplayInPlace : InPlace (ChainState D) StateResizeError Unit := do
  let old ← .get
  .lift (require
    (old.state.effectiveLogSegmentSize = logSegmentSize ∧ old.state.logSlots < logSlotsMax)
    (StateResizeError.invalidTarget old.state.logSlots (old.state.logSlots + 1)))
  updateState fun state => { state with
    logSlots := state.logSlots + 1
    segments := resized state.numSegments state.segments none
    liveCounts := resized state.numSegments state.liveCounts 0 }
  .update fun chain => { chain with exactRoots := chain.exactRoots.expandOne hasher }
  .update fun chain => { chain with
    utxoRoot := hasher.stateNodeHash chain.utxoRoot (hasher.zeroSlotRoot old.state.logSlots) }

def expandToChildInPlace [DecidableEq D] (logSlots : Nat) :
    InPlace (ChainState D) ApplyExactTransitionError Unit := do
  let chain ← .get
  if logSlots = chain.state.logSlots + 1 then
    if logSegmentSize ≤ chain.state.logSlots then
      (expandExactMetadataForReplayInPlace hasher).mapErr
        fun _ => ApplyExactTransitionError.headerLogSlotsMismatch
    else expandOneInPlace hasher
  else pure ()

/-- The part of `apply_verified_exact_transition` that assigns. -/
def installExactTransition [DecidableEq D] (logSlots : Nat) (updates : List (Nat × SlotValue))
    (activeSlotCount allocCounter supply : Nat) :
    InPlace (ChainState D) ApplyExactTransitionError D := do
  expandToChildInPlace hasher logSlots
  (applyDeltaUnrootedInPlace updates).mapErr fun _ => ApplyExactTransitionError.slotOutOfRange
  let appliedRoot ← (tryStateRootInPlace hasher).mapErr ApplyExactTransitionError.exactStateRead
  .update fun chain => { chain with activeSlotCount := activeSlotCount }
  .update fun chain => { chain with allocCounter := allocCounter }
  .update fun chain => { chain with circulatingSupply := supply }
  return appliedRoot

def applyVerifiedExactTransitionInPlace [DecidableEq D] (logSlots : Nat) (childStateRoot : D)
    (updates : List (Nat × SlotValue)) (activeSlotCount allocCounter : Nat) :
    InPlace (ChainState D) ApplyExactTransitionError D := do
  let chain ← .get
  .lift (require (chain.state.logSlots ≤ logSlots ∧ logSlots ≤ chain.state.logSlots + 1)
    ApplyExactTransitionError.headerLogSlotsMismatch)
  .lift (require (∀ update ∈ updates, update.1 < 2 ^ logSlots)
    ApplyExactTransitionError.slotOutOfRange)
  let computed ← .lift (chain.exactUtxoRootAfterSlotUpdates hasher logSlots updates)
  .lift (require (computed = childStateRoot) ApplyExactTransitionError.cachedRootMismatch)
  let supply ← .lift (okOr (chain.supplyAfterSlotUpdates updates)
    ApplyExactTransitionError.circulatingSupplyInvariant)
  installExactTransition hasher logSlots updates activeSlotCount allocCounter supply

def applyTxCheckedDeferredRootInPlace (body : TxBody) (mintHeight : Option Nat) :
    InPlace (ChainState D) ApplyError Unit := do
  let chain ← .get
  .lift (require (body.isCoinbase = true → mintHeight.isSome) .coinbaseMintHeightMissing)
  .lift (requireNone (firstRepeat [] body.inputSlots) fun _ => .unknownOrSpentInput)
  .lift (requireFresh (fun _ => .duplicateOutputSlot) (fun _ => .inputOutputSlotOverlap)
    body.inputSlots [] body.outputSlots)
  let spends ← .lift (body.liveInputs.mapM (chain.spendDelta body))
  let activeAfterSpends ← .lift (okOr (checkedSub chain.activeSlotCount body.liveInputCount)
    .activeSlotCountUnderflow)
  let activeAfter ← .lift (okOr (checkedAdd u64Bound activeAfterSpends body.liveOutputCount)
    .activeSlotCountOverflow)
  let finalAllocCounter ← .lift (okOr
    (checkedAdd u64Bound chain.allocCounter body.liveOutputCount) .allocCounterOverflow)
  .lift (require (isCoinbaseCreationId (BitVec.ofNat 64 finalAllocCounter) = false)
    .allocCounterOverflow)
  let mints ← .lift (chain.mintDeltas body mintHeight chain.allocCounter body.liveOutputs)
  let deltas := spends ++ mints
  let supply ← .lift (okOr (chain.supplyAfterSlotUpdates deltas) .circulatingSupplyInvariant)
  (applyDeltaUnrootedInPlace deltas).expect
  .update fun chain => { chain with activeSlotCount := activeAfter }
  .update fun chain => { chain with allocCounter := finalAllocCounter }
  .update fun chain => { chain with circulatingSupply := supply }

/-- `apply_tx_inner`: the body is applied to a copy. -/
def applyTxInner (body : TxBody) (blockHeight : Option Nat) :
    InPlace (ChainState D) ApplyError D :=
  .onClone do
    applyTxCheckedDeferredRootInPlace body blockHeight
    (tryStateRootInPlace hasher).mapErr fun _ => .exactStateUnavailable

/-- Apply a user body to the state; a coinbase body needs the block context. -/
def applyTx (body : TxBody) : InPlace (ChainState D) ApplyError D := do
  .lift (require (body.isCoinbase = false) .coinbaseMintHeightMissing)
  applyTxInner hasher body none

def applyTxAt (body : TxBody) (blockHeight : Nat) : InPlace (ChainState D) ApplyError D :=
  applyTxInner hasher body (some blockHeight)

section Returns

variable {hasher : StateHasher D} {chain after : ChainState D}

variable {ε : Type} {done : Unit}

@[simp]
theorem updateState_returns {change : SegmentedFriState → SegmentedFriState} :
    (updateState change : InPlace (ChainState D) ε Unit) chain = (.ok done, after) ↔
      { chain with state := change chain.state } = after :=
  InPlace.update_returns

theorem each_writeSlot_returns :
    (InPlace.each (fun delta => updateState fun state => state.writeSlot delta.1 delta.2) deltas :
      InPlace (ChainState D) ε Unit) chain = (.ok done, after) ↔
      { chain with
        state := deltas.foldl (fun state delta => state.writeSlot delta.1 delta.2) chain.state } =
        after := by
  induction deltas generalizing chain with
  | nil => simp [InPlace.each]
  | cons delta deltas ih =>
    simp [InPlace.each, ih]

theorem applyDeltaUnrootedInPlace_returns :
    applyDeltaUnrootedInPlace deltas chain = (.ok done, after) ↔
      ∃ written, chain.state.applyDeltaUnrooted deltas = .ok written ∧
        { chain with state := written } = after := by
  simp only [applyDeltaUnrootedInPlace, applyDeltaUnrooted, InPlace.bind_returns,
    InPlace.get_returns, InPlace.lift_returns, each_writeSlot_returns, bind_eq_ok, require_eq_ok,
    pure_eq_ok, exists_const, exists_eq_left', and_assoc, exists_and_left]

theorem expandStateInPlace_returns :
    (expandStateInPlace : InPlace (ChainState D) ε Unit) chain = (.ok done, after) ↔
      ∃ grown, chain.state.expand = .ok grown ∧ { chain with state := grown } = after := by
  by_cases small : chain.state.logSlots + 1 ≤ logSegmentSize
  · simp only [expandStateInPlace, expand, flushAllDirty, InPlace.bind_returns, InPlace.get_returns,
      exists_const, exists_eq_left', and_assoc, exists_and_left, if_pos small, updateState_returns,
      InPlace.assert_returns, bind_eq_ok, require_eq_ok, pure_eq_ok, decide_eq_true_eq]
  · simp only [expandStateInPlace, expand, InPlace.bind_returns, InPlace.get_returns,
      exists_eq_left', and_assoc, exists_and_left, if_neg small, updateState_returns,
      Except.ok.injEq]

theorem expandOneInPlace_returns [DecidableEq D] :
    (expandOneInPlace hasher : InPlace (ChainState D) ε Unit) chain = (.ok done, after) ↔
      chain.expandOne hasher = .ok after := by
  simp only [expandOneInPlace, ChainState.expandOne, InPlace.bind_returns, InPlace.get_returns,
    InPlace.update_returns, updateState_returns, expandStateInPlace_returns, bind_eq_ok, pure_eq_ok,
    exists_const, exists_eq_left', and_assoc, exists_and_left, exists_exists_and_eq_and]

theorem expandExactMetadataForReplayInPlace_returns :
    expandExactMetadataForReplayInPlace hasher chain = (.ok done, after) ↔
      chain.expandExactMetadataForReplay hasher = .ok after := by
  simp only [expandExactMetadataForReplayInPlace, ChainState.expandExactMetadataForReplay,
    SegmentedFriState.expandExactMetadataForReplay, InPlace.bind_returns, InPlace.get_returns,
    InPlace.lift_returns, InPlace.update_returns, updateState_returns, bind_eq_ok, require_eq_ok,
    pure_eq_ok, exists_const, exists_eq_left', and_assoc, exists_and_left]

theorem expandToChildInPlace_returns [DecidableEq D] {logSlots : Nat} :
    expandToChildInPlace hasher logSlots chain = (.ok done, after) ↔
      chain.expandToChild hasher logSlots = .ok after := by
  simp only [expandToChildInPlace, expandToChild, InPlace.bind_returns, InPlace.get_returns,
    and_assoc, exists_and_left, exists_eq_left']
  by_cases grows : logSlots = chain.state.logSlots + 1
  · by_cases large : logSegmentSize ≤ chain.state.logSlots
    · rw [if_pos grows, if_pos grows, if_pos large, if_pos large, InPlace.mapErr_returns,
        mapError_eq_ok, expandExactMetadataForReplayInPlace_returns]
    · rw [if_pos grows, if_pos grows, if_neg large, if_neg large, mapError_eq_ok,
        expandOneInPlace_returns]
  · rw [if_neg grows, if_neg grows, InPlace.pure_returns, Except.ok.injEq]
    exact and_iff_right rfl

end Returns

end ChainState

variable {segId : Nat}

namespace SegmentedFriState

/-- Every stale subtree root can be recomputed. -/
def Refreshable (state : SegmentedFriState) : Prop :=
  ∀ segId ∈ state.exactDirty, segId ∉ state.evicted

/-- A write to the segment finds its columns, or a segment that it materialises. -/
def Writable (state : SegmentedFriState) (segId : Nat) : Prop :=
  segId ∉ state.evicted ∨ state.segments segId = none

variable {state : SegmentedFriState} {index : Nat} {value : SlotValue}

theorem segIdOf_writeSlot (other : Nat) :
    (state.writeSlot index value).segIdOf other = state.segIdOf other := by
  simp only [segIdOf, segmentSlotCount, effectiveLogSegmentSize, writeSlot_logSlots]

theorem place_residency {index : Nat} {value : SlotValue} (state : SegmentedFriState) (segId : Nat)
    (columns : SegmentColumns) (old : SlotValue) :
    (∀ other ∈ (writeSlot.place index value state segId columns old).evicted,
        other ∈ state.evicted) ∧
      (∀ other ∈ (writeSlot.place index value state segId columns old).exactDirty,
        other ∈ state.exactDirty ∨ other = segId) ∧
      ∀ other, other ≠ segId →
        (writeSlot.place index value state segId columns old).segments other =
          state.segments other := by
  refine ⟨fun other member => ?_, fun other member => ?_, fun other different => ?_⟩
  · simp only [writeSlot.place, markChanged] at member
    split at member
    · exact mem_of_mem_filter member
    · exact member
  · exact (mem_insert_iff.mp member).symm
  · exact Function.update_of_ne different _ _

theorem writeSlot_residency :
    (∀ other ∈ (state.writeSlot index value).evicted, other ∈ state.evicted) ∧
      (∀ other ∈ (state.writeSlot index value).exactDirty,
        other ∈ state.exactDirty ∨ other = state.segIdOf index) ∧
      (∀ other, other ≠ state.segIdOf index →
        (state.writeSlot index value).segments other = state.segments other) ∧
      (state.Writable (state.segIdOf index) → state.writeSlot index value = state ∨
        state.segIdOf index ∉ (state.writeSlot index value).evicted) := by
  rw [writeSlot]
  split
  · exact ⟨fun _ => id, fun _ => .inl, fun _ _ => rfl, fun _ => .inl rfl⟩
  · split
    · split
      · exact ⟨fun _ => id, fun _ => .inl, fun _ _ => rfl, fun _ => .inl rfl⟩
      · have gone : state.segIdOf index ∉ state.evicted.filter (· ≠ state.segIdOf index) := by simp
        obtain ⟨shelved, stale, kept⟩ := @place_residency index value
          { state with evicted := state.evicted.filter (· ≠ state.segIdOf index) }
          (state.segIdOf index) (List.replicate state.segmentSlotCount .empty) (state.slot index)
        exact ⟨fun other member => mem_of_mem_filter (shelved other member), stale, kept,
          fun _ => .inr fun member => gone (shelved _ member)⟩
    · rename_i columns resident
      obtain ⟨shelved, stale, kept⟩ := @place_residency index value state
        (state.segIdOf index) columns (state.slot index)
      refine ⟨shelved, stale, kept, fun writable => .inr fun member => ?_⟩
      rcases writable with absent | missing
      · exact absent (shelved _ member)
      · exact absurd (resident.symm.trans missing) (Option.some_ne_none columns)

theorem writeSlot_refreshable (refreshable : state.Refreshable)
    (writable : state.Writable (state.segIdOf index)) :
    (state.writeSlot index value).Refreshable := by
  obtain ⟨shelved, stale, -, touched⟩ := @writeSlot_residency state index value
  rcases touched writable with same | resident
  · rw [same]
    exact refreshable
  · intro other mem evicted
    rcases stale other mem with before | rfl
    · exact refreshable other before (shelved other evicted)
    · exact resident evicted

theorem writeSlot_writable (writable : state.Writable segId) :
    (state.writeSlot index value).Writable segId := by
  obtain ⟨shelved, -, kept, touched⟩ := @writeSlot_residency state index value
  rcases eq_or_ne segId (state.segIdOf index) with rfl | different
  · rcases touched writable with same | resident
    · rw [same]
      exact writable
    · exact .inl resident
  · rcases writable with absent | missing
    · exact .inl fun evicted => absent (shelved segId evicted)
    · exact .inr ((kept segId different).trans missing)

/-- A batch of writes to writable segments leaves every stale root recomputable. -/
theorem foldl_writeSlot_refreshable (refreshable : state.Refreshable)
    (writable : ∀ delta ∈ deltas, state.Writable (state.segIdOf delta.1)) :
    (deltas.foldl (fun state delta => state.writeSlot delta.1 delta.2) state).Refreshable := by
  induction deltas generalizing state with
  | nil => exact refreshable
  | cons delta deltas ih =>
    obtain ⟨first, rest⟩ := forall_mem_cons.mp writable
    apply ih (writeSlot_refreshable refreshable first)
    intro other mem
    rw [segIdOf_writeSlot]
    exact writeSlot_writable (rest other mem)

end SegmentedFriState

namespace ChainState

variable {D : Type} {hasher : StateHasher D} {chain : ChainState D}

theorem applyDeltaUnrootedInPlace_infallible
    (inRange : ∀ delta ∈ deltas, delta.1 < chain.state.numSlots) :
    (applyDeltaUnrootedInPlace deltas).Infallible chain := by
  apply InPlace.Infallible.require_bind inRange
  exact @InPlace.each_infallible _ _ _ _ _ (fun _ => True) _
    (fun _ _ _ _ => InPlace.update_infallible _) (fun _ _ _ _ _ _ => trivial) trivial

theorem refreshSegmentInPlace_infallible (resident : segId ∉ chain.state.evicted) :
    (refreshSegmentInPlace hasher segId).Infallible chain := by
  apply InPlace.Infallible.require_bind resident
  exact InPlace.update_infallible _

theorem refreshSegmentInPlace_state {after : ChainState D}
    (returned : refreshSegmentInPlace hasher segId chain = (.ok (), after)) :
    after.state = chain.state := by
  simp only [refreshSegmentInPlace, InPlace.bind_returns, InPlace.get_returns, InPlace.lift_returns,
    InPlace.update_returns, exists_and_left, exists_eq_left', and_assoc] at returned
  obtain ⟨_, -, rfl⟩ := returned
  rfl

theorem tryStateRootInPlace_infallible (refreshable : chain.state.Refreshable) :
    (tryStateRootInPlace hasher).Infallible chain := by
  apply InPlace.Infallible.bind (InPlace.update_infallible _)
  intro _ synced syncedEq
  obtain rfl := InPlace.update_returns.mp syncedEq
  apply InPlace.Infallible.get_bind
  apply InPlace.Infallible.bind
  · -- The passes leave the storage alone, so what was resident stays resident.
    apply @InPlace.each_infallible _ _ _ _ _ fun middle => middle.state = chain.state
    · intro segId stale middle same
      exact refreshSegmentInPlace_infallible (same ▸ refreshable segId stale)
    · intro segId _ middle after same returned
      exact (refreshSegmentInPlace_state returned).trans same
    · rfl
  · intro _ refreshed _
    apply InPlace.Infallible.bind (InPlace.update_infallible _)
    intro _ cleared _
    apply InPlace.Infallible.bind (InPlace.update_infallible _)
    intro _ rooted _
    exact InPlace.Infallible.get_bind (InPlace.pure_infallible _)

theorem expandOneInPlace_infallible [DecidableEq D] {ε : Type} :
    (expandOneInPlace hasher : InPlace (ChainState D) ε Unit).Infallible chain := by
  apply InPlace.Infallible.get_bind
  apply InPlace.Infallible.bind
  · apply InPlace.Infallible.get_bind
    split
    · apply InPlace.Infallible.bind (InPlace.update_infallible _)
      intro _ _ _
      apply InPlace.Infallible.bind (InPlace.assert_infallible _)
      intro _ _ _
      exact InPlace.update_infallible _
    · exact InPlace.update_infallible _
  · intro _ _ _
    apply InPlace.Infallible.bind (InPlace.update_infallible _)
    intro _ _ _
    apply InPlace.Infallible.bind (InPlace.update_infallible _)
    intro _ _ _
    exact InPlace.update_infallible _

theorem expandExactMetadataForReplayInPlace_atomicAt :
    (expandExactMetadataForReplayInPlace hasher).AtomicAt chain := by
  apply InPlace.AtomicAt.lift_bind
  intro _ _
  apply InPlace.Infallible.atomicAt
  apply InPlace.Infallible.bind (InPlace.update_infallible _)
  intro _ _ _
  apply InPlace.Infallible.bind (InPlace.update_infallible _)
  intro _ _ _
  exact InPlace.update_infallible _

theorem expandToChildInPlace_atomicAt [DecidableEq D] (logSlots : Nat) :
    (expandToChildInPlace hasher logSlots).AtomicAt chain := by
  apply InPlace.AtomicAt.get_bind
  split
  · split
    · exact expandExactMetadataForReplayInPlace_atomicAt.mapErr
    · exact expandOneInPlace_infallible.atomicAt
  · exact (InPlace.pure_infallible ()).atomicAt

/-- What the checks of an installed transition say about residency. -/
structure InstallChecked (chain : ChainState D) (logSlots : Nat)
    (updates : List (Nat × SlotValue)) : Prop where
  window : chain.state.logSlots ≤ logSlots ∧ logSlots ≤ chain.state.logSlots + 1
  inRange : ∀ update ∈ updates, update.1 < 2 ^ logSlots
  refreshable : chain.state.Refreshable
  resident : ∀ update ∈ updates,
    update.1 / 2 ^ min logSlots logSegmentSize < chain.state.numSegments →
      update.1 / 2 ^ min logSlots logSegmentSize ∉ chain.state.evicted

theorem refreshable_of_refreshSegments {state : SegmentedFriState}
    {cache refreshed : ExactSegmentRootCache D}
    (done : refreshSegments hasher state cache = .ok refreshed) : state.Refreshable := by
  refine foldlM_checked ?_ done
  intro before segId after step
  exact (require_bind_eq_ok.mp step).1

variable {updates : List (Nat × SlotValue)}

theorem resident_of_updateSegments {state : SegmentedFriState} {logSize : Nat}
    {cache updated : ExactSegmentRootCache D}
    (done : updateSegments hasher state logSize updates cache = .ok updated) :
    ∀ segId ∈ touchedSegments logSize updates, segId < state.numSegments →
      segId ∉ state.evicted := by
  refine foldlM_checked ?_ done
  intro before segId after step within
  simp only [if_neg (not_le.mpr within)] at step
  exact (require_bind_eq_ok.mp step).1

variable {logSlots : Nat}

theorem installChecked [DecidableEq D] {root : D}
    (derived : chain.exactUtxoRootAfterSlotUpdates hasher logSlots updates = .ok root) :
    chain.InstallChecked logSlots updates := by
  simp only [ChainState.exactUtxoRootAfterSlotUpdates, bind_eq_ok, require_eq_ok, exists_const,
    mapError_eq_ok, pure_eq_ok] at derived
  obtain ⟨window, inRange, cache, refreshed, -, updated, touched, -⟩ := derived
  refine ⟨window, inRange, refreshable_of_refreshSegments refreshed, ?_⟩
  intro update mem
  exact resident_of_updateSegments touched _
    (mem_touchedSegments.mpr ⟨update, mem, rfl⟩)

variable {grown : ChainState D}

section

variable (checked : chain.InstallChecked logSlots updates)

include checked

/-- Whole new segments are virtual, so a write to one materialises it. -/
theorem InstallChecked.expandedWhole (grows : logSlots = chain.state.logSlots + 1)
    (expanded : chain.expandExactMetadataForReplay hasher = .ok grown) :
    grown.state.logSlots = logSlots ∧ grown.state.Refreshable ∧
      ∀ update ∈ updates, grown.state.Writable (grown.state.segIdOf update.1) := by
  simp only [ChainState.expandExactMetadataForReplay,
    SegmentedFriState.expandExactMetadataForReplay, bind_eq_ok, require_eq_ok, exists_const,
    pure_eq_ok] at expanded
  obtain ⟨_, ⟨-, rfl⟩, rfl⟩ := expanded
  subst grows
  refine ⟨rfl, checked.refreshable, fun update mem => ?_⟩
  rcases lt_or_ge (update.1 / 2 ^ min (chain.state.logSlots + 1) logSegmentSize)
    chain.state.numSegments with old | new
  · exact .inl (checked.resident update mem old)
  · exact .inr (if_neg (not_lt.mpr new))

/-- Below one whole segment the flush already needs the only segment resident. -/
theorem InstallChecked.expandedSegment [DecidableEq D] (grows : logSlots = chain.state.logSlots + 1)
    (small : chain.state.logSlots < logSegmentSize)
    (expanded : chain.expandOne hasher = .ok grown) :
    grown.state.logSlots = logSlots ∧ grown.state.Refreshable ∧
      ∀ update ∈ updates, grown.state.Writable (grown.state.segIdOf update.1) := by
  have depth := expandOne_logSlots expanded
  simp only [ChainState.expandOne, expand, if_pos (Nat.succ_le_of_lt small), flushAllDirty,
    bind_eq_ok, require_eq_ok, exists_const, pure_eq_ok] at expanded
  obtain ⟨_, ⟨flushed, rfl⟩, rfl⟩ := expanded
  have onlySegment : 0 ∉ chain.state.evicted := flushed 0 (mem_insert_self)
  have refreshable : Refreshable { chain.state with
      logSlots := chain.state.logSlots + 1
      exactDirty := chain.state.exactDirty.insert 0 } := by
    intro segId stale
    rcases mem_insert_iff.mp stale with rfl | before
    · exact onlySegment
    · exact checked.refreshable segId before
  refine ⟨depth.trans grows.symm, ?_, fun update mem => .inl ?_⟩
  · dsimp only
    split
    · exact fun segId stale => absurd stale not_mem_nil
    · exact refreshable
  · have first : update.1 / 2 ^ min (chain.state.logSlots + 1) logSegmentSize = 0 := by
      rw [← grows, Nat.min_eq_left (by omega)]
      exact Nat.div_eq_of_lt (checked.inRange update mem)
    rw [segIdOf, segmentSlotCount, effectiveLogSegmentSize, depth, first]
    split <;> exact onlySegment

/-- After the expansion every touched segment can be written and every stale root recomputed. -/
theorem InstallChecked.expanded [DecidableEq D]
    (expanded : chain.expandToChild hasher logSlots = .ok grown) :
    grown.state.logSlots = logSlots ∧ grown.state.Refreshable ∧
      ∀ update ∈ updates, grown.state.Writable (grown.state.segIdOf update.1) := by
  rw [expandToChild] at expanded
  split at expanded
  · rename_i grows
    rw [mapError_eq_ok] at expanded
    split at expanded
    · exact checked.expandedWhole grows expanded
    · rename_i small
      exact checked.expandedSegment grows (Nat.lt_of_not_le small) expanded
  · rename_i stays
    obtain rfl := Except.ok.inj expanded
    have depth : logSlots = chain.state.logSlots := by
      have := checked.window
      omega
    subst depth
    refine ⟨rfl, checked.refreshable, fun update mem => .inl ?_⟩
    exact checked.resident update mem (segIdOf_lt (checked.inRange update mem))

theorem installExactTransition_atomicAt [DecidableEq D]
    (activeSlotCount allocCounter supply : Nat) :
    (installExactTransition hasher logSlots updates activeSlotCount allocCounter
      supply).AtomicAt chain := by
  apply InPlace.AtomicAt.bind (expandToChildInPlace_atomicAt logSlots)
  intro _ grown returned
  obtain ⟨depth, refreshable, writable⟩ :=
    checked.expanded (expandToChildInPlace_returns.mp returned)
  apply InPlace.Infallible.bind
  · apply InPlace.Infallible.mapErr
    apply applyDeltaUnrootedInPlace_infallible
    rw [numSlots, depth]
    exact checked.inRange
  · intro _ written writes
    rw [InPlace.mapErr_returns, applyDeltaUnrootedInPlace_returns] at writes
    obtain ⟨state, stateEq, rfl⟩ := writes
    apply InPlace.Infallible.bind
    · apply InPlace.Infallible.mapErr
      apply tryStateRootInPlace_infallible
      simp only [applyDeltaUnrooted, bind_eq_ok, require_eq_ok, exists_const, pure_eq_ok] at stateEq
      obtain ⟨-, rfl⟩ := stateEq
      exact foldl_writeSlot_refreshable refreshable writable
    · intro _ _ _
      apply InPlace.Infallible.bind (InPlace.update_infallible _)
      intro _ _ _
      apply InPlace.Infallible.bind (InPlace.update_infallible _)
      intro _ _ _
      apply InPlace.Infallible.bind (InPlace.update_infallible _)
      intro _ _ _
      exact InPlace.pure_infallible _

end

/-- An installed transition that returns an error left the state as it was. -/
theorem applyVerifiedExactTransitionInPlace_atomic [DecidableEq D] (logSlots : Nat)
    (childStateRoot : D) (updates : List (Nat × SlotValue)) (activeSlotCount allocCounter : Nat) :
    (applyVerifiedExactTransitionInPlace hasher logSlots childStateRoot updates activeSlotCount
      allocCounter).Atomic := by
  intro chain
  apply InPlace.AtomicAt.lift_bind
  intro _ _
  apply InPlace.AtomicAt.lift_bind
  intro _ _
  apply InPlace.AtomicAt.lift_bind
  intro computed derived
  apply InPlace.AtomicAt.lift_bind
  intro _ _
  apply InPlace.AtomicAt.lift_bind
  intro supply _
  exact installExactTransition_atomicAt (installChecked derived) _ _ _

theorem applyTx_atomic (body : TxBody) : (applyTx hasher body).Atomic := by
  intro chain
  apply InPlace.AtomicAt.lift_bind
  intro _ _
  exact InPlace.onClone_atomic _ chain

theorem applyTxAt_atomic (body : TxBody) (blockHeight : Nat) :
    (applyTxAt hasher body blockHeight).Atomic :=
  InPlace.onClone_atomic _

end ChainState
end Jetsam
