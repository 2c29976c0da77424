import Jetsam.State.ApplyTx

/-!
# The exact transition

`apply_verified_exact_transition` derives the child root from the segment cache, compares it with
the committed one and installs the slot updates. It succeeds exactly on the updates of the committed
child.
-/

namespace Jetsam

open Control SegmentedFriState List

namespace ChainState

variable {D : Type} {hasher : StateHasher D} {chain after : ChainState D} {slots : Nat → SlotValue}

variable {cache : ExactSegmentRootCache D}

theorem Coherent.refreshSegments (coherent : chain.Coherent hasher slots) (synced : chain.Synced)
    (done : ChainState.refreshSegments hasher chain.state chain.exactRoots = .ok cache) :
    { chain with
      state := chain.state.clearExactDirty
      exactRoots := cache
      utxoRoot := cache.root : ChainState D }.Coherent hasher slots ∧
      cache.logSlots = chain.state.logSlots ∧
      cache.root = hasher.slotRoot chain.state.logSlots slots := by
  have sameDepth : chain.exactRoots.logSlots = chain.state.logSlots := synced
  have roots : chain.syncedRoots hasher = chain.exactRoots := by
    simp [ChainState.syncedRoots, ExactSegmentRootCache.shrinkTo, sameDepth]
  have read : chain.tryStateRoot hasher = .ok ({ chain with
      state := chain.state.clearExactDirty, exactRoots := cache, utxoRoot := cache.root },
      cache.root) := by
    rw [ChainState.tryStateRoot, roots]
    exact bind_eq_ok.mpr ⟨cache, done, rfl⟩
  obtain ⟨rootEq, refreshed, refreshedSynced, -⟩ := coherent.tryStateRoot read
  exact ⟨refreshed, refreshedSynced, rootEq⟩

variable {segId : Nat} {updates : List (Nat × SlotValue)}

variable {logSize : Nat}

theorem mem_touchedSegments :
    segId ∈ touchedSegments logSize updates ↔
      ∃ update ∈ updates, update.1 / 2 ^ logSize = segId := by
  rw [touchedSegments, mem_keys_orderedMap, map_map, mem_map]
  rfl

variable {state : SegmentedFriState} {logSlots : Nat}

theorem segment_start (window : state.logSlots ≤ logSlots) (inside : segId < state.numSegments) :
    segId * 2 ^ min logSlots logSegmentSize = segId * state.segmentSlotCount := by
  rcases lt_or_ge state.logSlots logSegmentSize with small | large
  · have single := single_segment small.le
    obtain rfl : segId = 0 := by omega
    rw [zero_mul, zero_mul]
  · rw [full_size large, min_eq_right (large.trans window)]

section

variable (holds : state.Holds slots)

include holds

/-- A segment of a deeper domain, read through the stored columns. -/
theorem column_eq (window : state.logSlots ≤ logSlots) (notEvicted : segId ∉ state.evicted)
    {i : Nat} (bound : i < 2 ^ min logSlots logSegmentSize) :
    StateHasher.slotWithUpdates
        (if state.numSegments ≤ segId then none else state.tryGetSegmentColumns segId)
        (fun _ => none) i =
      slots (segId * 2 ^ min logSlots logSegmentSize + i) := by
  have smaller : state.segmentSlotCount ≤ 2 ^ min logSlots logSegmentSize :=
    Nat.pow_le_pow_right (by norm_num) (min_le_min_right _ window)
  rcases lt_or_ge segId state.numSegments with inside | beyond
  · rw [if_neg (not_le.mpr inside), segment_start window inside, tryGetSegmentColumns]
    rcases lt_or_ge i state.segmentSlotCount with stored | above
    · cases loaded : state.segments segId with
      | none => exact (holds.vacant loaded notEvicted i stored).symm
      | some columns =>
        simp only [StateHasher.slotWithUpdates]
        rw [holds.resident _ _ loaded, getD_segmentOf _ _ stored]
    · -- Only a domain below the segment size grows inside its segment.
      have small : state.logSlots < logSegmentSize := by
        by_contra large
        rw [full_size (not_lt.mp large)] at above
        rw [min_eq_right ((not_lt.mp large).trans window)] at bound
        omega
      have outside : slots (segId * state.segmentSlotCount + i) = .empty := by
        refine holds.outside _ ?_
        rw [← single_size small.le]
        omega
      rw [outside]
      cases loaded : state.segments segId with
      | none => rfl
      | some columns =>
        simp only [StateHasher.slotWithUpdates]
        rw [holds.resident _ _ loaded, getD_eq_default]
        simpa using above
  · rw [if_pos beyond, holds.outside]
    · rfl
    · rw [← numSegments_mul]
      calc
        state.numSegments * state.segmentSlotCount ≤ segId * 2 ^ min logSlots logSegmentSize :=
          Nat.mul_le_mul beyond smaller
        _ ≤ segId * 2 ^ min logSlots logSegmentSize + i := Nat.le_add_right _ _

theorem updatedSegmentRoot_eq (window : state.logSlots ≤ logSlots)
    (notEvicted : segId ∉ state.evicted) (updates : List (Nat × SlotValue)) :
    hasher.exactSegmentRootWithUpdates (min logSlots logSegmentSize)
        (if state.numSegments ≤ segId then none else state.tryGetSegmentColumns segId)
        (localUpdates (min logSlots logSegmentSize) segId updates) =
      hasher.segmentRoot (min logSlots logSegmentSize) (overwrite slots updates) segId := by
  rw [StateHasher.exactSegmentRootWithUpdates_eq, StateHasher.segmentRoot]
  refine StateHasher.slotRoot_congr fun i bound => ?_
  rw [overwrite_eq_find, ← column_eq holds window notEvicted bound]
  simp only [StateHasher.slotWithUpdates, localUpdates]
  cases (updates.reverse.find? fun update =>
    update.1 == segId * 2 ^ min logSlots logSegmentSize + i).map Prod.snd <;> rfl

theorem updateSegment_eq_ok {next : ExactSegmentRootCache D} :
    (do
      let columns ←
        if state.numSegments ≤ segId then pure none
        else do
          require (segId ∉ state.evicted)
            (ApplyExactTransitionError.exactStateRead (.evictedSegment segId))
          pure (state.tryGetSegmentColumns segId)
      return cache.setSegmentRoot hasher segId
        (hasher.exactSegmentRootWithUpdates logSize columns
          (localUpdates logSize segId updates))) = Except.ok next ↔
      segId ∉ state.evicted ∧
        cache.setSegmentRoot hasher segId
          (hasher.exactSegmentRootWithUpdates logSize
            (if state.numSegments ≤ segId then none else state.tryGetSegmentColumns segId)
            (localUpdates logSize segId updates)) = next := by
  rcases lt_or_ge segId state.numSegments with inside | beyond
  · simp only [not_le.mpr inside, if_false, bind_eq_ok, require_eq_ok, exists_const, pure_eq_ok,
      exists_eq_left']
  · have notEvicted : segId ∉ state.evicted := fun shelved =>
      absurd (holds.evicted_lt shelved) (not_lt.mpr beyond)
    simp only [beyond, if_true, bind_eq_ok, pure_eq_ok, exists_eq_left', notEvicted,
      not_false_eq_true, true_and]

theorem updateSegments_eq_ok (window : state.logSlots ≤ logSlots)
    (inRange : ∀ update ∈ updates, update.1 < 2 ^ logSlots) {result : ExactSegmentRootCache D}
    (wellFormed : cache.WellFormed hasher) (cacheLog : cache.logSlots = logSlots)
    (done : updateSegments hasher state (min logSlots logSegmentSize) updates cache = .ok result) :
    (∀ update ∈ updates, update.1 / 2 ^ min logSlots logSegmentSize ∉ state.evicted) ∧
      result.WellFormed hasher ∧ result.logSlots = logSlots ∧
      ∀ segId, result.segmentRoots segId =
        if segId ∈ touchedSegments (min logSlots logSegmentSize) updates then
          hasher.segmentRoot (min logSlots logSegmentSize) (overwrite slots updates) segId
        else cache.segmentRoots segId := by
  have count : cache.segmentCount = 2 ^ (logSlots - min logSlots logSegmentSize) := by
    rw [wellFormed.count, ExactSegmentRootCache.effectiveLogSeg, cacheLog]
  have inside : ∀ segId ∈ touchedSegments (min logSlots logSegmentSize) updates,
      segId < 2 ^ (logSlots - min logSlots logSegmentSize) := by
    intro segId touched
    obtain ⟨update, mem, rfl⟩ := mem_touchedSegments.mp touched
    rw [Nat.div_lt_iff_lt_mul (Nat.two_pow_pos _), ← pow_add, Nat.sub_add_cancel (min_le_left _ _)]
    exact inRange update mem
  suffices general :
      (∀ segId ∈ touchedSegments (min logSlots logSegmentSize) updates, segId ∉ state.evicted) ∧
      result.WellFormed hasher ∧ result.logSlots = logSlots ∧
      ∀ segId, result.segmentRoots segId =
        if segId ∈ touchedSegments (min logSlots logSegmentSize) updates then
          hasher.segmentRoot (min logSlots logSegmentSize) (overwrite slots updates) segId
        else cache.segmentRoots segId by
    refine ⟨fun update mem => general.1 _ (mem_touchedSegments.mpr ⟨update, mem, rfl⟩),
      general.2⟩
  unfold updateSegments at done
  revert done inside
  generalize touchedSegments (min logSlots logSegmentSize) updates = ids
  intro done inside
  induction ids generalizing cache with
  | nil =>
    obtain rfl := foldlM_nil_eq_ok.mp done
    exact ⟨by simp, wellFormed, cacheLog, fun segId => by simp⟩
  | cons first ids ih =>
    obtain ⟨middle, step, rest⟩ := foldlM_cons_eq_ok.mp done
    obtain ⟨notEvicted, rfl⟩ := (updateSegment_eq_ok holds).mp step
    rw [updatedSegmentRoot_eq holds window notEvicted] at rest
    obtain ⟨firstInside, restInside⟩ := forall_mem_cons.mp inside
    obtain ⟨resident, final, finalLog, finalRoots⟩ := ih
      (wellFormed.setSegmentRoot (count ▸ firstInside) _) (by simpa using cacheLog)
      (by simpa using count) rest restInside
    refine ⟨forall_mem_cons.mpr ⟨notEvicted, resident⟩, final, finalLog, fun segId => ?_⟩
    rw [finalRoots, ExactSegmentRootCache.setSegmentRoot_segmentRoots]
    by_cases later : segId ∈ ids
    · simp [later]
    · rcases eq_or_ne segId first with rfl | different
      · simp
      · simp [later, different]

end

theorem updateSegments_isOk {state : SegmentedFriState} (holds : state.Holds slots)
    {logSize : Nat} {updates : List (Nat × SlotValue)} (cache : ExactSegmentRootCache D)
    (resident : ∀ update ∈ updates, update.1 / 2 ^ logSize ∉ state.evicted) :
    ∃ result, updateSegments hasher state logSize updates cache = .ok result := by
  have each : ∀ segId ∈ touchedSegments logSize updates, segId ∉ state.evicted := by
    intro segId touched
    obtain ⟨update, member, rfl⟩ := mem_touchedSegments.mp touched
    exact resident update member
  unfold updateSegments
  revert each
  generalize touchedSegments logSize updates = ids
  intro each
  induction ids generalizing cache with
  | nil => exact ⟨cache, rfl⟩
  | cons first ids ih =>
    obtain ⟨notEvicted, rest⟩ := forall_mem_cons.mp each
    exact bind_isOk ((updateSegment_eq_ok holds).mpr ⟨notEvicted, rfl⟩) (ih _ rest)

/-- The cache of the child domain before the batch commits to the unchanged map. -/
theorem Coherent.childRoots (coherent : chain.Coherent hasher slots) (synced : chain.Synced)
    (fresh : chain.state.exactDirty = [])
    (window : chain.state.logSlots ≤ logSlots ∧ logSlots ≤ chain.state.logSlots + 1) :
    let cache := if chain.state.logSlots < logSlots then chain.exactRoots.expandOne hasher
      else chain.exactRoots
    cache.WellFormed hasher ∧ cache.logSlots = logSlots ∧
      ∀ segId < (newEmpty logSlots).numSegments, cache.segmentRoots segId =
        hasher.segmentRoot (min logSlots logSegmentSize) slots segId := by
  have cacheLog : chain.exactRoots.logSlots = chain.state.logSlots := synced
  by_cases grows : chain.state.logSlots < logSlots
  · obtain rfl : logSlots = chain.state.logSlots + 1 := by omega
    simp only [if_pos grows]
    refine ⟨coherent.cache.expandOne, by simp [cacheLog], fun segId inside => ?_⟩
    exact @Coherent.expandedRoots _ hasher chain slots coherent synced
      (newEmpty (chain.state.logSlots + 1)) rfl segId inside (by simp [fresh]) fun _ => fresh
  · obtain rfl : logSlots = chain.state.logSlots := by omega
    simp only [if_neg grows]
    exact ⟨coherent.cache, cacheLog,
      fun segId inside => coherent.roots segId inside (by simp [fresh])⟩

variable {root : D}

theorem Coherent.exactUtxoRootAfterSlotUpdates_eq_ok [DecidableEq D]
    (coherent : chain.Coherent hasher slots) (synced : chain.Synced)
    (rooted : chain.Rooted hasher slots) :
    chain.exactUtxoRootAfterSlotUpdates hasher logSlots updates = .ok root ↔
      (chain.state.logSlots ≤ logSlots ∧ logSlots ≤ chain.state.logSlots + 1) ∧
        (∀ update ∈ updates, update.1 < 2 ^ logSlots) ∧
        (∀ update ∈ updates,
          update.1 / 2 ^ min logSlots logSegmentSize ∉ chain.state.evicted) ∧
        hasher.slotRoot logSlots (overwrite slots updates) = root := by
  obtain ⟨cache, refreshed⟩ := @refreshSegments_isOk _ hasher chain.state chain.exactRoots
    fun segId stale shelved => coherent.clean segId shelved stale
  obtain ⟨fresh, cacheLog, cacheRoot⟩ := coherent.refreshSegments synced refreshed
  have current : cache.root = chain.utxoRoot := cacheRoot.trans rooted.symm
  simp only [ChainState.exactUtxoRootAfterSlotUpdates, bind_eq_ok, require_eq_ok, exists_const,
    mapError_eq_ok, refreshed, Except.ok.injEq, exists_eq_left', current, true_and, pure_eq_ok]
  refine and_congr_right fun window => and_congr_right fun inRange => ?_
  set child := if chain.state.logSlots < logSlots then cache.expandOne hasher else cache
  obtain ⟨wellFormed, childLog, childRoots⟩ : child.WellFormed hasher ∧ child.logSlots = logSlots ∧
      ∀ segId < (newEmpty logSlots).numSegments, child.segmentRoots segId =
        hasher.segmentRoot (min logSlots logSegmentSize) slots segId :=
    fresh.childRoots cacheLog rfl window
  -- The batch replaces the touched roots; the others already commit to their unchanged slots.
  have final : ∀ {result : ExactSegmentRootCache D}, updateSegments hasher chain.state
      (min logSlots logSegmentSize) updates child = .ok result →
      result.root = hasher.slotRoot logSlots (overwrite slots updates) := by
    intro result done
    obtain ⟨-, resultWellFormed, resultLog, resultRoots⟩ :=
      updateSegments_eq_ok coherent.holds window.1 inRange wellFormed childLog done
    refine @root_eq_slotRoot _ hasher _ (newEmpty logSlots) result resultWellFormed resultLog
      fun segId inside => ?_
    rw [resultRoots]
    split_ifs with touched
    · rfl
    · rw [childRoots segId inside]
      refine StateHasher.slotRoot_congr fun i bound => (overwrite_of_notMem fun written => ?_).symm
      obtain ⟨update, mem, same⟩ := mem_map.mp written
      refine touched (mem_touchedSegments.mpr ⟨update, mem, ?_⟩)
      rw [same, mul_comm, Nat.mul_add_div (Nat.two_pow_pos _), Nat.div_eq_of_lt bound,
        add_zero]
  constructor
  · rintro ⟨result, done, rfl⟩
    obtain ⟨resident, -⟩ := updateSegments_eq_ok coherent.holds window.1 inRange wellFormed
      childLog done
    exact ⟨resident, (final done).symm⟩
  · rintro ⟨resident, rfl⟩
    obtain ⟨result, done⟩ := @updateSegments_isOk _ hasher _ _ coherent.holds _ _ child resident
    exact ⟨result, done, final done⟩

variable {ledger : Ledger}

structure ExactInstalled (hasher : StateHasher D) (chain after : ChainState D) (ledger : Ledger)
    (logSlots : Nat) (childStateRoot : D) (updates : List (Nat × SlotValue))
    (activeSlotCount allocCounter : Nat) : Prop where
  window : ledger.logSlots ≤ logSlots ∧ logSlots ≤ ledger.logSlots + 1
  inRange : ∀ update ∈ updates, update.1 < 2 ^ logSlots
  resident : ∀ update ∈ updates, update.1 / 2 ^ min logSlots logSegmentSize ∉ chain.state.evicted
  root : childStateRoot = hasher.slotRoot logSlots (overwrite ledger.slots updates)
  represents : after.Represents hasher
    ⟨logSlots, overwrite ledger.slots updates, activeSlotCount, allocCounter⟩
  rooted : after.utxoRoot = childStateRoot
  evicted : after.state.evicted = chain.state.evicted

theorem Represents.expandToChild [DecidableEq D] (represents : chain.Represents hasher ledger)
    (window : ledger.logSlots ≤ logSlots ∧ logSlots ≤ ledger.logSlots + 1)
    (done : chain.expandToChild hasher logSlots = .ok after) :
    after.Represents hasher (ledger.atDepth logSlots) ∧
      after.state.evicted = chain.state.evicted := by
  rw [ChainState.expandToChild, represents.logSlots] at done
  split_ifs at done with grows large
  · rw [mapError_eq_ok] at done
    obtain ⟨coherent, synced, depth, evicted, -, active, alloc, supply⟩ :=
      represents.coherent.expandExactMetadataForReplay represents.synced done
    rw [grows]
    exact ⟨⟨coherent, synced, depth.trans (congrArg (· + 1) represents.logSlots),
      active.trans represents.active, alloc.trans represents.alloc,
      supply.trans represents.supply⟩, evicted⟩
  · rw [mapError_eq_ok] at done
    obtain ⟨next, evicted, -⟩ := represents.expandOne done
    exact ⟨grows ▸ next, evicted⟩
  · obtain rfl := Except.ok.inj done
    obtain rfl : logSlots = ledger.logSlots := by omega
    exact ⟨represents, rfl⟩

/-- The expansion goes through within 32 levels, with the only segment of a small domain in
memory. -/
theorem expandToChild_isOk [DecidableEq D] {logSlots : Nat} (depth : logSlots ≤ logSlotsMax)
    (resident : logSlots ≤ logSegmentSize → chain.state.evicted = []) :
    ∃ expanded, chain.expandToChild hasher logSlots = .ok expanded := by
  rw [ChainState.expandToChild]
  split_ifs with grows large
  · obtain ⟨state, expanded⟩ : ∃ state, chain.state.expandExactMetadataForReplay = .ok state :=
      ⟨_, expandExactMetadataForReplay_eq_ok.mpr ⟨⟨large, by omega⟩, rfl⟩⟩
    exact ⟨_, mapError_eq_ok.mpr (bind_eq_ok.mpr ⟨state, expanded, rfl⟩)⟩
  · obtain ⟨state, expanded⟩ := @expand_isOk chain.state fun small => resident (grows ▸ small)
    exact ⟨_, mapError_eq_ok.mpr (bind_eq_ok.mpr ⟨state, expanded, rfl⟩)⟩
  · exact ⟨chain, rfl⟩

theorem Represents.notEvicted (represents : chain.Represents hasher ledger)
    (resident : ∀ update ∈ updates,
      update.1 / 2 ^ min ledger.logSlots logSegmentSize ∉ chain.state.evicted) :
    ∀ update ∈ updates, chain.state.segIdOf update.1 ∉ chain.state.evicted := by
  simpa only [segIdOf, segmentSlotCount, effectiveLogSegmentSize, represents.logSlots]
    using resident

/-- A slot that is in memory at the child's depth is in memory at the parent's. -/
theorem notEvicted_before {index : Nat} (window : logSlots ≤ chain.state.logSlots + 1)
    (small : logSlots ≤ logSegmentSize → chain.state.evicted = [])
    (resident : index / 2 ^ min logSlots logSegmentSize ∉ chain.state.evicted) :
    chain.state.segIdOf index ∉ chain.state.evicted := by
  rcases lt_or_ge logSegmentSize logSlots with large | few
  · have whole : logSegmentSize ≤ chain.state.logSlots := by omega
    rw [segIdOf, full_size whole, ← min_eq_right large.le]
    exact resident
  · rw [small few]
    exact not_mem_nil

variable {childStateRoot : D}

/-- A transition is installed only on the updates of the committed child. -/
theorem Represents.applyVerifiedExactTransition [DecidableEq D]
    (represents : chain.Represents hasher ledger) (isRooted : chain.Rooted hasher ledger.slots)
    {activeSlotCount allocCounter : Nat} (bounded : ∀ update ∈ updates, update.1 < slotIndexBound)
    (done : chain.applyVerifiedExactTransition hasher logSlots childStateRoot updates
      activeSlotCount allocCounter = .ok (after, root)) :
    ExactInstalled hasher chain after ledger logSlots childStateRoot updates activeSlotCount
      allocCounter := by
  simp only [ChainState.applyVerifiedExactTransition, bind_eq_ok, require_eq_ok, exists_const,
    okOr_eq_ok, mapError_eq_ok, pure_eq_ok, Prod.exists, Prod.mk.injEq,
    represents.coherent.exactUtxoRootAfterSlotUpdates_eq_ok represents.synced isRooted,
    supplyAfterSlotUpdates_eq_some represents.coherent.holds represents.supply bounded,
    applyDeltaUnrooted_eq_ok] at done
  obtain ⟨-, -, _, ⟨window, inRange, resident, rfl⟩, rfl, supply, ⟨-, rfl⟩, expanded, expansion, _,
    ⟨writable, rfl⟩, rooted, _, read, rfl, -⟩ := done
  rw [represents.logSlots] at window
  obtain ⟨expandedRep, evicted⟩ := represents.expandToChild window expansion
  obtain ⟨holds, rewritten⟩ := expandedRep.coherent.holds.foldl_writeSlot writable
    (expandedRep.notEvicted (evicted ▸ resident))
  obtain ⟨rootEq, coherent, synced, -, utxoRoot, state, -⟩ :=
    (expandedRep.coherent.rewritten holds rewritten).tryStateRoot read
  have depth : rooted.state.logSlots = logSlots := by
    rw [state]
    exact rewritten.logSlots.trans expandedRep.logSlots
  refine ⟨window, inRange, resident, rfl,
    ⟨coherent.of_same rfl rfl, synced, depth, rfl, rfl, rfl⟩, ?_, ?_⟩
  · rw [utxoRoot, rootEq]
    exact congrArg (hasher.slotRoot · _) (rewritten.logSlots.trans expandedRep.logSlots)
  · rw [state]
    exact rewritten.evicted.trans evicted

theorem Represents.applyVerifiedExactTransition_isOk [DecidableEq D]
    (represents : chain.Represents hasher ledger) (isRooted : chain.Rooted hasher ledger.slots)
    (activeSlotCount allocCounter : Nat) (bounded : ∀ update ∈ updates, update.1 < slotIndexBound)
    (window : ledger.logSlots ≤ logSlots ∧ logSlots ≤ ledger.logSlots + 1)
    (depth : logSlots ≤ logSlotsMax) (small : logSlots ≤ logSegmentSize → chain.state.evicted = [])
    (inRange : ∀ update ∈ updates, update.1 < 2 ^ logSlots) (resident : ∀ update ∈ updates,
      update.1 / 2 ^ min logSlots logSegmentSize ∉ chain.state.evicted)
    (root : childStateRoot = hasher.slotRoot logSlots (overwrite ledger.slots updates)) :
    ∃ result, chain.applyVerifiedExactTransition hasher logSlots childStateRoot updates
      activeSlotCount allocCounter = .ok result := by
  have stateWindow : chain.state.logSlots ≤ logSlots ∧ logSlots ≤ chain.state.logSlots + 1 := by
    rw [represents.logSlots]
    exact window
  have derived := (represents.coherent.exactUtxoRootAfterSlotUpdates_eq_ok represents.synced
    isRooted).mpr ⟨stateWindow, inRange, resident, root.symm⟩
  have supply := (supplyAfterSlotUpdates_eq_some represents.coherent.holds represents.supply
    bounded).mpr ⟨fun update mem _ =>
      notEvicted_before stateWindow.2 small (resident update mem), rfl⟩
  obtain ⟨expanded, expansion⟩ := @expandToChild_isOk _ hasher chain _ logSlots depth small
  obtain ⟨expandedRep, evicted⟩ := represents.expandToChild window expansion
  have writable : ∀ update ∈ updates, update.1 < expanded.state.numSlots := by
    rw [expandedRep.numSlots]
    exact inRange
  obtain ⟨holds, rewritten⟩ := expandedRep.coherent.holds.foldl_writeSlot writable
    (expandedRep.notEvicted (evicted ▸ resident))
  obtain ⟨⟨rooted, _⟩, read⟩ := (expandedRep.coherent.rewritten holds rewritten).tryStateRoot_isOk
  apply require_bind_isOk stateWindow
  apply require_bind_isOk inRange
  apply bind_isOk derived
  apply require_bind_isOk rfl
  apply bind_isOk (okOr_eq_ok.mpr supply)
  apply bind_isOk expansion
  apply bind_isOk (mapError_eq_ok.mpr (applyDeltaUnrooted_eq_ok.mpr ⟨writable, rfl⟩))
  exact bind_isOk (mapError_eq_ok.mpr read) ⟨_, rfl⟩

end ChainState

end Jetsam
