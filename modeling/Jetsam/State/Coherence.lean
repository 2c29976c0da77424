import Jetsam.State.Chain
import Jetsam.State.Residency

/-!
# Coherence of the root cache

`Coherent chain slots` ties the storage and the compact cache to one slot map: the cached root of
every segment that is not stale is the root of that segment. Each operation keeps coherence.
-/

namespace Jetsam

open Control SegmentedFriState List

variable {D : Type} {hasher : StateHasher D}

namespace SegmentedFriState

theorem segmentSlotCount_eq (state : SegmentedFriState) :
    state.segmentSlotCount = 2 ^ state.effectiveLogSegmentSize := rfl

/-- The streamed root of a segment that is not evicted is the root of the represented slots. -/
theorem Holds.exactSegmentRoot {state : SegmentedFriState} {slots : Nat → SlotValue}
    (holds : state.Holds slots) {segId : Nat} (notEvicted : segId ∉ state.evicted) :
    hasher.exactSegmentRootWithUpdates state.effectiveLogSegmentSize
        (state.tryGetSegmentColumns segId) (fun _ => none) =
      hasher.segmentRoot state.effectiveLogSegmentSize slots segId := by
  rw [StateHasher.exactSegmentRootWithUpdates_eq]
  refine StateHasher.slotRoot_congr fun i bound => ?_
  simp only [StateHasher.slotWithUpdates, tryGetSegmentColumns]
  cases loaded : state.segments segId with
  | none => exact (holds.vacant loaded notEvicted i bound).symm
  | some columns =>
    rw [holds.resident segId columns loaded]
    exact getD_segmentOf slots segId bound

end SegmentedFriState

namespace ChainState

def SameGeometry (state : SegmentedFriState) (cache : ExactSegmentRootCache D) : Prop :=
  cache.logSlots = state.logSlots

variable {state : SegmentedFriState}

theorem SameGeometry.segmentCount {cache : ExactSegmentRootCache D}
    (same : SameGeometry state cache) (wellFormed : cache.WellFormed hasher) :
    cache.segmentCount = state.numSegments := by
  rw [wellFormed.count, numSegments, ExactSegmentRootCache.effectiveLogSeg,
    effectiveLogSegmentSize, show cache.logSlots = state.logSlots from same]

theorem refreshSegments_eq_ok {slots : Nat → SlotValue} (holds : state.Holds slots)
    {cache refreshed : ExactSegmentRootCache D} (wellFormed : cache.WellFormed hasher)
    (same : SameGeometry state cache) (done : refreshSegments hasher state cache = .ok refreshed) :
    refreshed.WellFormed hasher ∧ SameGeometry state refreshed ∧
      ∀ segId, refreshed.segmentRoots segId =
        if segId ∈ state.exactDirty then
          hasher.segmentRoot state.effectiveLogSegmentSize slots segId
        else cache.segmentRoots segId := by
  unfold refreshSegments at done
  have inRange := holds.stale
  revert done inRange
  generalize state.exactDirty = ids
  intro done inRange
  induction ids generalizing cache with
  | nil =>
    obtain rfl := foldlM_nil_eq_ok.mp done
    exact ⟨wellFormed, same, fun segId => by simp⟩
  | cons first ids ih =>
    obtain ⟨middle, step, rest⟩ := foldlM_cons_eq_ok.mp done
    simp only [bind_eq_ok, require_eq_ok, exists_const, pure_eq_ok] at step
    obtain ⟨notEvicted, rfl⟩ := step
    have firstIn : first < cache.segmentCount := by
      rw [same.segmentCount wellFormed]
      exact inRange first mem_cons_self
    obtain ⟨final, finalSame, finalRoots⟩ := ih (wellFormed.setSegmentRoot firstIn _)
      (by simpa [SameGeometry] using same) rest
      fun segId mem => inRange segId (mem_cons_of_mem _ mem)
    refine ⟨final, finalSame, fun segId => ?_⟩
    rw [finalRoots, ExactSegmentRootCache.setSegmentRoot_segmentRoots,
      holds.exactSegmentRoot notEvicted]
    by_cases later : segId ∈ ids
    · simp [later]
    · rcases eq_or_ne segId first with rfl | different
      · simp
      · simp [later, different]

theorem refreshSegments_isOk {state : SegmentedFriState} (cache : ExactSegmentRootCache D)
    (resident : ∀ segId ∈ state.exactDirty, segId ∉ state.evicted) :
    ∃ refreshed, refreshSegments hasher state cache = .ok refreshed := by
  unfold refreshSegments
  revert resident
  generalize state.exactDirty = ids
  intro resident
  induction ids generalizing cache with
  | nil => exact ⟨cache, rfl⟩
  | cons first ids ih =>
    refine bind_isOk (bind_eq_ok.mpr ⟨(), require_eq_ok.mpr ?_, rfl⟩) (ih _ ?_)
    · exact resident first mem_cons_self
    · exact fun segId member => resident segId (mem_cons_of_mem _ member)

/-- Storage and cache agree on one slot map. After a rollback the cache may still be deeper than
the domain. -/
structure Coherent (hasher : StateHasher D) (chain : ChainState D) (slots : Nat → SlotValue) :
    Prop where
  holds : chain.state.Holds slots
  cache : chain.exactRoots.WellFormed hasher
  ahead : chain.state.logSlots ≤ chain.exactRoots.logSlots
  shallow : chain.state.logSlots < chain.exactRoots.logSlots →
    chain.state.logSlots < logSegmentSize → 0 ∈ chain.state.exactDirty
  roots : ∀ segId < chain.state.numSegments, segId ∉ chain.state.exactDirty →
    chain.exactRoots.segmentRoots segId =
      hasher.segmentRoot chain.state.effectiveLogSegmentSize slots segId
  clean : ∀ segId ∈ chain.state.evicted, segId ∉ chain.state.exactDirty

/-- The cache has not been left behind by a rollback. -/
def Synced (chain : ChainState D) : Prop := SameGeometry chain.state chain.exactRoots

def Rooted (hasher : StateHasher D) (chain : ChainState D) (slots : Nat → SlotValue) : Prop :=
  chain.utxoRoot = hasher.slotRoot chain.state.logSlots slots

variable {chain after : ChainState D} {slots : Nat → SlotValue}

theorem Coherent.of_same {other : ChainState D} (coherent : chain.Coherent hasher slots)
    (state : other.state = chain.state) (exactRoots : other.exactRoots = chain.exactRoots) :
    other.Coherent hasher slots := by
  obtain ⟨holds, cache, ahead, shallow, roots, clean⟩ := coherent
  constructor <;> simpa only [state, exactRoots]

theorem root_eq_slotRoot {state : SegmentedFriState} {cache : ExactSegmentRootCache D}
    (wellFormed : cache.WellFormed hasher) (same : SameGeometry state cache)
    (roots : ∀ segId < state.numSegments, cache.segmentRoots segId =
      hasher.segmentRoot state.effectiveLogSegmentSize slots segId) :
    cache.root = hasher.slotRoot state.logSlots slots := by
  have split : state.logSlots =
      state.effectiveLogSegmentSize + (state.logSlots - state.effectiveLogSegmentSize) := by
    rw [effectiveLogSegmentSize]
    omega
  rw [wellFormed.root_eq]
  conv_rhs => rw [split]
  rw [StateHasher.slotRoot_eq_segments, ExactSegmentRootCache.effectiveLogSeg,
    show cache.logSlots = state.logSlots from same]
  exact Merkle.root_congr roots

section

variable (coherent : chain.Coherent hasher slots)

include coherent

theorem Coherent.syncedRoots :
    (chain.syncedRoots hasher).WellFormed hasher ∧
      SameGeometry chain.state (chain.syncedRoots hasher) ∧
      ∀ segId < chain.state.numSegments, segId ∉ chain.state.exactDirty →
        (chain.syncedRoots hasher).segmentRoots segId =
          hasher.segmentRoot chain.state.effectiveLogSegmentSize slots segId := by
  have ahead := coherent.ahead
  unfold ChainState.syncedRoots
  simp only [Nat.sub_eq_zero_of_le ahead, Function.iterate_zero, id_eq]
  obtain ⟨wellFormed, logSlots, kept⟩ := coherent.cache.shrinkTo ahead
  refine ⟨wellFormed, logSlots, fun segId inRange clean => ?_⟩
  rcases eq_or_lt_of_le ahead with equal | behind
  · rw [show chain.exactRoots.shrinkTo hasher chain.state.logSlots = chain.exactRoots by
      rw [ExactSegmentRootCache.shrinkTo, equal, Nat.sub_self, Function.iterate_zero, id_eq]]
    exact coherent.roots segId inRange clean
  · rcases lt_or_ge chain.state.logSlots logSegmentSize with small | large
    · obtain rfl : segId = 0 := by
        rw [single_segment small.le] at inRange
        omega
      exact absurd (coherent.shallow behind small) clean
    · rw [kept large]
      exact coherent.roots segId inRange clean

/-- A successful refresh returns the root of the full tree and leaves nothing stale. -/
theorem Coherent.tryStateRoot {root : D} (done : chain.tryStateRoot hasher = .ok (after, root)) :
    root = hasher.slotRoot chain.state.logSlots slots ∧ after.Coherent hasher slots ∧
      after.Synced ∧ after.Rooted hasher slots ∧ after.utxoRoot = root ∧
      after.state = chain.state.clearExactDirty ∧
      after.activeSlotCount = chain.activeSlotCount ∧
      after.allocCounter = chain.allocCounter ∧
      after.circulatingSupply = chain.circulatingSupply := by
  obtain ⟨wellFormed, same, synced⟩ := coherent.syncedRoots
  simp only [ChainState.tryStateRoot, bind_eq_ok, pure_eq_ok, Prod.mk.injEq] at done
  obtain ⟨cache, refreshed, rfl, rfl⟩ := done
  obtain ⟨cacheWell, cacheSame, cacheRoots⟩ :=
    refreshSegments_eq_ok coherent.holds wellFormed same refreshed
  have roots : ∀ segId < chain.state.numSegments, cache.segmentRoots segId =
      hasher.segmentRoot chain.state.effectiveLogSegmentSize slots segId := by
    intro segId inRange
    rw [cacheRoots]
    split_ifs with stale
    · rfl
    · exact synced segId inRange stale
  have rootEq := root_eq_slotRoot cacheWell cacheSame roots
  refine ⟨rootEq, ⟨coherent.holds.clearExactDirty, cacheWell, ?_, fun behind => ?_, ?_, ?_⟩,
    cacheSame, rootEq, rfl, rfl, rfl, rfl, rfl⟩
  · exact (show cache.logSlots = chain.state.logSlots from cacheSame).ge
  · exact absurd behind (lt_irrefl _ ∘ (cacheSame.symm ▸ ·))
  · exact fun segId inRange _ => roots segId inRange
  · exact fun segId _ => not_mem_nil

/-- A coherent state always has a root: an evicted segment is never stale. -/
theorem Coherent.tryStateRoot_isOk :
    ∃ result, chain.tryStateRoot hasher = .ok result := by
  obtain ⟨refreshed, done⟩ := refreshSegments_isOk (chain.syncedRoots hasher)
    fun segId stale shelved => coherent.clean segId shelved stale
  exact bind_isOk done ⟨_, rfl⟩

end

theorem coherent_withLogSlots (hasher : StateHasher D) (logSlots : Nat) :
    (withLogSlots hasher logSlots).Coherent hasher (fun _ => .empty) where
  holds := Holds.newEmpty logSlots
  cache := ExactSegmentRootCache.wellFormed_empty hasher logSlots
  ahead := le_rfl
  shallow := fun behind => absurd behind (lt_irrefl _)
  roots := fun segId _ _ => (StateHasher.slotRoot_empty _).symm
  clean := fun segId shelved => by cases shelved

/-- Rewriting storage keeps coherence with the rewritten map. -/
theorem Coherent.rewritten (coherent : chain.Coherent hasher slots) {new : Nat → SlotValue}
    (holds : state.Holds new) (rewritten : Rewritten chain.state state slots new) :
    { chain with state := state }.Coherent hasher new where
  holds := holds
  cache := coherent.cache
  ahead := rewritten.logSlots.trans_le coherent.ahead
  shallow := fun behind small => by
    by_contra clean
    refine (rewritten.kept 0 clean).1 (coherent.shallow ?_ ?_)
    · exact rewritten.logSlots ▸ behind
    · exact rewritten.logSlots ▸ small
  roots := fun segId inRange clean => by
    obtain ⟨cleanBefore, same⟩ := rewritten.kept segId clean
    rw [show ({ chain with state := state } : ChainState D).state.effectiveLogSegmentSize =
      chain.state.effectiveLogSegmentSize by
        simp [effectiveLogSegmentSize, rewritten.logSlots]]
    refine (coherent.roots segId (rewritten.numSegments ▸ inRange) cleanBefore).trans ?_
    exact StateHasher.slotRoot_congr fun i bound => (segmentOf_inj same bound).symm
  clean := fun segId shelved marked => by
    have evicted : segId ∈ chain.state.evicted := rewritten.evicted ▸ shelved
    rcases rewritten.marked segId marked with earlier | fresh
    · exact coherent.clean segId evicted earlier
    · exact fresh evicted

/-- The cached root of a synchronised state without stale segments. -/
theorem Coherent.cachedRoot_eq (coherent : chain.Coherent hasher slots) (synced : chain.Synced)
    (fresh : chain.state.exactDirty = []) :
    chain.exactRoots.root = hasher.slotRoot chain.state.logSlots slots :=
  root_eq_slotRoot coherent.cache synced fun segId inRange =>
    coherent.roots segId inRange (by simp [fresh])

theorem Coherent.expandedRoots (coherent : chain.Coherent hasher slots) (synced : chain.Synced)
    {state : SegmentedFriState} (logSlots : state.logSlots = chain.state.logSlots + 1)
    {segId : Nat} (inRange : segId < state.numSegments)
    (clean : segId ∉ chain.state.exactDirty)
    (current : chain.state.logSlots + 1 ≤ logSegmentSize → chain.state.exactDirty = []) :
    (chain.exactRoots.expandOne hasher).segmentRoots segId =
      hasher.segmentRoot state.effectiveLogSegmentSize slots segId := by
  have cacheLog : chain.exactRoots.logSlots = chain.state.logSlots := synced
  have outside := coherent.holds.outside
  rcases lt_or_ge chain.state.logSlots logSegmentSize with small | large
  · have single : state.numSegments = 1 := single_segment (by omega)
    obtain rfl : segId = 0 := by omega
    rw [ExactSegmentRootCache.expandOne_segmentRoots_small (by omega), cacheLog,
      coherent.cachedRoot_eq synced (current small), effectiveLogSegmentSize, logSlots,
      min_eq_left (by omega), ← StateHasher.slotRoot_expand outside]
    exact StateHasher.slotRoot_congr fun i _ => by rw [zero_mul, zero_add]
  · have size : chain.state.effectiveLogSegmentSize = logSegmentSize := min_eq_right large
    rw [ExactSegmentRootCache.expandOne_segmentRoots_large (cacheLog ▸ large),
      SameGeometry.segmentCount synced coherent.cache, effectiveLogSegmentSize, logSlots,
      min_eq_right (by omega)]
    split_ifs with lower
    · rw [coherent.roots segId lower clean, size]
    · rw [← StateHasher.slotRoot_empty]
      refine StateHasher.slotRoot_congr fun i _ => (outside _ ?_).symm
      rw [← numSegments_mul, full_size large]
      have := Nat.mul_le_mul_right (2 ^ logSegmentSize) (Nat.not_lt.mp lower)
      omega

section

variable (coherent : chain.Coherent hasher slots)

include coherent

theorem Coherent.expandOne [DecidableEq D] (synced : chain.Synced)
    (expanded : chain.expandOne hasher = .ok after) :
    after.Coherent hasher slots ∧ after.Synced ∧
      after.state.logSlots = chain.state.logSlots + 1 ∧
      after.state.evicted = chain.state.evicted ∧
      (∀ segId ∈ after.state.dirty, segId ∈ chain.state.dirty) ∧
      (chain.Rooted hasher slots → after.Rooted hasher slots) ∧
      after.activeSlotCount = chain.activeSlotCount ∧
      after.allocCounter = chain.allocCounter ∧
      after.circulatingSupply = chain.circulatingSupply := by
  have cacheLog : chain.exactRoots.logSlots = chain.state.logSlots := synced
  simp only [ChainState.expandOne, bind_eq_ok, pure_eq_ok] at expanded
  obtain ⟨storage, grown, rfl⟩ := expanded
  obtain ⟨holds, logSlots, evicted, -, notEvicted, dirty, exact⟩ :=
    expand_eq_ok coherent.holds grown
  set current := chain.state.exactDirty = [] ∧ chain.exactRoots.logSlots = chain.state.logSlots ∧
    chain.exactRoots.root = chain.utxoRoot with currentDef
  have storageLog : (if current then storage.clearExactDirty else storage).logSlots =
      chain.state.logSlots + 1 := by
    split_ifs <;> exact logSlots
  have storageHolds : (if current then storage.clearExactDirty else storage).Holds slots := by
    split_ifs
    · exact holds.clearExactDirty
    · exact holds
  have storageEvicted : (if current then storage.clearExactDirty else storage).evicted =
      chain.state.evicted := by
    split_ifs <;> exact evicted
  have storageDirty : (if current then storage.clearExactDirty else storage).dirty =
      storage.dirty := by
    split_ifs <;> rfl
  -- Either the cache was current, or below the segment size the only segment stays marked.
  have marked : ∀ segId, segId ∉ (if current then storage.clearExactDirty else storage).exactDirty →
      segId < (if current then storage.clearExactDirty else storage).numSegments →
      segId ∉ chain.state.exactDirty ∧
        (chain.state.logSlots + 1 ≤ logSegmentSize → chain.state.exactDirty = []) := by
    intro segId clean inRange
    split_ifs at clean inRange with isCurrent
    · exact ⟨by simp [isCurrent.1], fun _ => isCurrent.1⟩
    · rw [exact, not_or] at clean
      refine ⟨clean.1, fun small => absurd ⟨small, ?_⟩ clean.2⟩
      rw [single_segment (by omega)] at inRange
      omega
  have apart : ∀ segId ∈ chain.state.evicted,
      segId ∉ (if current then storage.clearExactDirty else storage).exactDirty := by
    intro segId shelved
    split_ifs with isCurrent
    · exact not_mem_nil
    · rw [exact]
      rintro (stale | ⟨small, rfl⟩)
      · exact coherent.clean segId shelved stale
      · exact notEvicted small shelved
  generalize (if current then storage.clearExactDirty else storage) = next at *
  refine ⟨⟨storageHolds, coherent.cache.expandOne, ?_, fun behind => ?_,
    fun segId inRange clean => ?_, fun segId shelved => apart segId (storageEvicted ▸ shelved)⟩, ?_,
    storageLog, storageEvicted, fun segId mem => ?_, fun rooted => ?_, rfl, rfl, rfl⟩
  · rw [ExactSegmentRootCache.expandOne_logSlots, cacheLog]
    exact storageLog.le
  · rw [ExactSegmentRootCache.expandOne_logSlots, cacheLog] at behind
    exact absurd behind (by rw [storageLog]; exact lt_irrefl _)
  · obtain ⟨cleanBefore, isCurrent⟩ := marked segId clean inRange
    exact coherent.expandedRoots synced storageLog inRange cleanBefore isCurrent
  · change (chain.exactRoots.expandOne hasher).logSlots = _
    rw [ExactSegmentRootCache.expandOne_logSlots, cacheLog]
    exact storageLog.symm
  · exact dirty segId (storageDirty ▸ mem)
  · change hasher.stateNodeHash chain.utxoRoot _ = hasher.slotRoot _ slots
    rw [storageLog, StateHasher.slotRoot_expand coherent.holds.outside]
    exact congrArg (hasher.stateNodeHash · _) rooted

theorem Coherent.expandExactMetadataForReplay (synced : chain.Synced)
    (expanded : chain.expandExactMetadataForReplay hasher = .ok after) :
    after.Coherent hasher slots ∧ after.Synced ∧
      after.state.logSlots = chain.state.logSlots + 1 ∧
      after.state.evicted = chain.state.evicted ∧
      (chain.Rooted hasher slots → after.Rooted hasher slots) ∧
      after.activeSlotCount = chain.activeSlotCount ∧
      after.allocCounter = chain.allocCounter ∧
      after.circulatingSupply = chain.circulatingSupply := by
  have cacheLog : chain.exactRoots.logSlots = chain.state.logSlots := synced
  simp only [ChainState.expandExactMetadataForReplay, bind_eq_ok, pure_eq_ok,
    expandExactMetadataForReplay_eq_ok] at expanded
  obtain ⟨storage, ⟨⟨large, -⟩, rfl⟩, rfl⟩ := expanded
  have holds := coherent.holds.appendSegments large
  refine ⟨⟨holds, coherent.cache.expandOne, ?_, fun behind => ?_, fun segId inRange clean => ?_,
    coherent.clean⟩, ?_, rfl, rfl, fun rooted => ?_, rfl, rfl, rfl⟩
  · rw [ExactSegmentRootCache.expandOne_logSlots, cacheLog]
  · rw [ExactSegmentRootCache.expandOne_logSlots, cacheLog] at behind
    exact absurd behind (lt_irrefl _)
  · exact coherent.expandedRoots synced rfl inRange clean fun small => by omega
  · change (chain.exactRoots.expandOne hasher).logSlots = chain.state.logSlots + 1
    rw [ExactSegmentRootCache.expandOne_logSlots, cacheLog]
  · change hasher.stateNodeHash chain.utxoRoot _ = hasher.slotRoot (chain.state.logSlots + 1) slots
    rw [StateHasher.slotRoot_expand coherent.holds.outside]
    exact congrArg (hasher.stateNodeHash · _) rooted

theorem Coherent.shrinkToLogSlots {target : Nat}
    (shrunk : chain.state.shrinkToLogSlots target = .ok state) :
    { chain with state := state }.Coherent hasher slots := by
  obtain ⟨holds, logSlots, evicted, -, same, from_, zero, kept⟩ :=
    coherent.holds.shrinkToLogSlots shrunk
  have below : target ≤ chain.state.logSlots := by
    simp only [SegmentedFriState.shrinkToLogSlots, bind_eq_ok, require_eq_ok, exists_const]
      at shrunk
    exact shrunk.1.2
  rcases eq_or_lt_of_le below with equal | lower
  · rw [same equal]
    exact coherent
  · refine ⟨holds, coherent.cache, ?_, fun _ small => ?_, fun segId inRange clean => ?_,
      fun segId shelved stale => ?_⟩
    · exact (logSlots.trans_le below).trans coherent.ahead
    · exact (zero (logSlots ▸ small) lower).1
    · rcases lt_or_ge target logSegmentSize with small | large
      · obtain rfl : segId = 0 := by
          rw [single_segment (by simp only [logSlots]; omega)] at inRange
          omega
        exact absurd (zero small lower).1 clean
      · have size : ({ chain with state := state } : ChainState D).state.effectiveLogSegmentSize =
            chain.state.effectiveLogSegmentSize := by
          simp only [effectiveLogSegmentSize, logSlots]
          omega
        have inRangeBefore : segId < chain.state.numSegments := by
          refine inRange.trans_le ?_
          rw [full_count (by simp only [logSlots]; exact large), full_count (large.trans below)]
          exact Nat.pow_le_pow_right (by norm_num) (by simp only [logSlots]; omega)
        rw [size]
        exact coherent.roots segId inRangeBefore fun stale => clean (kept segId inRange stale)
    · have shelvedBefore : segId ∈ chain.state.evicted := evicted ▸ shelved
      rcases from_ segId stale with earlier | ⟨rfl, small⟩
      · exact coherent.clean segId shelvedBefore earlier
      · exact (zero small lower).2 shelvedBefore

theorem Coherent.clearDirty :
    { chain with state := chain.state.clearDirty }.Coherent hasher slots :=
  ⟨coherent.holds.clearDirty, coherent.cache, coherent.ahead, coherent.shallow, coherent.roots,
    coherent.clean⟩

end

variable {segId : Nat}

theorem Coherent.evictSegment (coherent : chain.Coherent hasher slots)
    (current : segId ∉ chain.state.exactDirty) :
    { chain with state := chain.state.evictSegment segId }.Coherent hasher slots := by
  have frame : (chain.state.evictSegment segId).logSlots = chain.state.logSlots ∧
      (chain.state.evictSegment segId).exactDirty = chain.state.exactDirty := by
    unfold SegmentedFriState.evictSegment
    split <;> exact ⟨rfl, rfl⟩
  have size : (chain.state.evictSegment segId).effectiveLogSegmentSize =
      chain.state.effectiveLogSegmentSize := by
    simp [effectiveLogSegmentSize, frame.1]
  refine ⟨coherent.holds.evictSegment segId, coherent.cache, ?_, ?_, fun other inRange clean => ?_,
    fun other shelved => ?_⟩
  · exact frame.1.trans_le coherent.ahead
  · simp only [frame.1, frame.2]
    exact coherent.shallow
  · rw [size]
    refine coherent.roots other ?_ (frame.2 ▸ clean)
    have : (chain.state.evictSegment segId).numSegments = chain.state.numSegments := by
      simp [numSegments, effectiveLogSegmentSize, frame.1]
    exact this ▸ inRange
  · rw [frame.2]
    rcases mem_evicted_evictSegment.mp shelved with earlier | ⟨rfl, -⟩
    · exact coherent.clean other earlier
    · exact current

variable {columns : SegmentColumns}

theorem restoreEvictedSegment_eq_ok [DecidableEq D] :
    chain.restoreEvictedSegment hasher segId columns = .ok after ↔
      columns.length = chain.state.segmentSlotCount ∧
        chain.state.liveCounts segId = countLive columns ∧
        (segId < chain.exactRoots.segmentCount ∧ chain.exactRoots.segmentRoots segId =
          hasher.slotRoot chain.state.effectiveLogSegmentSize (columns.getD · .empty)) ∧
        { chain with state := chain.state.restoreEvictedSegment segId columns } = after := by
  simp only [ChainState.restoreEvictedSegment, bind_eq_ok, require_eq_ok, exists_const, pure_eq_ok,
    StateHasher.exactSegmentRootWithUpdates_eq]
  rfl

section

variable (free : hasher.CollisionFree)

include free

/-- Collision-free hashes let only the represented columns of a segment in. -/
theorem Coherent.columns_of_current [DecidableEq D] (coherent : chain.Coherent hasher slots)
    (inRange : segId < chain.state.numSegments) (current : segId ∉ chain.state.exactDirty)
    (restored : chain.restoreEvictedSegment hasher segId columns = .ok after) :
    columns = segmentOf chain.state.segmentSlotCount slots segId := by
  obtain ⟨length, -, ⟨-, root⟩, -⟩ := restoreEvictedSegment_eq_ok.mp restored
  have committed := coherent.roots segId inRange current
  have equal := free.slotRoot_injective (committed.symm.trans root)
  refine ext_getElem (by simp [length]) fun i left right => ?_
  rw [length_segmentOf] at right
  have := equal i right
  simp only [segmentOf, getElem_map, getElem_range]
  rw [getD_eq_getElem _ _ left] at this
  exact this.symm

theorem Coherent.restoreCurrentSegment [DecidableEq D] (coherent : chain.Coherent hasher slots)
    (inRange : segId < chain.state.numSegments) (current : segId ∉ chain.state.exactDirty)
    (restored : chain.restoreEvictedSegment hasher segId columns = .ok after) :
    after.Coherent hasher slots := by
  have same := coherent.columns_of_current free inRange current restored
  obtain ⟨-, -, -, rfl⟩ := restoreEvictedSegment_eq_ok.mp restored
  refine ⟨coherent.holds.restoreEvictedSegment same, coherent.cache, coherent.ahead,
    coherent.shallow, coherent.roots, fun other mem => ?_⟩
  exact coherent.clean other (mem_of_mem_filter mem)

/-- Collision-free hashes let only the evicted columns back in. -/
theorem Coherent.restored_columns [DecidableEq D] (coherent : chain.Coherent hasher slots)
    (shelved : segId ∈ chain.state.evicted)
    (restored : chain.restoreEvictedSegment hasher segId columns = .ok after) :
    columns = segmentOf chain.state.segmentSlotCount slots segId :=
  coherent.columns_of_current free (coherent.holds.evicted_lt shelved)
    (coherent.clean segId shelved) restored

theorem Coherent.restoreEvictedSegment [DecidableEq D] (coherent : chain.Coherent hasher slots)
    (shelved : segId ∈ chain.state.evicted)
    (restored : chain.restoreEvictedSegment hasher segId columns = .ok after) :
    after.Coherent hasher slots :=
  coherent.restoreCurrentSegment free (coherent.holds.evicted_lt shelved)
    (coherent.clean segId shelved) restored

end

end ChainState
end Jetsam
