import Jetsam.State.Storage

/-!
# Resizing and residency

Expansion, its rollback, eviction and restoration keep the represented slot map. A rollback succeeds
only when the discarded half is empty.
-/

namespace Jetsam

open Control List Function

namespace SegmentedFriState

variable {state after : SegmentedFriState} {slots : Nat → SlotValue}

theorem countLive_append (left right : SegmentColumns) :
    countLive (left ++ right) = countLive left + countLive right :=
  countP_append

theorem segmentOf_double (size : Nat) (slots : Nat → SlotValue) :
    segmentOf (2 * size) slots 0 = segmentOf size slots 0 ++ segmentOf size slots 1 := by
  rw [segmentOf, two_mul, range_add, map_append, map_map]
  simp [segmentOf, comp_def]

variable {segId : Nat}

theorem segmentOf_eq_replicate {size : Nat} {slots : Nat → SlotValue}
    (vacant : ∀ i < size, slots (segId * size + i) = .empty) :
    segmentOf size slots segId = List.replicate size .empty := by
  refine eq_replicate_iff.mpr ⟨by simp, fun slot mem => ?_⟩
  simp only [segmentOf, mem_map, mem_range] at mem
  obtain ⟨i, bound, rfl⟩ := mem
  exact vacant i bound

theorem flushAllDirty_eq_ok :
    state.flushAllDirty = .ok after ↔
      (∀ segId ∈ state.dirty, segId ∉ state.evicted) ∧ { state with dirty := [] } = after := by
  simp only [flushAllDirty, bind_eq_ok, require_eq_ok, exists_const, pure_eq_ok]

/-- The represented map does not depend on the storage commitments. -/
theorem Holds.withDirty (holds : state.Holds slots) (dirty : List Nat) :
    { state with dirty := dirty }.Holds slots :=
  ⟨holds.outside, holds.live, holds.resident, holds.present, holds.apart, holds.stale⟩

theorem Holds.clearDirty (holds : state.Holds slots) : state.clearDirty.Holds slots :=
  ⟨holds.outside, holds.live, holds.resident, holds.present, holds.apart, holds.stale⟩

theorem Holds.clearExactDirty (holds : state.Holds slots) : state.clearExactDirty.Holds slots :=
  ⟨holds.outside, holds.live, holds.resident, holds.present, holds.apart,
    fun _ marked => by simp [SegmentedFriState.clearExactDirty] at marked⟩

section Geometry

theorem single_segment (small : state.logSlots ≤ logSegmentSize) : state.numSegments = 1 := by
  simp [numSegments, effectiveLogSegmentSize, small]

theorem single_size (small : state.logSlots ≤ logSegmentSize) :
    state.segmentSlotCount = state.numSlots := by
  simp [segmentSlotCount, effectiveLogSegmentSize, numSlots, small]

theorem full_size (large : logSegmentSize ≤ state.logSlots) :
    state.segmentSlotCount = 2 ^ logSegmentSize := by
  simp [segmentSlotCount, effectiveLogSegmentSize, large]

theorem full_count (large : logSegmentSize ≤ state.logSlots) :
    state.numSegments = 2 ^ (state.logSlots - logSegmentSize) := by
  simp [numSegments, effectiveLogSegmentSize, large]

section

variable (holds : state.Holds slots)

include holds

theorem Holds.live_eq_zero (beyond : state.numSegments ≤ segId) :
    state.liveCounts segId = 0 := by
  by_contra occupied
  exact absurd (holds.segId_lt occupied) (not_lt.mpr beyond)

theorem Holds.segments_eq_none (beyond : state.numSegments ≤ segId) :
    state.segments segId = none := by
  by_contra loaded
  exact (holds.present segId).mpr (Or.inl (Option.isSome_iff_ne_none.mpr loaded))
    (holds.live_eq_zero beyond)

theorem Holds.resized_segments {count : Nat} (covered : state.numSegments ≤ count) :
    resized count state.segments none = state.segments := by
  funext segId
  unfold resized
  split
  · rfl
  · exact (holds.segments_eq_none (by omega)).symm

theorem Holds.resized_liveCounts {count : Nat} (covered : state.numSegments ≤ count) :
    resized count state.liveCounts 0 = state.liveCounts := by
  funext segId
  unfold resized
  split
  · rfl
  · exact (holds.live_eq_zero (by omega)).symm

end

end Geometry

section Expansion

theorem Holds.growSegment (holds : state.Holds slots)
    (small : state.logSlots + 1 ≤ logSegmentSize) :
    { state with
      logSlots := state.logSlots + 1
      segments := update state.segments 0
        ((state.segments 0).map (· ++ List.replicate (2 ^ state.logSlots) SlotValue.empty))
      dirty := state.dirty.insert 0
      exactDirty := state.exactDirty.insert 0 }.Holds slots := by
  have size : state.segmentSlotCount = 2 ^ state.logSlots := single_size (by omega)
  have count : state.numSegments = 1 := single_segment (by omega)
  have upper : ∀ index, 2 ^ state.logSlots ≤ index → slots index = .empty := holds.outside
  have grown : segmentOf (2 ^ (state.logSlots + 1)) slots 0 =
      segmentOf state.segmentSlotCount slots 0 ++
        List.replicate (2 ^ state.logSlots) SlotValue.empty := by
    rw [pow_succ, mul_comm, segmentOf_double, size]
    congr 1
    exact segmentOf_eq_replicate fun i _ => upper _ (by omega)
  refine ⟨fun index beyond => ?_, fun segId => ?_, fun segId columns loaded => ?_, fun segId => ?_,
    fun segId shelved => ?_, fun segId marked => ?_⟩
  · refine upper index (le_trans ?_ beyond)
    exact Nat.pow_le_pow_right (by norm_num) (Nat.le_succ _)
  · rw [single_size (by exact small)]
    rcases eq_zero_or_pos segId with rfl | pos
    · change state.liveCounts 0 = countLive (segmentOf (2 ^ (state.logSlots + 1)) slots 0)
      rw [grown, countLive_append, holds.live]
      simp [countLive]
    · change state.liveCounts segId = _
      rw [holds.live_eq_zero (by omega), eq_comm, countLive_segmentOf_eq_zero]
      intro i _
      refine upper _ ?_
      change 2 ^ state.logSlots ≤ segId * 2 ^ (state.logSlots + 1) + i
      have := Nat.mul_le_mul_right (2 ^ (state.logSlots + 1)) pos
      omega
  · rw [single_size (by exact small)]
    change update state.segments 0 _ segId = some columns at loaded
    rcases eq_zero_or_pos segId with rfl | pos
    · rw [update_self, Option.map_eq_some_iff] at loaded
      obtain ⟨stored, storedAt, rfl⟩ := loaded
      rw [holds.resident _ _ storedAt]
      exact grown.symm
    · rw [update_of_ne (by omega), holds.segments_eq_none (by omega)] at loaded
      cases loaded
  · change state.liveCounts segId ≠ 0 ↔ (update state.segments 0 _ segId).isSome ∨
      segId ∈ state.evicted
    rcases eq_zero_or_pos segId with rfl | pos
    · simpa using holds.present 0
    · rw [update_of_ne (by omega)]
      exact holds.present segId
  · obtain rfl : segId = 0 := by
      have := holds.evicted_lt shelved
      omega
    simpa using holds.apart 0 shelved
  · rw [single_segment (by exact small)]
    rcases mem_insert_iff.mp marked with rfl | earlier
    · exact zero_lt_one
    · exact (holds.stale segId earlier).trans_eq count

theorem Holds.appendSegments (holds : state.Holds slots)
    (large : logSegmentSize ≤ state.logSlots) :
    { state with
      logSlots := state.logSlots + 1
      segments := resized state.numSegments state.segments none
      liveCounts := resized state.numSegments state.liveCounts 0 }.Holds slots := by
  rw [holds.resized_segments le_rfl, holds.resized_liveCounts le_rfl]
  have size := full_size large
  have grownSize : { state with logSlots := state.logSlots + 1 }.segmentSlotCount =
      state.segmentSlotCount := by
    rw [size]
    exact @full_size { state with logSlots := state.logSlots + 1 } (large.trans (Nat.le_succ _))
  refine ⟨fun index beyond => holds.outside index (le_trans ?_ beyond), fun segId => ?_,
    fun segId columns loaded => ?_, holds.present, holds.apart, fun segId marked => ?_⟩
  · exact Nat.pow_le_pow_right (by norm_num) (Nat.le_succ _)
  · rw [grownSize]
    exact holds.live segId
  · rw [grownSize]
    exact holds.resident segId columns loaded
  · refine (holds.stale segId marked).trans_le ?_
    rw [full_count large, full_count (by exact large.trans (Nat.le_succ _))]
    exact Nat.pow_le_pow_right (by norm_num) (Nat.sub_le_sub_right (Nat.le_succ _) _)

theorem expand_eq_ok (holds : state.Holds slots) (expanded : state.expand = .ok after) :
    after.Holds slots ∧ after.logSlots = state.logSlots + 1 ∧ after.evicted = state.evicted ∧
      after.mdbxDirty = state.mdbxDirty ∧
      (state.logSlots + 1 ≤ logSegmentSize → 0 ∉ state.evicted) ∧
      (∀ segId ∈ after.dirty, segId ∈ state.dirty) ∧
      ∀ segId, segId ∈ after.exactDirty ↔
        segId ∈ state.exactDirty ∨ state.logSlots + 1 ≤ logSegmentSize ∧ segId = 0 := by
  unfold expand at expanded
  split at expanded
  next small =>
    obtain ⟨flushable, rfl⟩ := flushAllDirty_eq_ok.mp expanded
    refine ⟨(holds.growSegment small).withDirty [], rfl, rfl, rfl,
      fun _ => flushable 0 (mem_insert_iff.mpr (Or.inl rfl)), fun segId mem => ?_,
      fun segId => ?_⟩
    · cases mem
    · simp only [mem_insert_iff]
      tauto
  next large =>
    cases expanded
    refine ⟨holds.appendSegments (by omega), rfl, rfl, rfl, fun small => absurd small large,
      fun _ => id, fun segId => ?_⟩
    constructor
    · exact Or.inl
    · rintro (marked | ⟨small, -⟩)
      · exact marked
      · exact absurd small large

/-- Expansion fails only below the segment size, on a commitment of the evicted segment. -/
theorem expand_isOk (resident : state.logSlots + 1 ≤ logSegmentSize → state.evicted = []) :
    ∃ after, state.expand = .ok after := by
  unfold expand
  split
  next small =>
    refine ⟨_, flushAllDirty_eq_ok.mpr ⟨fun segId _ => ?_, rfl⟩⟩
    simp [resident small]
  next => exact ⟨_, rfl⟩

theorem expandExactMetadataForReplay_eq_ok :
    state.expandExactMetadataForReplay = .ok after ↔
      (logSegmentSize ≤ state.logSlots ∧ state.logSlots < logSlotsMax) ∧
        { state with
          logSlots := state.logSlots + 1
          segments := resized state.numSegments state.segments none
          liveCounts := resized state.numSegments state.liveCounts 0 } = after := by
  simp only [expandExactMetadataForReplay, bind_eq_ok, require_eq_ok, exists_const, pure_eq_ok,
    effectiveLogSegmentSize, inf_eq_right]

end Expansion

section Rollback

theorem upperObstacle_eq_none {start : Nat} :
    state.upperObstacle start = none ↔
      ∀ segId, start ≤ segId → segId < state.numSegments →
        segId ∉ state.evicted ∧ state.liveCounts segId = 0 := by
  simp only [upperObstacle, findSome?_eq_none_iff, mem_range'_1]
  refine forall_congr' fun segId => ?_
  constructor
  · intro clear lower upper
    have := clear ⟨lower, by omega⟩
    split_ifs at this with shelved occupied
    exact ⟨shelved, by omega⟩
  · rintro clear ⟨lower, upper⟩
    obtain ⟨notEvicted, vacant⟩ := clear lower (by omega)
    simp [notEvicted, vacant]

def EmptyAbove (slots : Nat → SlotValue) (logSlots : Nat) : Prop :=
  ∀ index, 2 ^ logSlots ≤ index → slots index = .empty

variable {target : Nat}

/-- Vacant upper segments are exactly an empty upper part of the map. -/
theorem Holds.emptyAbove_iff (holds : state.Holds slots) (large : logSegmentSize ≤ target)
    (below : target ≤ state.logSlots) :
    EmptyAbove slots target ↔
      ∀ segId, 2 ^ (target - logSegmentSize) ≤ segId → state.liveCounts segId = 0 := by
  have size : state.segmentSlotCount = 2 ^ logSegmentSize := full_size (large.trans below)
  have split : 2 ^ target = 2 ^ (target - logSegmentSize) * 2 ^ logSegmentSize := by
    rw [← pow_add, Nat.sub_add_cancel large]
  constructor
  · intro vacant segId upper
    rw [holds.live, countLive_segmentOf_eq_zero, size]
    intro i _
    refine vacant _ ?_
    rw [split]
    exact (Nat.mul_le_mul_right _ upper).trans (Nat.le_add_right _ _)
  · intro vacant index beyond
    have upper : 2 ^ (target - logSegmentSize) ≤ state.segIdOf index := by
      rw [segIdOf, size, Nat.le_div_iff_mul_le (Nat.two_pow_pos _), ← split]
      exact beyond
    have empty := vacant _ upper
    rw [holds.live, countLive_segmentOf_eq_zero] at empty
    have := empty _ (state.localIdxOf_lt index)
    rwa [segIdOf_mul_add] at this

theorem Holds.truncateSegments (holds : state.Holds slots) (large : logSegmentSize ≤ target)
    (below : target ≤ state.logSlots) (vacant : EmptyAbove slots target) :
    (state.truncateSegments target (2 ^ (target - logSegmentSize))).Holds slots ∧
      (state.truncateSegments target (2 ^ (target - logSegmentSize))).evicted = state.evicted := by
  set count := 2 ^ (target - logSegmentSize) with countDef
  have empty := (holds.emptyAbove_iff large below).mp vacant
  have size : state.segmentSlotCount = 2 ^ logSegmentSize := full_size (large.trans below)
  have newSize : (state.truncateSegments target count).segmentSlotCount =
      state.segmentSlotCount := by
    rw [size]
    exact full_size large
  have segments : resized count state.segments none = state.segments := by
    funext segId
    unfold resized
    split
    · rfl
    · by_contra loaded
      exact (holds.present segId).mpr (Or.inl (Option.isSome_iff_ne_none.mpr (Ne.symm loaded)))
        (empty segId (by omega))
  have liveCounts : resized count state.liveCounts 0 = state.liveCounts := by
    funext segId
    unfold resized
    split
    · rfl
    · exact (empty segId (by omega)).symm
  have evicted : state.evicted.filter (· < count) = state.evicted := by
    refine filter_eq_self.mpr fun segId shelved => ?_
    by_contra upper
    exact (holds.present segId).mpr (Or.inr shelved) (empty segId (by simpa using upper))
  refine ⟨⟨vacant, fun segId => ?_, fun segId columns loaded => ?_, fun segId => ?_,
    fun segId shelved => ?_, fun segId marked => ?_⟩, evicted⟩
  · rw [newSize]
    exact (congrFun liveCounts segId).trans (holds.live segId)
  · rw [newSize]
    exact holds.resident segId columns ((congrFun segments segId).symm.trans loaded)
  · change resized count state.liveCounts 0 segId ≠ 0 ↔
      (resized count state.segments none segId).isSome ∨ segId ∈ state.evicted.filter (· < count)
    rw [segments, liveCounts, evicted]
    exact holds.present segId
  · change resized count state.segments none segId = none
    rw [segments]
    exact holds.apart segId (evicted ▸ shelved)
  · rw [@full_count (state.truncateSegments target count) large]
    exact of_decide_eq_true (mem_filter.mp marked).2

/-- The lower half of the single segment of a shallow state. -/
def lowerHalf (state : SegmentedFriState) (slots : Nat → SlotValue) : SegmentedFriState :=
  let lower := segmentOf (2 ^ (state.logSlots - 1)) slots 0
  { state with
    liveCounts := Function.update state.liveCounts 0 (countLive lower)
    segments := Function.update state.segments 0 (liveColumns lower) }

theorem numSlots_eq_double (pos : 1 ≤ state.logSlots) :
    state.numSlots = 2 * 2 ^ (state.logSlots - 1) := by
  rw [numSlots, ← pow_succ', Nat.sub_add_cancel pos]

/-- In a single-segment domain the upper half of the map is the second half segment. -/
theorem Holds.emptyAbove_half (holds : state.Holds slots) (pos : 1 ≤ state.logSlots) :
    EmptyAbove slots (state.logSlots - 1) ↔
      ∀ slot ∈ segmentOf (2 ^ (state.logSlots - 1)) slots 1, slot = SlotValue.empty := by
  have double := numSlots_eq_double pos
  set log := state.logSlots - 1
  constructor
  · intro vacant slot mem
    simp only [segmentOf, mem_map] at mem
    obtain ⟨i, -, rfl⟩ := mem
    exact vacant _ (by omega)
  · intro vacant index beyond
    by_cases inUpper : index < 2 * 2 ^ log
    · refine vacant _ ?_
      simp only [segmentOf, mem_map, mem_range]
      exact ⟨index - 2 ^ log, by omega, by congr 1; omega⟩
    · exact holds.outside index (by omega)

theorem Holds.cutUpperHalf_eq_ok (holds : state.Holds slots) (pos : 1 ≤ state.logSlots)
    (small : state.logSlots ≤ logSegmentSize) (notEvicted : 0 ∉ state.evicted) :
    state.cutUpperHalf = .ok after ↔
      EmptyAbove slots (state.logSlots - 1) ∧ state.lowerHalf slots = after := by
  have size : state.segmentSlotCount = 2 * 2 ^ (state.logSlots - 1) := by
    rw [single_size small, numSlots_eq_double pos]
  rw [holds.emptyAbove_half pos]
  simp only [cutUpperHalf, SegmentedFriState.lowerHalf]
  set log := state.logSlots - 1
  cases loaded : state.segments 0 with
  | none =>
    have empty : ∀ i < 2 * 2 ^ log, slots i = .empty := by
      have := holds.vacant loaded notEvicted
      simpa only [size, zero_mul, zero_add] using this
    have upper : ∀ slot ∈ segmentOf (2 ^ log) slots 1, slot = SlotValue.empty := by
      intro slot mem
      simp only [segmentOf, mem_map, mem_range] at mem
      obtain ⟨i, bound, rfl⟩ := mem
      exact empty _ (by omega)
    have lower : countLive (segmentOf (2 ^ log) slots 0) = 0 :=
      countLive_segmentOf_eq_zero.mpr fun i bound => empty _ (by omega)
    have counts : update state.liveCounts 0 0 = state.liveCounts := by
      refine update_eq_self_iff.mpr ?_
      by_contra occupied
      rcases (holds.present 0).mp (Ne.symm occupied) with some | shelved
      · simp [loaded] at some
      · exact notEvicted shelved
    rw [lower, liveColumns, if_pos lower, counts, ← loaded, update_eq_self]
    simp only [loaded, Except.ok.injEq]
    exact ⟨fun equal => ⟨upper, equal⟩, fun both => both.2⟩
  | some stored =>
    have halves : stored = segmentOf (2 ^ log) slots 0 ++ segmentOf (2 ^ log) slots 1 := by
      rw [holds.resident 0 stored loaded, size, segmentOf_double]
    have lower : stored.take (2 ^ log) = segmentOf (2 ^ log) slots 0 := by
      rw [halves]
      exact take_left' (by simp)
    have upper : stored.drop (2 ^ log) = segmentOf (2 ^ log) slots 1 := by
      rw [halves]
      exact drop_left' (by simp)
    simp only [bind_eq_ok, require_eq_ok, exists_const, pure_eq_ok, lower, upper]
    rfl

theorem Holds.lowerHalf (holds : state.Holds slots) (small : state.logSlots ≤ logSegmentSize)
    (notEvicted : 0 ∉ state.evicted) (vacant : EmptyAbove slots (state.logSlots - 1)) :
    { (state.lowerHalf slots) with logSlots := state.logSlots - 1 }.Holds slots := by
  have count : state.numSegments = 1 := single_segment small
  have size : { (state.lowerHalf slots) with logSlots := state.logSlots - 1 }.segmentSlotCount =
      2 ^ (state.logSlots - 1) :=
    single_size (by simp only; omega)
  have sameEvicted : ∀ segId, segId ∉ state.evicted := fun segId shelved => by
    have := holds.evicted_lt shelved
    obtain rfl : segId = 0 := by omega
    exact notEvicted shelved
  refine ⟨vacant, fun segId => ?_, fun segId stored loaded => ?_, fun segId => ?_,
    fun segId shelved => absurd shelved (sameEvicted segId), fun segId marked => ?_⟩
  · rw [size]
    change update state.liveCounts 0 _ segId = _
    rcases eq_zero_or_pos segId with rfl | above
    · rw [update_self]
    · rw [update_of_ne (by omega), holds.live_eq_zero (by omega), eq_comm,
        countLive_segmentOf_eq_zero]
      intro i _
      have := Nat.mul_le_mul_right (2 ^ (state.logSlots - 1)) above
      exact vacant _ (by omega)
  · rw [size]
    change update state.segments 0 _ segId = some stored at loaded
    rcases eq_zero_or_pos segId with rfl | above
    · rw [update_self, liveColumns] at loaded
      split at loaded
      · cases loaded
      · exact (Option.some.inj loaded).symm
    · rw [update_of_ne (by omega), holds.segments_eq_none (by omega)] at loaded
      cases loaded
  · change update state.liveCounts 0 _ segId ≠ 0 ↔
      (update state.segments 0 _ segId).isSome ∨ segId ∈ state.evicted
    rcases eq_zero_or_pos segId with rfl | above
    · rw [update_self, update_self, liveColumns]
      split <;> simp_all
    · rw [update_of_ne (by omega), update_of_ne (by omega)]
      exact holds.present segId
  · rw [single_segment (by simp only; omega)]
    exact (holds.stale segId marked).trans_eq count

theorem Holds.markChanged (holds : state.Holds slots) {segId : Nat}
    (inRange : segId < state.numSegments) : (state.markChanged segId).Holds slots := by
  refine ⟨holds.outside, holds.live, holds.resident, holds.present, holds.apart,
    fun other marked => ?_⟩
  rcases mem_insert_iff.mp marked with rfl | earlier
  · exact inRange
  · exact holds.stale other earlier

theorem half_count (large : logSegmentSize ≤ state.logSlots - 1) :
    state.numSegments / 2 = 2 ^ (state.logSlots - 1 - logSegmentSize) := by
  have step : state.logSlots - logSegmentSize = state.logSlots - 1 - logSegmentSize + 1 := by
    simp only [logSegmentSize] at *
    omega
  rw [full_count (by omega), step, pow_succ, Nat.mul_div_cancel _ two_pos]

section

variable (holds : state.Holds slots)

include holds

theorem Holds.shrinkOne (pos : 1 ≤ state.logSlots) (shrunk : state.shrinkOne = .ok after) :
    after.Holds slots ∧ after.logSlots = state.logSlots - 1 ∧
      EmptyAbove slots (state.logSlots - 1) ∧ after.evicted = state.evicted ∧ after.dirty = [] ∧
      (state.logSlots ≤ logSegmentSize → 0 ∉ state.evicted) ∧
      ∀ segId, segId ∈ after.exactDirty ↔
        if state.logSlots ≤ logSegmentSize then segId ∈ state.exactDirty ∨ segId = 0
        else segId ∈ state.exactDirty ∧ segId < after.numSegments := by
  obtain ⟨flushed, flush, shrunk⟩ := bind_eq_ok.mp shrunk
  obtain ⟨-, rfl⟩ := flushAllDirty_eq_ok.mp flush
  have flushedHolds := holds.withDirty []
  split_ifs at shrunk ⊢ with small
  · simp only [halveSegment, bind_eq_ok, require_eq_ok, exists_const] at shrunk
    obtain ⟨notEvicted, cut, cutOk, flush⟩ := shrunk
    obtain ⟨vacant, rfl⟩ := (flushedHolds.cutUpperHalf_eq_ok pos small notEvicted).mp cutOk
    obtain ⟨-, rfl⟩ := flushAllDirty_eq_ok.mp flush
    have half := flushedHolds.lowerHalf small notEvicted vacant
    have marked := (half.markChanged (Nat.two_pow_pos _)).withDirty []
    refine ⟨marked, rfl, vacant, rfl, rfl, fun _ => notEvicted, fun segId => ?_⟩
    exact mem_insert_iff.trans or_comm
  · simp only [bind_eq_ok, requireNone_eq_ok, exists_const, pure_eq_ok] at shrunk
    obtain ⟨clear, rfl⟩ := shrunk
    have large : logSegmentSize ≤ state.logSlots - 1 := by omega
    have half := @half_count { state with dirty := [] } large
    have vacant : EmptyAbove slots (state.logSlots - 1) := by
      refine (holds.emptyAbove_iff large (by omega)).mpr fun segId upper => ?_
      rcases lt_or_ge segId state.numSegments with inRange | beyond
      · exact (upperObstacle_eq_none.mp clear segId (half.trans_le upper) inRange).2
      · exact holds.live_eq_zero beyond
    rw [half]
    obtain ⟨truncated, evicted⟩ := flushedHolds.truncateSegments large (Nat.sub_le _ _) vacant
    refine ⟨truncated, rfl, vacant, evicted, rfl, fun shallow => absurd shallow small,
      fun segId => ?_⟩
    rw [@full_count (SegmentedFriState.truncateSegments _ (state.logSlots - 1) _) large]
    simp [SegmentedFriState.truncateSegments]

/-- A rollback step goes through on an empty upper half with no evicted commitment to flush. -/
theorem Holds.shrinkOne_isOk (pos : 1 ≤ state.logSlots)
    (vacant : EmptyAbove slots (state.logSlots - 1))
    (flushable : ∀ segId ∈ state.dirty, segId ∉ state.evicted)
    (resident : state.logSlots ≤ logSegmentSize → state.evicted = []) :
    ∃ after, state.shrinkOne = .ok after := by
  have flushedHolds := holds.withDirty []
  refine bind_isOk (flushAllDirty_eq_ok.mpr ⟨flushable, rfl⟩) ?_
  dsimp only
  split_ifs with small
  · have notEvicted : 0 ∉ state.evicted := by simp [resident small]
    refine require_bind_isOk notEvicted (bind_isOk
      ((flushedHolds.cutUpperHalf_eq_ok pos small notEvicted).mpr ⟨vacant, rfl⟩) ?_)
    refine ⟨_, flushAllDirty_eq_ok.mpr ⟨fun segId _ => ?_, rfl⟩⟩
    change segId ∉ state.evicted
    simp [resident small]
  · have large : logSegmentSize ≤ state.logSlots - 1 := by omega
    have empty := (holds.emptyAbove_iff large (Nat.sub_le _ _)).mp vacant
    refine requireNone_bind_isOk ?_ ⟨_, rfl⟩
    refine upperObstacle_eq_none.mpr fun segId lower upper => ?_
    have vacantSeg := empty segId ((half_count large).symm.trans_le lower)
    refine ⟨fun shelved => ?_, vacantSeg⟩
    exact (holds.present segId).mpr (Or.inr shelved) vacantSeg

theorem Holds.shrinkToLogSlots (shrunk : state.shrinkToLogSlots target = .ok after) :
    after.Holds slots ∧ after.logSlots = target ∧ after.evicted = state.evicted ∧
      (target < state.logSlots → after.dirty = []) ∧
      (target = state.logSlots → after = state) ∧
      (∀ segId ∈ after.exactDirty,
        segId ∈ state.exactDirty ∨ segId = 0 ∧ target < logSegmentSize) ∧
      (target < logSegmentSize → target < state.logSlots →
        0 ∈ after.exactDirty ∧ 0 ∉ state.evicted) ∧
      ∀ segId < after.numSegments, segId ∈ state.exactDirty → segId ∈ after.exactDirty := by
  simp only [SegmentedFriState.shrinkToLogSlots, bind_eq_ok, require_eq_ok, exists_const] at shrunk
  obtain ⟨⟨pos, below⟩, shrunk⟩ := shrunk
  obtain ⟨steps, logSlots⟩ : ∃ steps, state.logSlots = target + steps :=
    ⟨state.logSlots - target, by omega⟩
  rw [logSlots, Nat.add_sub_cancel_left] at shrunk
  clear below
  induction steps generalizing state with
  | zero =>
    obtain rfl := Except.ok.inj shrunk
    refine ⟨holds, by omega, rfl, fun lower => by omega, fun _ => rfl, fun _ => Or.inl,
      fun _ lower => by omega, fun _ _ => id⟩
  | succ steps ih =>
    obtain ⟨middle, step, rest⟩ := bind_eq_ok.mp shrunk
    obtain ⟨middleHolds, middleLog, -, middleEvicted, middleDirty, middleOut, middleExact⟩ :=
      holds.shrinkOne (by omega) step
    obtain ⟨final, finalLog, finalEvicted, finalDirty, finalSame, finalFrom, finalZero,
      finalKept⟩ := ih middleHolds rest (by omega)
    refine ⟨final, finalLog, finalEvicted.trans middleEvicted, fun _ => ?_, fun same => by omega,
      fun segId marked => ?_, fun shallow _ => ?_, fun segId inRange marked => ?_⟩
    · rcases eq_zero_or_pos steps with rfl | pos
      · rw [finalSame (by omega), middleDirty]
      · exact finalDirty (by omega)
    · rcases finalFrom segId marked with earlier | shallow
      · rw [middleExact] at earlier
        split_ifs at earlier with small
        · rcases earlier with earlier | rfl
          · exact Or.inl earlier
          · exact Or.inr ⟨rfl, by omega⟩
        · exact Or.inl earlier.1
      · exact Or.inr shallow
    · rcases eq_zero_or_pos steps with rfl | pos
      · rw [finalSame (by omega), middleExact, if_pos (by omega)]
        exact ⟨Or.inr rfl, middleOut (by omega)⟩
      · exact middleEvicted ▸ finalZero shallow (by omega)
    · refine finalKept segId inRange ((middleExact segId).mpr ?_)
      split_ifs with small
      · exact Or.inl marked
      · refine ⟨marked, inRange.trans_le ?_⟩
        rw [numSegments, numSegments, effectiveLogSegmentSize, effectiveLogSegmentSize,
          finalLog, middleLog]
        exact Nat.pow_le_pow_right (by norm_num) (by omega)

theorem Holds.shrinkToLogSlots_isOk (pos : 1 ≤ target) (below : target ≤ state.logSlots)
    (oneLevel : state.logSlots ≤ target + 1) (vacant : EmptyAbove slots target)
    (flushable : target < state.logSlots → ∀ segId ∈ state.dirty, segId ∉ state.evicted)
    (resident : target < logSegmentSize → state.evicted = []) :
    ∃ after, state.shrinkToLogSlots target = .ok after := by
  refine require_bind_isOk ⟨pos, below⟩ ?_
  rcases eq_or_lt_of_le below with same | lower
  · rw [same, Nat.sub_self]
    exact ⟨state, rfl⟩
  · obtain ⟨after, shrunk⟩ := holds.shrinkOne_isOk (by omega)
      (show EmptyAbove slots (state.logSlots - 1) by
        rwa [show state.logSlots - 1 = target by omega])
      (flushable lower) (fun small => resident (by omega))
    rw [show state.logSlots - target = 0 + 1 by omega]
    exact bind_isOk shrunk ⟨after, rfl⟩

end

/-- Every stale exact root belongs to a segment that is not durable. -/
def DirtTracked (state : SegmentedFriState) : Prop :=
  ∀ segId ∈ state.exactDirty, segId ∈ state.mdbxDirty

theorem DirtTracked.markChanged (tracked : state.DirtTracked) (segId : Nat) :
    (state.markChanged segId).DirtTracked := by
  intro other marked
  rcases mem_insert_iff.mp marked with rfl | earlier
  · exact mem_insert_iff.mpr (Or.inl rfl)
  · exact mem_insert_iff.mpr (Or.inr (tracked other earlier))

theorem DirtTracked.shrinkOne (tracked : state.DirtTracked)
    (shrunk : state.shrinkOne = .ok after) : after.DirtTracked := by
  obtain ⟨flushed, flush, shrunk⟩ := bind_eq_ok.mp shrunk
  obtain ⟨-, rfl⟩ := flushAllDirty_eq_ok.mp flush
  split_ifs at shrunk with small
  · simp only [halveSegment, bind_eq_ok, require_eq_ok, exists_const] at shrunk
    obtain ⟨-, cut, cutOk, flush⟩ := shrunk
    obtain ⟨-, rfl⟩ := flushAllDirty_eq_ok.mp flush
    have cutTracked : cut.DirtTracked := by
      unfold cutUpperHalf at cutOk
      split at cutOk
      · obtain rfl := Except.ok.inj cutOk
        exact tracked
      · simp only [bind_eq_ok, require_eq_ok, exists_const, pure_eq_ok] at cutOk
        obtain ⟨-, rfl⟩ := cutOk
        exact tracked
    exact @DirtTracked.markChanged { cut with logSlots := cut.logSlots - 1 } cutTracked 0
  · simp only [bind_eq_ok, requireNone_eq_ok, exists_const, pure_eq_ok] at shrunk
    obtain ⟨-, rfl⟩ := shrunk
    intro segId marked
    obtain ⟨marked, inRange⟩ := mem_filter.mp marked
    exact mem_filter.mpr ⟨tracked segId marked, inRange⟩

theorem DirtTracked.shrinkToLogSlots (tracked : state.DirtTracked)
    (shrunk : state.shrinkToLogSlots target = .ok after) : after.DirtTracked := by
  simp only [SegmentedFriState.shrinkToLogSlots, bind_eq_ok, require_eq_ok, exists_const] at shrunk
  obtain ⟨-, shrunk⟩ := shrunk
  generalize state.logSlots - target = steps at shrunk
  induction steps generalizing state with
  | zero =>
    obtain rfl := Except.ok.inj shrunk
    exact tracked
  | succ steps ih =>
    obtain ⟨middle, step, rest⟩ := bind_eq_ok.mp shrunk
    exact ih (tracked.shrinkOne step) rest

end Rollback

section Eviction

theorem Holds.evictSegment (holds : state.Holds slots) (segId : Nat) :
    (state.evictSegment segId).Holds slots := by
  unfold SegmentedFriState.evictSegment
  split
  next => exact holds
  next columns loaded =>
    refine ⟨holds.outside, holds.live, fun other stored storedAt => ?_, fun other => ?_,
      fun other shelved => ?_, holds.stale⟩
    · change update state.segments segId none other = some stored at storedAt
      rcases eq_or_ne other segId with rfl | different
      · simp at storedAt
      · rw [update_of_ne different] at storedAt
        exact holds.resident other stored storedAt
    · change state.liveCounts other ≠ 0 ↔ (update state.segments segId none other).isSome ∨
        other ∈ state.evicted.insert segId
      rw [holds.present, mem_insert_iff]
      rcases eq_or_ne other segId with rfl | different
      · simp [loaded]
      · simp [different]
    · change update state.segments segId none other = none
      rcases eq_or_ne other segId with rfl | different
      · simp
      · rw [update_of_ne different]
        exact holds.apart other ((mem_insert_iff.mp shelved).resolve_left different)

theorem mem_evicted_evictSegment {other : Nat} :
    other ∈ (state.evictSegment segId).evicted ↔
      other ∈ state.evicted ∨ other = segId ∧ (state.segments segId).isSome := by
  unfold evictSegment
  split
  next absent => simp [absent]
  next columns loaded => simp [loaded, or_comm]

theorem Holds.restoreEvictedSegment (holds : state.Holds slots) {columns : SegmentColumns}
    (same : columns = segmentOf state.segmentSlotCount slots segId) :
    (state.restoreEvictedSegment segId columns).Holds slots := by
  subst same
  have count : ∀ other, update state.liveCounts segId
      (countLive (segmentOf state.segmentSlotCount slots segId)) other =
        state.liveCounts other := by
    intro other
    rcases eq_or_ne other segId with rfl | different
    · rw [update_self, holds.live]
    · rw [update_of_ne different]
  refine ⟨holds.outside, fun other => (count other).trans (holds.live other),
    fun other stored storedAt => ?_, fun other => ?_, fun other shelved => ?_, holds.stale⟩
  · change update state.segments segId _ other = some stored at storedAt
    rcases eq_or_ne other segId with rfl | different
    · rw [update_self] at storedAt
      split at storedAt
      · cases storedAt
      · exact (Option.some.inj storedAt).symm
    · rw [update_of_ne different] at storedAt
      exact holds.resident other stored storedAt
  · change update state.liveCounts segId _ other ≠ 0 ↔
      (update state.segments segId _ other).isSome ∨
        other ∈ state.evicted.filter (· ≠ segId)
    rw [count]
    rcases eq_or_ne other segId with rfl | different
    · rw [update_self, holds.live]
      split <;> simp_all
    · rw [update_of_ne different, holds.present]
      simp [different]
  · change update state.segments segId _ other = none
    obtain ⟨shelved, different⟩ := mem_filter.mp shelved
    rw [update_of_ne (by simpa using different)]
    exact holds.apart other shelved

end Eviction
end SegmentedFriState
end Jetsam
