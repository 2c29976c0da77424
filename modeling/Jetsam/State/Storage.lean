import Jetsam.State.Segments
import Jetsam.Control.OrderedMap

/-!
# What the segments represent

`Holds state slots` says that the segments store the slot map `slots`, the evicted ones in durable
storage.
-/

namespace Jetsam

open Control List Function

namespace SegmentedFriState

def segmentOf (size : Nat) (slots : Nat → SlotValue) (segId : Nat) : SegmentColumns :=
  (List.range size).map fun i => slots (segId * size + i)

@[simp]
theorem length_segmentOf (size : Nat) (slots : Nat → SlotValue) (segId : Nat) :
    (segmentOf size slots segId).length = size := by
  simp [segmentOf]

variable {size i : Nat}

theorem getD_segmentOf (slots : Nat → SlotValue) (segId : Nat) (bound : i < size) :
    (segmentOf size slots segId).getD i .empty = slots (segId * size + i) := by
  simp [segmentOf, getD_eq_getElem?_getD, bound]

variable {segId : Nat}

variable {left right : Nat → SlotValue}

theorem segmentOf_congr (agree : ∀ i < size, left (segId * size + i) = right (segId * size + i)) :
    segmentOf size left segId = segmentOf size right segId :=
  map_congr_left fun i mem => agree i (mem_range.mp mem)

theorem segmentOf_inj {other : Nat} (equal : segmentOf size left segId = segmentOf size right other)
    (bound : i < size) :
    left (segId * size + i) = right (other * size + i) := by
  rw [← getD_segmentOf left segId bound, equal, getD_segmentOf right other bound]

theorem countLive_segmentOf_eq_zero {slots : Nat → SlotValue} :
    countLive (segmentOf size slots segId) = 0 ↔
      ∀ i < size, slots (segId * size + i) = .empty := by
  simp [countLive, segmentOf, countP_eq_zero]

/-- The state stores the slot map, resident or evicted. -/
structure Holds (state : SegmentedFriState) (slots : Nat → SlotValue) : Prop where
  outside : ∀ index, state.numSlots ≤ index → slots index = .empty
  live : ∀ segId,
    state.liveCounts segId = countLive (segmentOf state.segmentSlotCount slots segId)
  resident : ∀ segId columns, state.segments segId = some columns →
    columns = segmentOf state.segmentSlotCount slots segId
  present : ∀ segId,
    state.liveCounts segId ≠ 0 ↔ (state.segments segId).isSome ∨ segId ∈ state.evicted
  apart : ∀ segId ∈ state.evicted, state.segments segId = none
  stale : ∀ segId ∈ state.exactDirty, segId < state.numSegments

variable {state : SegmentedFriState} {slots : Nat → SlotValue}

theorem segmentSlotCount_pos (state : SegmentedFriState) : 0 < state.segmentSlotCount :=
  Nat.two_pow_pos _

theorem numSegments_mul (state : SegmentedFriState) :
    state.numSegments * state.segmentSlotCount = state.numSlots := by
  rw [numSegments, segmentSlotCount, numSlots, ← pow_add, effectiveLogSegmentSize]
  congr 1
  omega

theorem segIdOf_mul_add (state : SegmentedFriState) (index : Nat) :
    state.segIdOf index * state.segmentSlotCount + state.localIdxOf index = index := by
  rw [mul_comm]
  exact Nat.div_add_mod index state.segmentSlotCount

theorem localIdxOf_lt (state : SegmentedFriState) (index : Nat) :
    state.localIdxOf index < state.segmentSlotCount :=
  Nat.mod_lt _ state.segmentSlotCount_pos

variable {index : Nat}

theorem segIdOf_lt (bound : index < state.numSlots) :
    state.segIdOf index < state.numSegments := by
  rw [segIdOf, Nat.div_lt_iff_lt_mul state.segmentSlotCount_pos, numSegments_mul]
  exact bound

theorem segIdOf_of_eq (bound : i < state.segmentSlotCount) :
    state.segIdOf (segId * state.segmentSlotCount + i) = segId := by
  rw [segIdOf, mul_comm, Nat.mul_add_div state.segmentSlotCount_pos,
    Nat.div_eq_of_lt bound, add_zero]

theorem segmentOf_update_self (state : SegmentedFriState) (slots : Nat → SlotValue) (index : Nat)
    (value : SlotValue) :
    segmentOf state.segmentSlotCount (update slots index value) (state.segIdOf index) =
      (segmentOf state.segmentSlotCount slots (state.segIdOf index)).set
        (state.localIdxOf index) value := by
  have whole := state.segIdOf_mul_add index
  refine ext_getElem (by simp) fun i left right => ?_
  simp only [segmentOf, getElem_map, getElem_range, getElem_set]
  by_cases here : state.localIdxOf index = i
  · subst here
    simp [whole]
  · rw [if_neg here, update_of_ne]
    omega

theorem segmentOf_update_of_ne (state : SegmentedFriState) (slots : Nat → SlotValue)
    (value : SlotValue) (different : segId ≠ state.segIdOf index) :
    segmentOf state.segmentSlotCount (update slots index value) segId =
      segmentOf state.segmentSlotCount slots segId := by
  refine segmentOf_congr fun i bound => update_of_ne ?_ _ _
  rintro rfl
  exact different (segIdOf_of_eq bound).symm

theorem liveAfter_eq {live : Nat} {old : SlotValue} (new : SlotValue)
    (occupied : old.isEmpty = false → 0 < live) :
    liveAfter live old new =
      live - (if !old.isEmpty then 1 else 0) + (if !new.isEmpty then 1 else 0) := by
  unfold liveAfter
  cases oldEmpty : old.isEmpty <;> cases newEmpty : new.isEmpty
  · have := occupied oldEmpty
    simp
    omega
  all_goals simp

theorem countLive_update (state : SegmentedFriState) (slots : Nat → SlotValue) (index : Nat)
    (value : SlotValue) :
    countLive (segmentOf state.segmentSlotCount (update slots index value)
        (state.segIdOf index)) =
      liveAfter (countLive (segmentOf state.segmentSlotCount slots (state.segIdOf index)))
        (slots index) value := by
  have bound := state.localIdxOf_lt index
  have old : (segmentOf state.segmentSlotCount slots (state.segIdOf index)).getD
      (state.localIdxOf index) .empty = slots index := by
    rw [getD_segmentOf _ _ bound, segIdOf_mul_add]
  rw [segmentOf_update_self, countLive, countP_set (by simpa using bound)]
  rw [getD_eq_getElem _ _ (by simpa using bound)] at old
  rw [old]
  rw [liveAfter_eq]
  · rfl
  · intro occupied
    refine countP_pos_iff.mpr ⟨slots index, ?_, by simpa using occupied⟩
    rw [← old]
    exact getElem_mem _

namespace Holds

variable {segId : Nat}

section

variable (holds : state.Holds slots)

include holds

theorem segId_lt (occupied : state.liveCounts segId ≠ 0) :
    segId < state.numSegments := by
  by_contra outOfRange
  refine occupied ?_
  rw [holds.live, countLive_segmentOf_eq_zero]
  intro i bound
  refine holds.outside _ ?_
  rw [← numSegments_mul]
  have := Nat.mul_le_mul_right state.segmentSlotCount (Nat.not_lt.mp outOfRange)
  omega

theorem evicted_lt (shelved : segId ∈ state.evicted) :
    segId < state.numSegments :=
  holds.segId_lt ((holds.present segId).mpr (Or.inr shelved))

/-- A segment that is neither resident nor evicted is empty. -/
theorem vacant (absent : state.segments segId = none) (notEvicted : segId ∉ state.evicted) :
    ∀ i < state.segmentSlotCount, slots (segId * state.segmentSlotCount + i) = .empty := by
  rw [← countLive_segmentOf_eq_zero, ← holds.live]
  by_contra occupied
  rcases (holds.present segId).mp occupied with loaded | shelved
  · simp [absent] at loaded
  · exact notEvicted shelved

theorem slot_eq (notEvicted : state.segIdOf index ∉ state.evicted) :
    state.slot index = slots index := by
  have whole := state.segIdOf_mul_add index
  unfold slot
  cases loaded : state.segments (state.segIdOf index) with
  | none =>
    have := holds.vacant loaded notEvicted _ (state.localIdxOf_lt index)
    rw [whole] at this
    exact this.symm
  | some columns =>
    simp only
    rw [holds.resident _ _ loaded, getD_segmentOf _ _ (state.localIdxOf_lt index), whole]

end

theorem newEmpty (logSlots : Nat) :
    (SegmentedFriState.newEmpty logSlots).Holds fun _ => .empty where
  outside := fun _ _ => rfl
  live := fun segId => (countLive_segmentOf_eq_zero.mpr fun _ _ => rfl).symm
  resident := fun segId columns loaded => by simp [SegmentedFriState.newEmpty] at loaded
  present := fun segId => by simp [SegmentedFriState.newEmpty]
  apart := fun segId shelved => by simp [SegmentedFriState.newEmpty] at shelved
  stale := fun segId marked => by simp [SegmentedFriState.newEmpty] at marked

/-- States of one map with one set of evicted segments read the same. -/
theorem slot_congr {other : SegmentedFriState} (holds : state.Holds slots)
    (holds' : other.Holds slots) (logSlots : state.logSlots = other.logSlots)
    (evicted : state.evicted = other.evicted) (index : Nat) :
    state.slot index = other.slot index := by
  have segId : state.segIdOf index = other.segIdOf index := by
    simp only [segIdOf, segmentSlotCount, effectiveLogSegmentSize, logSlots]
  by_cases shelved : state.segIdOf index ∈ state.evicted
  · have absent := holds.apart _ shelved
    rw [segId, evicted] at shelved
    rw [slot, slot, absent, holds'.apart _ shelved]
  · rw [holds.slot_eq shelved]
    rw [segId, evicted] at shelved
    exact (holds'.slot_eq shelved).symm

end Holds

/-- What a batch of writes may change besides the represented map. -/
structure Rewritten (before after : SegmentedFriState) (old new : Nat → SlotValue) : Prop where
  logSlots : after.logSlots = before.logSlots
  evicted : after.evicted = before.evicted
  dirty : ∀ segId ∈ after.dirty, segId ∈ before.dirty ∨ segId ∉ before.evicted
  marked : ∀ segId ∈ after.exactDirty, segId ∈ before.exactDirty ∨ segId ∉ before.evicted
  durable : (∀ segId ∈ before.exactDirty, segId ∈ before.mdbxDirty) →
    ∀ segId ∈ after.exactDirty, segId ∈ after.mdbxDirty
  kept : ∀ segId, segId ∉ after.exactDirty → segId ∉ before.exactDirty ∧
    segmentOf before.segmentSlotCount new segId = segmentOf before.segmentSlotCount old segId

namespace Rewritten

theorem refl (state : SegmentedFriState) (slots : Nat → SlotValue) :
    Rewritten state state slots slots :=
  ⟨rfl, rfl, fun _ => Or.inl, fun _ => Or.inl, id, fun _ clean => ⟨clean, rfl⟩⟩

variable {before after : SegmentedFriState} {old new : Nat → SlotValue}

section

variable (rewritten : Rewritten before after old new)

include rewritten

theorem segmentSlotCount :
    after.segmentSlotCount = before.segmentSlotCount := by
  simp [SegmentedFriState.segmentSlotCount, effectiveLogSegmentSize, rewritten.logSlots]

theorem numSegments :
    after.numSegments = before.numSegments := by
  simp [SegmentedFriState.numSegments, effectiveLogSegmentSize, rewritten.logSlots]

theorem numSlots :
    after.numSlots = before.numSlots := by
  simp [SegmentedFriState.numSlots, rewritten.logSlots]

end

theorem trans {first second third : SegmentedFriState} {one two three : Nat → SlotValue}
    (left : Rewritten first second one two) (right : Rewritten second third two three) :
    Rewritten first third one three where
  logSlots := right.logSlots.trans left.logSlots
  evicted := right.evicted.trans left.evicted
  dirty := fun segId mem => by
    rcases right.dirty segId mem with earlier | fresh
    · exact left.dirty segId earlier
    · exact Or.inr (left.evicted ▸ fresh)
  marked := fun segId mem => by
    rcases right.marked segId mem with earlier | fresh
    · exact left.marked segId earlier
    · exact Or.inr (left.evicted ▸ fresh)
  durable := fun tracked => right.durable (left.durable tracked)
  kept := fun segId clean => by
    obtain ⟨cleanBefore, same⟩ := right.kept segId clean
    obtain ⟨cleanFirst, sameFirst⟩ := left.kept segId cleanBefore
    rw [left.segmentSlotCount] at same
    exact ⟨cleanFirst, same.trans sameFirst⟩

end Rewritten

/-- The columns a segment keeps: none once its last live slot is gone. -/
def liveColumns (columns : SegmentColumns) : Option SegmentColumns :=
  if countLive columns = 0 then none else some columns

theorem writeSlot_eq (holds : state.Holds slots) {value : SlotValue}
    (notEvicted : state.segIdOf index ∉ state.evicted) (changed : slots index ≠ value) :
    let segId := state.segIdOf index
    let columns := segmentOf state.segmentSlotCount (update slots index value) segId
    state.writeSlot index value =
      { state with
        segments := update state.segments segId (liveColumns columns)
        liveCounts := update state.liveCounts segId (countLive columns) }.markChanged
          segId := by
  intro segId columns
  have unchangedEvicted : state.evicted.filter (· ≠ segId) = state.evicted :=
    filter_eq_self.mpr fun other mem => by
      have different : other ≠ segId := by
        rintro rfl
        exact notEvicted mem
      simpa using different
  have count : liveAfter (state.liveCounts segId) (slots index) value = countLive columns := by
    rw [holds.live, ← countLive_update]
  have place : ∀ stored, stored.set (state.localIdxOf index) value = columns →
      writeSlot.place index value state segId stored (slots index) =
        { state with
          segments := update state.segments segId (liveColumns columns)
          liveCounts := update state.liveCounts segId (countLive columns) }.markChanged
            segId := by
    intro stored equal
    simp only [writeSlot.place, count, equal, liveColumns, unchangedEvicted, ite_self]
  simp only [writeSlot, holds.slot_eq notEvicted, if_neg changed]
  cases loaded : state.segments (state.segIdOf index) with
  | none =>
    have vacant := holds.vacant loaded notEvicted
    have oldEmpty : slots index = .empty := by
      have := vacant _ (state.localIdxOf_lt index)
      rwa [segIdOf_mul_add] at this
    have occupied : value.isEmpty = false :=
      SlotValue.isEmpty_eq_false_iff.mpr fun empty => changed (oldEmpty.trans empty.symm)
    simp only [occupied, Bool.false_eq_true, if_false]
    have same : { state with evicted := state.evicted.filter (· ≠ segId) } = state := by
      rw [unchangedEvicted]
    rw [show state.segIdOf index = segId from rfl, same]
    refine place _ ?_
    rw [show columns = _ from segmentOf_update_self state slots index value]
    congr 1
    refine (ext_getElem (by simp) fun i left right => ?_)
    simp only [getElem_replicate, segmentOf, getElem_map, getElem_range]
    exact (vacant i (by simpa using right)).symm
  | some stored =>
    refine place _ ?_
    rw [holds.resident _ _ loaded]
    exact (segmentOf_update_self state slots index value).symm

theorem Holds.writeSlot (holds : state.Holds slots) (value : SlotValue)
    (inRange : index < state.numSlots) (notEvicted : state.segIdOf index ∉ state.evicted) :
    (state.writeSlot index value).Holds (update slots index value) ∧
      Rewritten state (state.writeSlot index value) slots (update slots index value) := by
  by_cases unchanged : slots index = value
  · have same : state.writeSlot index value = state := by
      simp [SegmentedFriState.writeSlot, holds.slot_eq notEvicted, unchanged]
    rw [same, ← unchanged, update_eq_self]
    exact ⟨holds, Rewritten.refl state slots⟩
  · rw [writeSlot_eq holds notEvicted unchanged]
    refine ⟨⟨fun other beyond => ?_, fun segId => ?_, fun segId columns loaded => ?_,
      fun segId => ?_, fun segId shelved => ?_, fun segId marked => ?_⟩,
      ⟨rfl, rfl, fun segId mem => ?_, fun segId mem => ?_, fun tracked segId mem => ?_,
        fun segId clean => ?_⟩⟩
    · rw [update_of_ne]
      · exact holds.outside other beyond
      · rintro rfl
        exact absurd inRange (not_lt.mpr beyond)
    · change update state.liveCounts (state.segIdOf index) _ segId = _
      rcases eq_or_ne segId (state.segIdOf index) with rfl | different
      · rw [update_self]
        rfl
      · rw [update_of_ne different, holds.live,
          ← segmentOf_update_of_ne state slots value different]
        rfl
    · change update state.segments (state.segIdOf index) _ segId = _ at loaded
      rcases eq_or_ne segId (state.segIdOf index) with rfl | different
      · rw [update_self, liveColumns] at loaded
        split at loaded
        · cases loaded
        · exact (Option.some.inj loaded).symm
      · rw [update_of_ne different] at loaded
        rw [holds.resident _ _ loaded, ← segmentOf_update_of_ne state slots value different]
        rfl
    · change update state.liveCounts (state.segIdOf index) _ segId ≠ 0 ↔
        (update state.segments (state.segIdOf index) _ segId).isSome ∨
          segId ∈ state.evicted
      rcases eq_or_ne segId (state.segIdOf index) with rfl | different
      · rw [update_self, update_self, liveColumns]
        split <;> simp_all
      · rw [update_of_ne different, update_of_ne different]
        exact holds.present segId
    · change update state.segments (state.segIdOf index) _ segId = none
      have different : segId ≠ state.segIdOf index := fun same => notEvicted (same ▸ shelved)
      rw [update_of_ne different]
      exact holds.apart segId shelved
    · rcases mem_insert_iff.mp marked with rfl | earlier
      · exact segIdOf_lt inRange
      · exact holds.stale segId earlier
    · rcases mem_insert_iff.mp mem with rfl | earlier
      · exact Or.inr notEvicted
      · exact Or.inl earlier
    · rcases mem_insert_iff.mp mem with rfl | earlier
      · exact Or.inr notEvicted
      · exact Or.inl earlier
    · rcases mem_insert_iff.mp mem with rfl | earlier
      · exact mem_insert_iff.mpr (Or.inl rfl)
      · exact mem_insert_iff.mpr (Or.inr (tracked segId earlier))
    · have outside : segId ≠ state.segIdOf index ∧ segId ∉ state.exactDirty :=
        not_or.mp fun mem => clean (mem_insert_iff.mpr mem)
      exact ⟨outside.2, segmentOf_update_of_ne state slots value outside.1⟩

theorem Holds.foldl_writeSlot (holds : state.Holds slots) {deltas : List (Nat × SlotValue)}
    (inRange : ∀ delta ∈ deltas, delta.1 < state.numSlots)
    (notEvicted : ∀ delta ∈ deltas, state.segIdOf delta.1 ∉ state.evicted) :
    let after := deltas.foldl (fun state delta => state.writeSlot delta.1 delta.2) state
    after.Holds (overwrite slots deltas) ∧
      Rewritten state after slots (overwrite slots deltas) := by
  induction deltas generalizing state slots with
  | nil => exact ⟨holds, Rewritten.refl state slots⟩
  | cons delta deltas ih =>
    obtain ⟨middle, rewritten⟩ := holds.writeSlot delta.2
      (inRange delta mem_cons_self) (notEvicted delta mem_cons_self)
    have sameSeg : ∀ index, (state.writeSlot delta.1 delta.2).segIdOf index =
        state.segIdOf index := fun index => by
      rw [segIdOf, segIdOf, rewritten.segmentSlotCount]
    obtain ⟨final, rest⟩ := ih middle
      (fun other member => by
        rw [rewritten.numSlots]
        exact inRange other (mem_cons_of_mem _ member))
      (fun other member => by
        rw [rewritten.evicted, sameSeg]
        exact notEvicted other (mem_cons_of_mem _ member))
    exact ⟨final, rewritten.trans rest⟩

variable {deltas : List (Nat × SlotValue)} {after : SegmentedFriState}

theorem applyDeltaUnrooted_eq_ok :
    state.applyDeltaUnrooted deltas = .ok after ↔
      (∀ delta ∈ deltas, delta.1 < state.numSlots) ∧
        deltas.foldl (fun state delta => state.writeSlot delta.1 delta.2) state = after := by
  simp only [applyDeltaUnrooted, bind_eq_ok, require_eq_ok, exists_const, pure_eq_ok]

theorem Holds.applyDeltaUnrooted (holds : state.Holds slots)
    (notEvicted : ∀ delta ∈ deltas, state.segIdOf delta.1 ∉ state.evicted)
    (applied : state.applyDeltaUnrooted deltas = .ok after) :
    after.Holds (overwrite slots deltas) ∧
      Rewritten state after slots (overwrite slots deltas) := by
  obtain ⟨inRange, rfl⟩ := applyDeltaUnrooted_eq_ok.mp applied
  exact holds.foldl_writeSlot inRange notEvicted

end SegmentedFriState
end Jetsam
