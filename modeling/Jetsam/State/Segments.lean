import Jetsam.Consensus.Params
import Jetsam.Control.Checks
import Jetsam.Tx.Body

/-!
# Segmented slot storage

The slot vector is cut into segments of `2 ^ 16` slots, or one smaller segment below that depth. A
segment that is not resident is either all empty or evicted. Four sets of identifiers follow the
mutations: those whose storage commitment, durable copy or exact root is behind, and those evicted.
-/

namespace Jetsam

/-- A packed amount and creation identifier, and the two lanes of the owner. -/
structure SlotValue where
  value : Block128
  ownerHi : Block128
  ownerLo : Block128
  deriving DecidableEq

namespace SlotValue

def empty : SlotValue := ⟨0, 0, 0⟩

def isEmpty (slot : SlotValue) : Bool := slot == empty

def fromParts (amount creationId : BitVec 64) (ownerHi ownerLo : Block128) : SlotValue :=
  ⟨packAmountCreationId amount creationId, ownerHi, ownerLo⟩

def withOwnerFields (amount creationId : BitVec 64) (owner : Block128 × Block128) : SlotValue :=
  fromParts amount creationId owner.1 owner.2

/-- Monetary amount in the low half of the packed lane. -/
def amount (slot : SlotValue) : BitVec 64 := (unpackAmountCreationId slot.value).1

/-- UTXO incarnation in the high half of the packed lane. -/
def creationId (slot : SlotValue) : BitVec 64 := (unpackAmountCreationId slot.value).2

def owner (slot : SlotValue) : Block128 × Block128 := (slot.ownerHi, slot.ownerLo)

@[simp]
theorem isEmpty_iff {slot : SlotValue} : slot.isEmpty = true ↔ slot = empty := by
  simp [isEmpty]

@[simp]
theorem isEmpty_eq_false_iff {slot : SlotValue} : slot.isEmpty = false ↔ slot ≠ empty := by
  simp [isEmpty]

@[simp]
theorem amount_withOwnerFields (amount creationId : BitVec 64) (owner : Block128 × Block128) :
    (withOwnerFields amount creationId owner).amount = amount := by
  simp [SlotValue.amount, withOwnerFields, fromParts]

@[simp]
theorem creationId_withOwnerFields (amount creationId : BitVec 64) (owner : Block128 × Block128) :
    (withOwnerFields amount creationId owner).creationId = creationId := by
  simp [SlotValue.creationId, withOwnerFields, fromParts]

@[simp]
theorem owner_withOwnerFields (amount creationId : BitVec 64) (owner : Block128 × Block128) :
    (withOwnerFields amount creationId owner).owner = owner := rfl

@[simp]
theorem amount_empty : empty.amount = 0 := by decide

theorem amount_empty_toNat : empty.amount.toNat = 0 := by decide

@[simp]
theorem creationId_empty : empty.creationId = 0 := by decide

@[simp]
theorem owner_empty : empty.owner = (0, 0) := rfl

/-- A minted value with a creation identifier is never the empty value. -/
theorem withOwnerFields_ne_empty {amount creationId : BitVec 64} {owner : Block128 × Block128}
    (minted : creationId ≠ 0) : withOwnerFields amount creationId owner ≠ empty := by
  intro equal
  exact minted (by simpa using congrArg SlotValue.creationId equal)

end SlotValue

open Control

abbrev SegmentColumns := List SlotValue

inductive StateError where
  | slotOutOfRange
  /-- An opening did not verify against the root. -/
  | openingFailed
  deriving DecidableEq

/-- Errors of changing the slot domain; `flushedEvicted` is the assertion of `flush_segment`. -/
inductive StateResizeError where
  | invalidTarget (current target : Nat)
  | evictedUpperSegment (segId : Nat)
  | nonEmptyUpperHalf (segId : Nat)
  | flushedEvicted
  deriving DecidableEq

structure SegmentedFriState where
  logSlots : Nat
  /-- Resident columns; a missing segment is virtual zero or evicted. -/
  segments : Nat → Option SegmentColumns
  liveCounts : Nat → Nat
  /-- Segments whose storage commitment is stale. -/
  dirty : List Nat
  /-- Segments changed since the last durable commit. -/
  mdbxDirty : List Nat
  /-- Segments whose exact subtree root is stale in the chain-level cache. -/
  exactDirty : List Nat
  evicted : List Nat

namespace SegmentedFriState

def countLive (columns : SegmentColumns) : Nat := columns.countP fun slot => !slot.isEmpty

def effectiveLogSegmentSize (state : SegmentedFriState) : Nat := min state.logSlots logSegmentSize

def numSegments (state : SegmentedFriState) : Nat :=
  2 ^ (state.logSlots - state.effectiveLogSegmentSize)

def numSlots (state : SegmentedFriState) : Nat := 2 ^ state.logSlots

def segmentSlotCount (state : SegmentedFriState) : Nat := 2 ^ state.effectiveLogSegmentSize

def segIdOf (state : SegmentedFriState) (index : Nat) : Nat := index / state.segmentSlotCount

def localIdxOf (state : SegmentedFriState) (index : Nat) : Nat := index % state.segmentSlotCount

def newEmpty (logSlots : Nat) : SegmentedFriState :=
  ⟨logSlots, fun _ => none, fun _ => 0, [], [], [], []⟩

def isEvicted (state : SegmentedFriState) (segId : Nat) : Bool := state.evicted.contains segId

def tryGetSegmentColumns (state : SegmentedFriState) (segId : Nat) : Option SegmentColumns :=
  state.segments segId

/-- Read one slot; a segment that is not resident reads as empty. -/
def slot (state : SegmentedFriState) (index : Nat) : SlotValue :=
  match state.segments (state.segIdOf index) with
  | none => .empty
  | some columns => columns.getD (state.localIdxOf index) .empty

/-- The first `count` entries of an array, and the fill value after them. -/
def resized {α : Type} (count : Nat) (entries : Nat → α) (fill : α) : Nat → α :=
  fun index => if index < count then entries index else fill

/-- Mark a segment as changed in every tracking set. -/
def markChanged (state : SegmentedFriState) (segId : Nat) : SegmentedFriState :=
  { state with
    dirty := state.dirty.insert segId
    mdbxDirty := state.mdbxDirty.insert segId
    exactDirty := state.exactDirty.insert segId }

def liveAfter (live : Nat) (old new : SlotValue) : Nat :=
  match old.isEmpty, new.isEmpty with
  | true, false => live + 1
  | false, true => live - 1
  | _, _ => live

/-- Write one slot: the loop body of `apply_delta_in_place`. -/
def writeSlot (state : SegmentedFriState) (index : Nat) (value : SlotValue) : SegmentedFriState :=
  let segId := state.segIdOf index
  let old := state.slot index
  if old = value then state
  else
    match state.segments segId with
    | none =>
      if value.isEmpty then state
      else
        -- Materialise the segment.
        let columns := List.replicate state.segmentSlotCount SlotValue.empty
        place { state with evicted := state.evicted.filter (· ≠ segId) } segId columns old
    | some columns => place state segId columns old
where
  /-- Store the value, and drop the columns when the last live slot of the segment is gone. -/
  place (state : SegmentedFriState) (segId : Nat) (columns : SegmentColumns) (old : SlotValue) :
      SegmentedFriState :=
    let live := liveAfter (state.liveCounts segId) old value
    let stored := columns.set (state.localIdxOf index) value
    let state := { state with
      segments := Function.update state.segments segId (if live = 0 then none else some stored)
      liveCounts := Function.update state.liveCounts segId live
      evicted := if live = 0 then state.evicted.filter (· ≠ segId) else state.evicted }
    state.markChanged segId

/-- Apply a batch of updates in order; nothing changes when one is out of range. -/
def applyDeltaUnrooted (state : SegmentedFriState) (deltas : List (Nat × SlotValue)) :
    Except StateError SegmentedFriState := do
  require (∀ delta ∈ deltas, delta.1 < state.numSlots) StateError.slotOutOfRange
  return deltas.foldl (fun state delta => state.writeSlot delta.1 delta.2) state

def clearDirty (state : SegmentedFriState) : SegmentedFriState := { state with mdbxDirty := [] }

/-- Mark every exact subtree root current. -/
def clearExactDirty (state : SegmentedFriState) : SegmentedFriState :=
  { state with exactDirty := [] }

def evictSegment (state : SegmentedFriState) (segId : Nat) : SegmentedFriState :=
  match state.segments segId with
  | none => state
  | some _ =>
    { state with
      segments := Function.update state.segments segId none
      evicted := state.evicted.insert segId }

def restoreEvictedSegment (state : SegmentedFriState) (segId : Nat) (columns : SegmentColumns) :
    SegmentedFriState :=
  let live := countLive columns
  { state with
    liveCounts := Function.update state.liveCounts segId live
    segments := Function.update state.segments segId (if live = 0 then none else some columns)
    evicted := state.evicted.filter (· ≠ segId)
    dirty := state.dirty.insert segId }

/-- Recompute every stale storage commitment, which needs the columns resident. -/
def flushAllDirty (state : SegmentedFriState) : Except StateResizeError SegmentedFriState := do
  require (∀ segId ∈ state.dirty, segId ∉ state.evicted) StateResizeError.flushedEvicted
  return { state with dirty := [] }

/-- Double the slot domain; the new upper half is empty. -/
def expand (state : SegmentedFriState) : Except StateResizeError SegmentedFriState :=
  if state.logSlots + 1 ≤ logSegmentSize then
    -- The only segment grows in place.
    flushAllDirty { state with
      logSlots := state.logSlots + 1
      segments := Function.update state.segments 0
        ((state.segments 0).map (· ++ List.replicate (2 ^ state.logSlots) SlotValue.empty))
      dirty := state.dirty.insert 0
      exactDirty := state.exactDirty.insert 0 }
  else
    .ok { state with
      logSlots := state.logSlots + 1
      segments := resized state.numSegments state.segments none
      liveCounts := resized state.numSegments state.liveCounts 0 }

/-- The first segment from `start` on that may not be discarded. -/
def upperObstacle (state : SegmentedFriState) (start : Nat) : Option StateResizeError :=
  (List.range' start (state.numSegments - start)).findSome? fun segId =>
    if segId ∈ state.evicted then some (.evictedUpperSegment segId)
    else if state.liveCounts segId ≠ 0 then some (.nonEmptyUpperHalf segId)
    else none

def truncateSegments (state : SegmentedFriState) (logSlots count : Nat) : SegmentedFriState :=
  { logSlots
    segments := resized count state.segments none
    liveCounts := resized count state.liveCounts 0
    dirty := state.dirty.filter (· < count)
    mdbxDirty := state.mdbxDirty.filter (· < count)
    exactDirty := state.exactDirty.filter (· < count)
    evicted := state.evicted.filter (· < count) }

/-- Cut the only segment at half its size; the upper half must be empty. -/
def cutUpperHalf (state : SegmentedFriState) : Except StateResizeError SegmentedFriState :=
  let keep := 2 ^ (state.logSlots - 1)
  match state.segments 0 with
  | none => .ok state
  | some columns => do
    require (∀ slot ∈ columns.drop keep, slot = SlotValue.empty) (.nonEmptyUpperHalf 0)
    let kept := columns.take keep
    let live := countLive kept
    return { state with
      liveCounts := Function.update state.liveCounts 0 live
      segments := Function.update state.segments 0 (if live = 0 then none else some kept) }

def halveSegment (state : SegmentedFriState) : Except StateResizeError SegmentedFriState := do
  require (0 ∉ state.evicted) (.evictedUpperSegment 0)
  let cut ← state.cutUpperHalf
  flushAllDirty ({ cut with logSlots := cut.logSlots - 1 }.markChanged 0)

def shrinkOne (state : SegmentedFriState) : Except StateResizeError SegmentedFriState := do
  let state ← state.flushAllDirty
  if state.logSlots ≤ logSegmentSize then state.halveSegment
  else
    let count := state.numSegments / 2
    requireNone (state.upperObstacle count) id
    return state.truncateSegments (state.logSlots - 1) count

def shrinkTimes : Nat → SegmentedFriState → Except StateResizeError SegmentedFriState
  | 0, state => .ok state
  | steps + 1, state => do
    let state ← state.shrinkOne
    shrinkTimes steps state

/-- Roll the slot domain back to an earlier depth whose upper slots are empty. -/
def shrinkToLogSlots (state : SegmentedFriState) (target : Nat) :
    Except StateResizeError SegmentedFriState := do
  require (1 ≤ target ∧ target ≤ state.logSlots) (.invalidTarget state.logSlots target)
  shrinkTimes (state.logSlots - target) state

/-- Expansion that touches no storage commitment; it refuses to leave 32-bit slots. -/
def expandExactMetadataForReplay (state : SegmentedFriState) :
    Except StateResizeError SegmentedFriState := do
  require (state.effectiveLogSegmentSize = logSegmentSize ∧ state.logSlots < logSlotsMax)
    (.invalidTarget state.logSlots (state.logSlots + 1))
  return { state with
    logSlots := state.logSlots + 1
    segments := resized state.numSegments state.segments none
    liveCounts := resized state.numSegments state.liveCounts 0 }

theorem writeSlot_logSlots (state : SegmentedFriState) (index : Nat) (value : SlotValue) :
    (state.writeSlot index value).logSlots = state.logSlots := by
  rw [writeSlot]
  split
  · rfl
  · split
    · split <;> rfl
    · rfl

variable {state after : SegmentedFriState}

theorem applyDeltaUnrooted_logSlots {deltas : List (Nat × SlotValue)}
    (written : state.applyDeltaUnrooted deltas = .ok after) :
    after.logSlots = state.logSlots := by
  simp only [applyDeltaUnrooted, bind_eq_ok, require_eq_ok, exists_const, pure_eq_ok] at written
  obtain ⟨-, rfl⟩ := written
  induction deltas generalizing state with
  | nil => rfl
  | cons delta deltas ih =>
    rw [List.foldl_cons, ih, writeSlot_logSlots]

theorem expand_logSlots (expanded : state.expand = .ok after) :
    after.logSlots = state.logSlots + 1 := by
  rw [expand] at expanded
  split at expanded
  · simp only [flushAllDirty, bind_eq_ok, require_eq_ok, exists_const, pure_eq_ok] at expanded
    obtain ⟨-, rfl⟩ := expanded
    rfl
  · obtain rfl := Except.ok.inj expanded
    rfl

end SegmentedFriState
end Jetsam
