import Jetsam.State.Chain

/-!
# Slot allocation

The hint generators that wallets and miners draw free slots from, and the choice of a slot for a
system mint: a hole of a resident segment first, then a fresh segment of the zone permutation.
-/

namespace Jetsam

/-- One step of the splitmix64 mixer: the next state and its output. -/
def splitmix64 (state : BitVec 64) : BitVec 64 × BitVec 64 :=
  let state := state + 0x9e3779b97f4a7c15
  let z := (state ^^^ (state >>> 30)) * 0xbf58476d1ce4e5b9
  let z := (z ^^^ (z >>> 27)) * 0x94d049bb133111eb
  (state, z ^^^ (z >>> 31))

def zoneCapacity : Nat := 2 ^ 16

/-- Affine permutation of `numZones = 2 ^ k` zones. -/
def permuteZone (zoneId numZones seed : BitVec 64) : BitVec 64 :=
  let mask := numZones - 1
  let first := splitmix64 (seed ^^^ 0xD1B54A32D192ED03)
  let mul := first.2 ||| 1
  let add := (splitmix64 first.1).2
  (zoneId * mul + add) &&& mask

def zoneSeed (logSlots : Nat) : BitVec 64 :=
  0xA0761D6478BD642F ^^^ (BitVec.ofNat 64 logSlots <<< 32)

/-- Uniform hints of a domain that is no larger than a zone. -/
def uniformHints (mask : BitVec 64) : Nat → BitVec 64 → List (BitVec 32)
  | 0, _ => []
  | count + 1, state =>
    let next := splitmix64 state
    (next.2 &&& mask).setWidth 32 :: uniformHints mask count next.1

/-- Hints of consecutive counters, each zone in its permuted segment. -/
def zonedHints (logSlots : Nat) (numZones : BitVec 64) : Nat → Nat → List (BitVec 32)
  | 0, _ => []
  | count + 1, counter =>
    let zoneSeg := permuteZone (BitVec.ofNat 64 (counter / zoneCapacity)) numZones
      (zoneSeed logSlots)
    BitVec.ofNat 32 (zoneSeg.toNat * zoneCapacity + counter % zoneCapacity) ::
      zonedHints logSlots numZones count (counter + 1)

def generateSlotHints (allocCounter logSlots count : Nat) : List (BitVec 32) :=
  if 2 ^ logSlots ≤ zoneCapacity then
    uniformHints (BitVec.ofNat 64 (2 ^ logSlots - 1)) count (BitVec.ofNat 64 allocCounter)
  else
    zonedHints logSlots (BitVec.ofNat 64 (2 ^ logSlots / zoneCapacity)) count allocCounter

/-- Probe order over the segments; `none` is the panic on an identifier beyond 16 bits. -/
def generateZoneSegmentHints (allocCounter logSlots count : Nat) : Option (List Nat) :=
  if count = 0 then some []
  else if logSlots ≤ 16 then some [0]
  else
    let numZones := 2 ^ (logSlots - 16)
    (List.range (min count numZones)).mapM fun offset =>
      let segment := permuteZone (BitVec.ofNat 64 (allocCounter / zoneCapacity + offset))
        (BitVec.ofNat 64 numZones) (zoneSeed logSlots)
      if segment.toNat < 2 ^ 16 then some segment.toNat else none

variable {reserved : List (BitVec 32)} {slot : BitVec 32}

namespace SegmentedFriState

def slotAt (state : SegmentedFriState) (segId position : Nat) : BitVec 32 :=
  BitVec.ofNat 32 (segId * state.segmentSlotCount + position)

/-- Positions of a segment in cyclic order from `start`. -/
def cyclicPositions (state : SegmentedFriState) (start count : Nat) : List Nat :=
  (List.range count).map fun step => (start + step) % state.segmentSlotCount

/-- Unreserved empty slots of resident segments, each probed from a drawn position. -/
def residentHoles (state : SegmentedFriState) (reserved : List (BitVec 32)) :
    BitVec 64 → List Nat → List (BitVec 32)
  | _, [] => []
  | rng, segId :: segIds =>
    match state.segments segId with
    | none => residentHoles state reserved rng segIds
    | some columns =>
      let drawn := splitmix64 rng
      let start := drawn.2.toNat % state.segmentSlotCount
      let holes := (state.cyclicPositions start state.segmentSlotCount).filter fun position =>
        (columns.getD position .empty).isEmpty
      (holes.map (state.slotAt segId)).filter (· ∉ reserved) ++
        residentHoles state reserved drawn.1 segIds

/-- Up to `count` unreserved empty slots in resident, partly filled segments. -/
def emptySlotHintsInPopulatedSegments (state : SegmentedFriState) (seed : BitVec 64) (count : Nat)
    (reserved : List (BitVec 32)) : List (BitVec 32) :=
  let candidates := (List.range state.numSegments).filter fun segId =>
    0 < state.liveCounts segId && state.liveCounts segId < state.segmentSlotCount &&
      (state.segments segId).isSome
  if candidates = [] then []
  else
    let drawn := splitmix64 seed
    (state.residentHoles reserved drawn.1
      (candidates.rotate (drawn.2.toNat % candidates.length))).take count

theorem residentHoles_notMem {state : SegmentedFriState} {rng : BitVec 64} {segIds : List Nat}
    (hole : slot ∈ state.residentHoles reserved rng segIds) : slot ∉ reserved := by
  induction segIds generalizing rng with
  | nil => cases hole
  | cons segId segIds ih =>
    rw [residentHoles] at hole
    split at hole
    · exact ih hole
    · rcases List.mem_append.mp hole with here | later
      · exact of_decide_eq_true (List.mem_filter.mp here).2
      · exact ih later

theorem emptySlotHintsInPopulatedSegments_notMem {state : SegmentedFriState} {seed : BitVec 64}
    {count : Nat} (hint : slot ∈ state.emptySlotHintsInPopulatedSegments seed count reserved) :
    slot ∉ reserved := by
  rw [emptySlotHintsInPopulatedSegments] at hint
  split at hint
  · cases hint
  · exact residentHoles_notMem (List.mem_of_mem_take hint)

end SegmentedFriState

namespace ChainState

variable {D : Type}

def freshStart (chain : ChainState D) : Nat :=
  if chain.state.logSlots ≤ 16 then
    ((generateSlotHints chain.allocCounter chain.state.logSlots 1).head?.getD 0).toNat
  else chain.allocCounter % chain.state.segmentSlotCount

/-- The first unreserved empty slot of a segment without live slots. -/
def freshSlotIn (chain : ChainState D) (reserved : List (BitVec 32)) (segId : Nat) :
    Option (BitVec 32) :=
  if chain.state.liveCounts segId ≠ 0 ∨ segId ∈ chain.state.evicted then none
  else
    -- One probe more than there are reserved slots finds a free one.
    let probes := min chain.state.segmentSlotCount (reserved.dedup.length + 1)
    ((chain.state.cyclicPositions chain.freshStart probes).map (chain.state.slotAt segId)).find?
      fun slot => slot ∉ reserved ∧ (chain.state.slot slot.toNat).isEmpty

inductive MintSlotError where
  | noSlot
  | segmentPanicked
  deriving DecidableEq

def selectSystemMintSlot (chain : ChainState D) (reuseSeed : BitVec 64)
    (reserved : List (BitVec 32)) : Except MintSlotError (BitVec 32) :=
  match chain.state.emptySlotHintsInPopulatedSegments reuseSeed 1 reserved with
  | slot :: _ => .ok slot
  | [] =>
    match generateZoneSegmentHints chain.allocCounter chain.state.logSlots
      chain.state.numSegments with
    | none => .error .segmentPanicked
    | some segIds =>
      match segIds.findSome? (chain.freshSlotIn reserved) with
      | none => .error .noSlot
      | some slot => .ok slot

theorem selectSystemMintSlot_notMem {chain : ChainState D} {reuseSeed : BitVec 64}
    (chosen : chain.selectSystemMintSlot reuseSeed reserved = .ok slot) : slot ∉ reserved := by
  rw [selectSystemMintSlot] at chosen
  split at chosen
  · next hint rest hints =>
      obtain rfl := Except.ok.inj chosen
      exact SegmentedFriState.emptySlotHintsInPopulatedSegments_notMem
        (hints ▸ List.mem_cons_self)
  · split at chosen
    · cases chosen
    · split at chosen
      · cases chosen
      · next segIds _ found fresh =>
          obtain rfl := Except.ok.inj chosen
          obtain ⟨segId, -, probed⟩ := List.exists_of_findSome?_eq_some fresh
          rw [freshSlotIn] at probed
          split at probed
          · cases probed
          · have accepted := List.find?_some probed
            exact (of_decide_eq_true accepted).1

end ChainState
end Jetsam
