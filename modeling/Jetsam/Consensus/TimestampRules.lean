import Jetsam.Consensus.HeaderRules
import Jetsam.Control.OrderStatistics

/-!
# Timestamps along a chain

A child is dated above the median of its last eleven ancestors and, from the v1.6 height on, not too
far below its parent. The median never falls along a chain that follows the rules.
-/

namespace Jetsam

open Control

variable {D : Type}

def TimestampAdmitted (rules : HeaderRules D) (height parentTimestamp : Nat)
    (prevTimestamps : List Nat) (timestamp : Nat) : Prop :=
  medianTimePast prevTimestamps < timestamp ∧
    parentTimestampFloor rules height parentTimestamp ≤ timestamp

instance (rules : HeaderRules D) (height parentTimestamp : Nat) (prevTimestamps : List Nat)
    (timestamp : Nat) :
    Decidable (TimestampAdmitted rules height parentTimestamp prevTimestamps timestamp) :=
  inferInstanceAs (Decidable (_ ∧ _))

def lowestAdmittedTimestamp (rules : HeaderRules D) (height parentTimestamp : Nat)
    (prevTimestamps : List Nat) : Nat :=
  max (satAdd (medianTimePast prevTimestamps) 1) (parentTimestampFloor rules height parentTimestamp)

def timestampWindow (chain : Nat → BlockHeader D) (height : Nat) : List Nat :=
  (recent chain medianTimeBlocks height).map BlockHeader.timestamp

/-- A chain up to a tip whose headers satisfy the timestamp rules. -/
def FollowsTimestampRules (rules : HeaderRules D) (chain : Nat → BlockHeader D) (tip : Nat) :
    Prop :=
  ∀ height < tip, TimestampAdmitted rules (chain (height + 1)).height (chain height).timestamp
    (timestampWindow chain height) (chain (height + 1)).timestamp

instance (rules : HeaderRules D) (chain : Nat → BlockHeader D) (tip : Nat) :
    Decidable (FollowsTimestampRules rules chain tip) :=
  inferInstanceAs (Decidable (∀ height < tip, _))

variable {prevTimestamps : List Nat}

theorem medianTimePast_eq_middle (short : prevTimestamps.length ≤ medianTimeBlocks) :
    medianTimePast prevTimestamps = middle 0 prevTimestamps := by
  rw [medianTimePast, middle, Nat.min_eq_left short, Nat.sub_self, List.drop_zero]

theorem length_timestampWindow (chain : Nat → BlockHeader D) (height : Nat) :
    (timestampWindow chain height).length = min medianTimeBlocks (height + 1) := by
  rw [timestampWindow, List.length_map, length_recent]

theorem timestampWindow_succ (chain : Nat → BlockHeader D) (height : Nat) :
    ∃ dropped : List Nat, dropped.length ≤ 1 ∧
      dropped ++ timestampWindow chain (height + 1) =
        timestampWindow chain height ++ [(chain (height + 1)).timestamp] := by
  rcases lt_or_ge (height + 1) medianTimeBlocks with short | full
  · refine ⟨[], Nat.zero_le 1, ?_⟩
    rw [timestampWindow, timestampWindow, ← recent_succ_of_short short]
    simp
  · refine ⟨[(chain (height + 1 - medianTimeBlocks)).timestamp], le_refl 1, ?_⟩
    have slide : recent chain medianTimeBlocks height ++ [chain (height + 1)] =
        chain (height + 1 - medianTimeBlocks) :: recent chain medianTimeBlocks (height + 1) :=
      recent_succ full
    simpa [timestampWindow] using congrArg (List.map BlockHeader.timestamp) slide.symm

variable {rules : HeaderRules D} {chain : Nat → BlockHeader D}

theorem medianTimePast_le_succ {height : Nat}
    (admitted : TimestampAdmitted rules (chain (height + 1)).height (chain height).timestamp
      (timestampWindow chain height) (chain (height + 1)).timestamp) :
    medianTimePast (timestampWindow chain height) ≤
      medianTimePast (timestampWindow chain (height + 1)) := by
  have short (position : Nat) : (timestampWindow chain position).length ≤ medianTimeBlocks := by
    rw [length_timestampWindow]
    exact min_le_left ..
  have above := admitted.1
  rw [medianTimePast_eq_middle (short height)] at above ⊢
  rw [medianTimePast_eq_middle (short (height + 1))]
  obtain ⟨dropped, one, slide⟩ := timestampWindow_succ chain height
  have nonempty : timestampWindow chain height ≠ [] := by
    apply List.length_pos_iff.mp
    rw [length_timestampWindow, medianTimeBlocks]
    omega
  exact middle_le_middle_of_slide nonempty above.le slide one

theorem medianTimePast_mono {tip : Nat} (follows : FollowsTimestampRules rules chain tip)
    {lower upper : Nat} (order : lower ≤ upper) (known : upper ≤ tip) :
    medianTimePast (timestampWindow chain lower) ≤
      medianTimePast (timestampWindow chain upper) := by
  induction upper, order using Nat.le_induction with
  | base => exact le_refl _
  | succ height _ ih =>
    have before := ih (Nat.le_of_succ_le known)
    exact before.trans (medianTimePast_le_succ (follows height known))

/-- The clock moves: six blocks raise the median-time-past. -/
theorem medianTimePast_lt_after_six {tip : Nat} (follows : FollowsTimestampRules rules chain tip)
    {height : Nat} (known : height + 6 ≤ tip) :
    medianTimePast (timestampWindow chain height) <
      medianTimePast (timestampWindow chain (height + 6)) := by
  have length := length_timestampWindow chain (height + 6)
  rw [medianTimeBlocks] at length
  obtain ⟨older, split⟩ : ∃ older, timestampWindow chain (height + 6) = older ++
      (List.range' (height + 1) 6).map (BlockHeader.timestamp ∘ chain) := by
    have split := @List.range'_append_1 (height + 7 - 11) (height + 1 - (height + 7 - 11)) 6
    rw [show height + 7 - 11 + (height + 1 - (height + 7 - 11)) = height + 1 by omega,
      show height + 1 - (height + 7 - 11) + 6 = height + 7 - (height + 7 - 11) by omega] at split
    have dates := congrArg (List.map (BlockHeader.timestamp ∘ chain)) split
    rw [List.map_append] at dates
    exact ⟨_, List.map_map.trans dates.symm⟩
  -- the new half of the window is dated above the median it started from
  have above : ((List.range' (height + 1) 6).map (BlockHeader.timestamp ∘ chain)).countP
      (medianTimePast (timestampWindow chain height) + 1 ≤ ·) = 6 := by
    rw [List.countP_eq_length.mpr, List.length_map, List.length_range']
    intro date member
    obtain ⟨position, inside, rfl⟩ := List.mem_map.mp member
    obtain ⟨lower, upper⟩ := List.mem_range'_1.mp inside
    obtain ⟨parent, rfl⟩ := Nat.exists_eq_add_of_le' ((Nat.le_add_left 1 height).trans lower)
    have risen := medianTimePast_mono follows (Nat.le_of_succ_le_succ lower) (by omega)
    exact decide_eq_true (risen.trans_lt (follows parent (by omega)).1)
  rw [medianTimePast_eq_middle (length.trans_le (min_le_left _ _)), ← Nat.succ_le_iff,
    le_middle_iff (List.length_pos_iff.mp (by omega)), length, split, List.countP_append, above]
  omega

theorem timestampAdmitted_iff (rules : HeaderRules D) (height parentTimestamp : Nat)
    (room : medianTimePast prevTimestamps < 2 ^ 64 - 1) (timestamp : Nat) :
    TimestampAdmitted rules height parentTimestamp prevTimestamps timestamp ↔
      lowestAdmittedTimestamp rules height parentTimestamp prevTimestamps ≤ timestamp := by
  have next : satAdd (medianTimePast prevTimestamps) 1 = medianTimePast prevTimestamps + 1 := by
    rw [satAdd, u64Max]
    omega
  rw [TimestampAdmitted, lowestAdmittedTimestamp, next, max_le_iff, Nat.succ_le_iff]

/-- Along every chain the median-time-past never decreases, and the two rules admit exactly the
timestamps from the lowest admitted one on. -/
theorem timestampRules_monotone_and_exact (rules : HeaderRules D) :
    (∀ (chain : Nat → BlockHeader D) (tip : Nat), FollowsTimestampRules rules chain tip →
      ∀ lower upper, lower ≤ upper → upper ≤ tip →
        medianTimePast (timestampWindow chain lower) ≤
          medianTimePast (timestampWindow chain upper)) ∧
      ∀ (height parentTimestamp : Nat) (prevTimestamps : List Nat) (timestamp : Nat),
        medianTimePast prevTimestamps < 2 ^ 64 - 1 →
        (TimestampAdmitted rules height parentTimestamp prevTimestamps timestamp ↔
          lowestAdmittedTimestamp rules height parentTimestamp prevTimestamps ≤ timestamp) := by
  constructor
  · intro chain tip follows lower upper order known
    exact medianTimePast_mono follows order known
  · intro height parentTimestamp prevTimestamps timestamp room
    exact timestampAdmitted_iff rules height parentTimestamp room timestamp

/-- A header of a chain with one late date. -/
def unevenlyDatedHeader (height : Nat) : BlockHeader Unit where
  prevBlockHash := 0
  stateRoot := ()
  txRoot := 0
  timestamp := 100 * height + if height = 9 then 650 else 0
  height
  minerAddress := 0
  nonce := 0
  difficultyTarget := 0
  logSlots := 0
  activeSlotCount := 0
  allocCounter := 0

/-- Rules with the v1.6 clock at the eleventh block. -/
def lagFromElevenRules : HeaderRules Unit where
  checkpoints := []
  v1_4Activation := none
  v1_5Activation := none
  v1_6Activation := some 11
  expectedTarget := fun _ _ _ => 0
  powValid := fun _ => true

theorem timestampRules_of_unevenDates :
    FollowsTimestampRules lagFromElevenRules unevenlyDatedHeader 13 ∧
      medianTimePast (timestampWindow unevenlyDatedHeader 2) ≤
        medianTimePast (timestampWindow unevenlyDatedHeader 13) ∧
      (TimestampAdmitted lagFromElevenRules 11 5000 (timestampWindow unevenlyDatedHeader 10) 4399 ↔
        4400 ≤ 4399) := by
  have follows : FollowsTimestampRules lagFromElevenRules unevenlyDatedHeader 13 := by
    decide
  have room : medianTimePast (timestampWindow unevenlyDatedHeader 10) < 2 ^ 64 - 1 := by
    decide
  have lowest : lowestAdmittedTimestamp lagFromElevenRules 11 5000
      (timestampWindow unevenlyDatedHeader 10) = 4400 := by
    decide
  refine ⟨follows, ?_, ?_⟩
  · exact (timestampRules_monotone_and_exact lagFromElevenRules).1 unevenlyDatedHeader 13 follows
      2 13 (by decide) (by decide)
  · rw [← lowest]
    exact (timestampRules_monotone_and_exact lagFromElevenRules).2 11 5000 _ 4399 room

theorem medianTimePast_lt_of_unevenDates :
    medianTimePast (timestampWindow unevenlyDatedHeader 7) <
      medianTimePast (timestampWindow unevenlyDatedHeader 13) :=
  @medianTimePast_lt_after_six _ lagFromElevenRules unevenlyDatedHeader 13 (by decide) 7
    (by decide)

end Jetsam
