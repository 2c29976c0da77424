import Mathlib.Data.Nat.Bitwise
import Mathlib.Tactic

/-!
# Consensus parameters

The constants that the modelled rules read. Heights, counts and amounts in μJTM are natural numbers;
every rule that could leave its machine range checks or saturates there.
-/

namespace Jetsam

/-- One past the largest unsigned 64-bit value. -/
def u64Bound : Nat := 2 ^ 64

def u64Max : Nat := 2 ^ 64 - 1

def satAdd (left right : Nat) : Nat := min (left + right) u64Max

def satMul (left right : Nat) : Nat := min (left * right) u64Max

/-- Wire cap on the records of a block. -/
def blockMaxTxs : Nat := 256

def blockMaxUserPages : Nat := blockMaxTxs - 1

def blockMaxLiveInputs : Nat := 1020

def blockMaxUserOutputs : Nat := 510

/-- Live actions of a block, the primary coinbase included. -/
def blockMaxActions : Nat := blockMaxLiveInputs + blockMaxUserOutputs + 1

def blockMaxDistinctSegments : Nat := 256

/-- Slots of a state segment, as a power of two. -/
def logSegmentSize : Nat := 16

def logSlotsMax : Nat := 32

/-- Slot domain of the genesis state. -/
def stateLogSlots : Nat := 24

/-- Blocks after which a header is final. -/
def consensusFinalityDepth : Nat := 8

def expansionWindow : Nat := 18

inductive HistoryStepPackGeneration where
  | v1
  | v1_3
  | v1_5
  | v1_6
  deriving DecidableEq

namespace HistoryStepPackGeneration

def tiers : HistoryStepPackGeneration → Nat × Nat
  | v1 => (25, 255)
  | v1_3 | v1_5 | v1_6 => (24, 255)

/-- Whether transactions may bind the anchor of the previous epoch too. -/
def bindsTwoEpochAnchors : HistoryStepPackGeneration → Bool
  | v1 => false
  | v1_3 | v1_5 | v1_6 => true

end HistoryStepPackGeneration

/-- The two epoch anchors a child block may carry. -/
structure AcceptedEpochAnchors where
  current : BitVec 256
  previous : BitVec 256
  deriving DecidableEq

def AcceptedEpochAnchors.accepts (anchors : AcceptedEpochAnchors) (anchor : BitVec 256)
    (generation : HistoryStepPackGeneration) : Bool :=
  anchor == anchors.current || (generation.bindsTwoEpochAnchors && anchor == anchors.previous)

/-- High bit marking the creation identifier of a coinbase mint. -/
def coinbaseCreationTag : BitVec 64 := 1 <<< 63

def isCoinbaseCreationId (creationId : BitVec 64) : Bool :=
  creationId &&& coinbaseCreationTag ≠ 0

/-- The tagged identifier of the coinbase output minted at `height`. -/
def coinbaseCreationId (height : Nat) : BitVec 64 :=
  coinbaseCreationTag ||| BitVec.ofNat 64 height

def coinbaseCreationHeight (creationId : BitVec 64) : Nat :=
  (creationId &&& ~~~coinbaseCreationTag).toNat

theorem coinbaseCreationTag_toNat : coinbaseCreationTag.toNat = 2 ^ 63 := by decide

/-- The tag is the top bit. -/
theorem isCoinbaseCreationId_iff (creationId : BitVec 64) :
    isCoinbaseCreationId creationId = true ↔ 2 ^ 63 ≤ creationId.toNat := by
  have masked : (creationId &&& coinbaseCreationTag).toNat =
      (creationId.toNat.testBit 63).toNat * 2 ^ 63 := by
    rw [BitVec.toNat_and, coinbaseCreationTag_toNat, Nat.and_two_pow]
  have bit : creationId.toNat.testBit 63 = decide (2 ^ 63 ≤ creationId.toNat) := by
    rw [Nat.testBit_eq_decide_div_mod_eq]
    congr 1
    simp only [eq_iff_iff]
    omega
  simp only [isCoinbaseCreationId, decide_eq_true_eq, ne_eq, ← BitVec.toNat_inj, masked, bit]
  by_cases tagged : 2 ^ 63 ≤ creationId.toNat <;> simp

theorem coinbaseCreationId_toNat {height : Nat} (small : height < 2 ^ 63) :
    (coinbaseCreationId height).toNat = 2 ^ 63 + height := by
  have tag : 2 ^ 63 = 1 <<< 63 := by decide
  rw [coinbaseCreationId, BitVec.toNat_or, coinbaseCreationTag_toNat, BitVec.toNat_ofNat,
    Nat.mod_eq_of_lt (by omega), tag, ← Nat.shiftLeft_add_eq_or_of_lt small]

theorem coinbaseCreationHeight_tagged {height : Nat} (small : height < 2 ^ 63) :
    coinbaseCreationHeight (coinbaseCreationId height) = height := by
  have mask : (~~~coinbaseCreationTag).toNat = 2 ^ 63 - 1 := by decide
  rw [coinbaseCreationHeight, BitVec.toNat_and, coinbaseCreationId_toNat small, mask,
    Nat.and_two_pow_sub_one_eq_mod]
  omega

end Jetsam
