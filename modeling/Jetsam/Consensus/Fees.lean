import Jetsam.Consensus.Params

/-!
# The fee model

A base charge, a charge per live input and output, and a charge per net-new slot that scales with
the occupancy of the parent. The last part is burned.
-/

namespace Jetsam

def minFeeBase : Nat := 5000

def feePerInput : Nat := 100

def feePerOutput : Nat := 700

def stateGrowthFeeBase : Nat := 2500

def occupancyBps (activeSlotCount logSlots : Nat) : Nat :=
  let capacity := if logSlots < 128 then 2 ^ logSlots else 2 ^ 128 - 1
  min (activeSlotCount * 10000) (2 ^ 128 - 1) / max capacity 1 % u64Bound

def pressureMultiplier (activeSlotCount logSlots : Nat) : Nat :=
  let bps := occupancyBps activeSlotCount logSlots
  if 9000 ≤ bps then 8 else if 7500 ≤ bps then 4 else if 5000 ≤ bps then 2 else 1

def stateGrowthFeePerSlot (activeSlotCount logSlots : Nat) : Nat :=
  satMul stateGrowthFeeBase (pressureMultiplier activeSlotCount logSlots)

structure FeeBreakdown where
  base : Nat
  input : Nat
  output : Nat
  io : Nat
  stateGrowth : Nat
  requiredTotal : Nat
  burned : Nat
  deriving DecidableEq

def feeBreakdown (nInputs nOutputs activeSlotCount logSlots : Nat) : FeeBreakdown :=
  let netNewSlots := nOutputs - nInputs
  let base := minFeeBase
  let input := satMul feePerInput nInputs
  let output := satMul feePerOutput nOutputs
  let io := satAdd input output
  let stateGrowth := satMul (stateGrowthFeePerSlot activeSlotCount logSlots) netNewSlots
  let requiredTotal := satAdd (satAdd base io) stateGrowth
  { base, input, output, io, stateGrowth, requiredTotal, burned := stateGrowth }

/-- The part of a paid fee that a miner may claim. -/
def claimableFee (paid nInputs nOutputs activeSlotCount logSlots : Nat) : Nat :=
  paid - (feeBreakdown nInputs nOutputs activeSlotCount logSlots).burned

theorem claimableFee_le (paid nInputs nOutputs activeSlotCount logSlots : Nat) :
    claimableFee paid nInputs nOutputs activeSlotCount logSlots ≤ paid :=
  Nat.sub_le _ _

end Jetsam
