import Jetsam.Circuit.Arithmetic
import Jetsam.Consensus.Emission
import Jetsam.Consensus.Fees
import Jetsam.Field.Tower
import Jetsam.Tx.PagedSpend

/-!
# The fee constraints of the block circuit

The occupancy of the parent selects a pressure region. For every group the constraints bind the
minimum, the burned and the claimable part of its fee, and for the block the claimable sum and the
ceiling of the coinbase.
-/

namespace Jetsam

open Circuit Builder BinaryField

variable {K : Type} [Field K]

abbrev CircuitWords (K : Type) [Field K] := WordBasis K 128

def towerWords : CircuitWords Tower.Block128 := Tower.Block128.words

/-- One logical group of pages, or an all-zero record. -/
structure PagedSpendGroupTrace (K : Type) where
  live : K
  logicalTxid : K × K
  inputOwner : K × K
  fee : K
  liveInputCount : K
  liveOutputCount : K
  endPage : K

def minExactStateDepth : ℕ := 24

def maxExactStateDepth : ℕ := 32

def exactStateDepthChoices : ℕ := maxExactStateDepth - minExactStateDepth + 1

/-- A depth with its selectors, the first for the smallest depth. -/
structure StateDepthTrace (K : Type) where
  value : K
  oneHot : List K

namespace StateDepthTrace

variable (words : WordBasis K 128)

def ofDepth (depth : ℕ) : StateDepthTrace K :=
  ⟨words.ofNat depth, Circuit.oneHot exactStateDepthChoices (depth - minExactStateDepth)⟩

end StateDepthTrace

def u64Bits : ℕ := 64

def moneySumBits : ℕ := 72

def smallFeeBits : ℕ := 32

structure LogicalGroupFeeArithmeticTrace (K : Type) where
  liveInputCount : K
  liveOutputCount : K
  minimumFee : K
  burnedFee : K
  claimableFee : K
  claimableBits : List K

structure BlockFeeArithmeticTrace (K : Type) where
  pressureMultiplier : K
  groups : List (LogicalGroupFeeArithmeticTrace K)
  claimableFeeSum : K
  blockReward : K
  coinbaseSubsidy : K
  maxCoinbaseValue : K

/-- Smallest count of active slots with at least the given occupancy in basis points. -/
def occupancyThreshold (depth thresholdBps : ℕ) : ℕ :=
  (2 ^ depth * thresholdBps + 9999) / 10000 % u64Bound

def depthSelectedThresholdBits (depth : StateDepthTrace K) (thresholdBps : ℕ) : List K :=
  selectedConstantBits depth.oneHot
    ((List.range exactStateDepthChoices).map fun index =>
      occupancyThreshold (minExactStateDepth + index) thresholdBps) u64Bits

def halvingBoundaries : List ℕ :=
  [h1Height, h2Height] ++
    ((List.range (halvingCount - 3)).map fun index => h2Height + halvingInterval * (index + 1)) ++
    [emissionEndHeight]

def tierRewards : List ℕ := (0 :: halvingBoundaries).map blockReward

section Bind

variable (words : WordBasis K 128)

/-- The pressure multiplier, and the region that selects it. -/
def bindPressure (parentActiveCount : K) (parentDepth : StateDepthTrace K) :
    Builder K (K × List K) := do
  let activeBits ← rangeCheckBits words parentActiveCount u64Bits
  let belowLow := lessThanBits activeBits (depthSelectedThresholdBits parentDepth 5000)
  let belowHigh := lessThanBits activeBits (depthSelectedThresholdBits parentDepth 7500)
  let belowExtreme := lessThanBits activeBits (depthSelectedThresholdBits parentDepth 9000)
  let regions := [belowLow, belowLow + belowHigh, belowHigh + belowExtreme, belowExtreme + 1]
  let derived := reconstructBits words (selectedConstantBits regions [1, 2, 4, 8] 4)
  let pressure ← wire (words.ofNat (Jetsam.pressureMultiplier
    (words.toNat parentActiveCount % u64Bound) (words.toNat parentDepth.value % 2 ^ 32)))
  pinEq pressure derived
  return (pressure, regions)

/-- The net growth of a group: the difference of the counts, or zero. -/
def bindNetGrowth (inputBits outputBits : List K) (liveInputCount liveOutputCount : K) :
    Builder K (List K) := do
  let inputWide := resizeBits inputBits 11
  let outputWide := resizeBits outputBits 11
  let isGrowth := lessThanBits inputWide outputWide
  let net ← wire (words.ofNat (words.toNat liveOutputCount - words.toNat liveInputCount))
  let netBits ← rangeCheckBits words net 9
  pinZero ((isGrowth + 1) * net)
  let inputPlusNet ← checkedAddBits inputWide (resizeBits netBits 11)
  pinZero (isGrowth * (reconstructBits words inputPlusNet + liveOutputCount))
  return netBits

/-- The base burn moved up by the selected region. -/
def burnBits (regions baseBurn : List K) : List K :=
  (List.range smallFeeBits).map fun bit =>
    (regions.zipIdx.map fun entry =>
      if entry.2 ≤ bit then entry.1 * baseBurn.getD (bit - entry.2) 0 else 0).sum

def bindGroupFee (group : PagedSpendGroupTrace K) (pressureRegions : List K) :
    Builder K (LogicalGroupFeeArithmeticTrace K) := do
  let inputBits ← rangeCheckBits words group.liveInputCount 11
  let outputBits ← rangeCheckBits words group.liveOutputCount 9
  let inputCap ← rangeCheckBits words (words.ofNat (maxPagedSpendInputs + 1)) 11
  let outputCap ← rangeCheckBits words (words.ofNat (maxPagedSpendOutputs + 1)) 9
  pinLtStrict inputBits inputCap
  pinLtStrict outputBits outputCap
  let inputFeeBits ← constantProductBits inputBits feePerInput smallFeeBits
  let outputFeeBits ← constantProductBits outputBits feePerOutput smallFeeBits
  let baseBits := (List.range smallFeeBits).map fun bit =>
    if minFeeBase.testBit bit then group.live else 0
  let netBits ← bindNetGrowth words inputBits outputBits group.liveInputCount group.liveOutputCount
  let baseBurn ← constantProductBits netBits stateGrowthFeeBase smallFeeBits
  let burn := burnBits pressureRegions baseBurn
  let burnedFee := reconstructBits words burn
  let baseAndInputs ← checkedAddBits baseBits inputFeeBits
  let baseIo ← checkedAddBits baseAndInputs outputFeeBits
  let minimumBits ← checkedAddBits baseIo burn
  let minimumFee := reconstructBits words minimumBits
  let feeBits ← rangeCheckBits words group.fee u64Bits
  pinZero (lessThanBits feeBits (resizeBits minimumBits u64Bits))
  let claimableFee ← wire (words.ofNat (words.toNat group.fee - words.toNat burnedFee))
  let claimableBits ← rangeCheckBits words claimableFee u64Bits
  let paid ← checkedAddBits claimableBits (resizeBits burn u64Bits)
  pinEq (reconstructBits words paid) group.fee
  return {
    liveInputCount := group.liveInputCount
    liveOutputCount := group.liveOutputCount
    minimumFee, burnedFee, claimableFee, claimableBits }

def aggregateBits : List (LogicalGroupFeeArithmeticTrace K) → Builder K (List K)
  | [] => return List.replicate moneySumBits 0
  | first :: rest =>
    rest.foldlM
      (fun sum group => checkedAddBits sum (resizeBits group.claimableBits moneySumBits))
      (resizeBits first.claimableBits moneySumBits)

def bindBlockFeeArithmetic (groups : List (PagedSpendGroupTrace K))
    (parentActiveCount : K) (parentDepth : StateDepthTrace K) (emissionTiers : List K)
    (coinbaseSubsidy coinbaseAmount : K) (coinbaseAmountBits : List K) :
    Builder K (BlockFeeArithmeticTrace K) := do
  let (pressureMultiplier, pressureRegions) ← bindPressure words parentActiveCount parentDepth
  let groups ← groups.mapM fun group => bindGroupFee words group pressureRegions
  let aggregate ← aggregateBits groups
  let aggregateReconstruction := reconstructBits words aggregate
  let claimableFeeSum ← wire (words.ofNat (words.toNat aggregateReconstruction))
  pinEq claimableFeeSum aggregateReconstruction
  let blockReward :=
    reconstructBits words (selectedConstantBits emissionTiers tierRewards moneySumBits)
  let subsidyBits ← rangeCheckBits words coinbaseSubsidy u64Bits
  let maxBits ← checkedAddBits aggregate (resizeBits subsidyBits moneySumBits)
  pinEq coinbaseAmount (reconstructBits words coinbaseAmountBits)
  pinZero (lessThanBits maxBits (resizeBits coinbaseAmountBits moneySumBits))
  return {
    pressureMultiplier, groups, claimableFeeSum, blockReward, coinbaseSubsidy
    maxCoinbaseValue := reconstructBits words maxBits }

end Bind

end Jetsam
