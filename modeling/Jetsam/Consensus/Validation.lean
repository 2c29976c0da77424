import Jetsam.Block.Apply
import Jetsam.Consensus.Emission
import Jetsam.Consensus.Fees
import Jetsam.Sparse.Multiproof

/-!
# Block checks

The native checks of a block against its parent header, before any state is read.
-/

namespace Jetsam

open Control

inductive ConsensusError where
  | invalidPoW
  | badParentHash
  | badHeight
  | badDifficultyTarget
  | checkpointMismatch
  | badTimestamp
  | tooManyTxs
  | blockResourceLimitExceeded (limit : String) (actual max : Nat)
  | slotConflict
  | invalidPagedSpend (error : BlockPageStreamError)
  | badEpochAnchor
  | missingCoinbase
  | multipleCoinbase
  | coinbaseNotFirst
  | badCoinbaseOwner
  | inflatedCoinbase
  | badCoinbaseAnchor
  | missingDevelopmentPayout
  | unexpectedDevelopmentPayout
  | badDevelopmentPayout
  | belowMinFee (required actual : Nat)
  | badLogSlotsExpansion
  | shapeMismatch (reason : String) (cause : Option PublicLogicError)
  | objectsBeforeActivation
  deriving DecidableEq

/-- The rules a deployment fixes; the clock and the proof of work are functions of the headers. -/
structure ConsensusRules (D : Type) where
  checkpoints : List (Nat × Digest)
  expectedTarget : Nat → Nat → BitVec 256
  timestampValid : BlockHeader D → BlockHeader D → Bool
  powValid : BlockHeader D → Bool
  v1_5Activation : Option Nat
  client : ClientObjectRules
  batch : ClientBatchRules

def pageStreamConsensusError : BlockPageStreamError → ConsensusError
  | .missingCoinbase => .missingCoinbase
  | .coinbaseNotFirst => .coinbaseNotFirst
  | .multipleCoinbase => .multipleCoinbase
  | .pagedSpend (.blockPageLimit actual capacity) =>
    .blockResourceLimitExceeded "user_pages" actual capacity
  | .pagedSpend (.tooManyGroups actual capacity) =>
    .blockResourceLimitExceeded "logical_txs" actual capacity
  | .pagedSpend (.blockInputLimit actual capacity) =>
    .blockResourceLimitExceeded "live_inputs" actual capacity
  | .pagedSpend (.blockOutputLimit actual capacity) =>
    .blockResourceLimitExceeded "user_outputs" actual capacity
  | .pagedSpend (.duplicateInputSlot _) | .pagedSpend (.duplicateOutputSlot _)
  | .pagedSpend (.inputOutputSlotOverlap _) => .slotConflict
  | other => .invalidPagedSpend other

def transactionWireSize : Nat := 323

/-- Wire bytes of a block before its first record: marker, header and count. -/
def blockWireFixedOverhead : Nat := 1 + 212 + 4

def maxBlockBytes : Nat := 1 + 212 + 4 + 256 * transactionWireSize

def maxBlockClientObjects : Nat := clientRegistryCapacity + 1

def ClientObject.wireLen : ClientObject → Nat
  | .registration _ => 1 + (32 + 32 + 4)
  | .submission _ => 1 + (32 + 32)
  | .batchSubmission _ => 1 + (32 + 32 + 4)

/-- Exact wire length of a block, unless it has too many records or objects. -/
def Block.canonicalWireLen {D : Type} (block : Block D) : Option Nat :=
  if block.clientObjects.length ≤ maxBlockClientObjects ∧ block.transactions.length ≤ blockMaxTxs
  then
    some (blockWireFixedOverhead + block.transactions.length * transactionWireSize +
      if block.clientObjects = [] then 0
      else 2 + (block.clientObjects.map ClientObject.wireLen).sum)
  else none

/-- Sibling digests of the touched slots; sorted slots of the domain always have a count. -/
def stateFrontierNodeCount (touched : List Nat) (logSlots : Nat) : Nat :=
  if touched = [] then 0
  else
    match expectedSiblingCount touched logSlots with
    | .ok count => count
    | .error _ => 0

structure BlockResourcePreflight where
  userPageCount : Nat
  logicalTxCount : Nat
  liveInputCount : Nat
  outputCount : Nat
  actionCount : Nat
  touchedSlotCount : Nat
  distinctSegmentCount : Nat
  stateFrontierNodeCount : Nat
  deriving DecidableEq

/-- The object section is only allowed under the object rules, and must fit the wire. -/
def validateObjectSection {D : Type} (rules : ClientObjectRules) (block : Block D) :
    Except ConsensusError Unit :=
  if block.clientObjects = [] then .ok ()
  else do
    require (rules.activeAt block.header.height = true) .objectsBeforeActivation
    let wireLen ← okOr block.canonicalWireLen (.shapeMismatch "block wire length overflows" none)
    require (wireLen ≤ maxBlockBytes)
      (.blockResourceLimitExceeded "block_bytes" wireLen maxBlockBytes)

/-- Segments touched by the records, refusing slots outside the domain on the way. -/
def scanSegments (logSlots : Nat) : List Nat → List TxBody → Except ConsensusError (List Nat)
  | seen, [] => pure seen
  | seen, body :: rest => do
    require (∀ slot ∈ body.inputSlots, slot.toNat < 2 ^ logSlots)
      (.shapeMismatch "live input slot is outside block log_slots" none)
    require (∀ slot ∈ body.outputSlots, slot.toNat < 2 ^ logSlots)
      (.shapeMismatch "live output slot is outside block log_slots" none)
    let segments := (seen ++ body.touched.map fun slot : BitVec 32 =>
      slot.toNat / 2 ^ logSegmentSize).dedup
    require (segments.length ≤ blockMaxDistinctSegments)
      (.blockResourceLimitExceeded "distinct_segments" segments.length blockMaxDistinctSegments)
    scanSegments logSlots segments rest

def validateBlockResourcePreflight {D : Type} (hasher : TxHasher) (rules : ClientObjectRules)
    (block : Block D) : Except ConsensusError BlockResourcePreflight := do
  require (block.transactions.length ≤ blockMaxTxs) .tooManyTxs
  validateObjectSection rules block
  require (1 ≤ block.header.logSlots ∧ block.header.logSlots ≤ 32)
    (.shapeMismatch "block log_slots is outside the u32 slot domain" none)
  let stream ← mapError pageStreamConsensusError
    (validateBlockPageStream hasher block.transactions)
  require (stream.pageCount ≤ blockMaxUserPages)
    (.blockResourceLimitExceeded "user_pages" stream.pageCount blockMaxUserPages)
  let segments ← scanSegments block.header.logSlots [] block.transactions
  let liveInputs := groupLiveInputs block.transactions
  let outputs := groupLiveOutputs block.transactions
  require (liveInputs ≤ blockMaxLiveInputs)
    (.blockResourceLimitExceeded "live_inputs" liveInputs blockMaxLiveInputs)
  require (outputs ≤ blockMaxUserOutputs + 1)
    (.blockResourceLimitExceeded "outputs" outputs (blockMaxUserOutputs + 1))
  require (liveInputs + outputs ≤ blockMaxActions)
    (.blockResourceLimitExceeded "actions" (liveInputs + outputs) blockMaxActions)
  let touched := (orderedMap ((block.transactions.flatMap TxBody.touched).map fun slot =>
    (slot.toNat, ()))).map Prod.fst
  pure
    { userPageCount := stream.pageCount
      logicalTxCount := stream.logicalCount
      liveInputCount := liveInputs
      outputCount := outputs
      actionCount := liveInputs + outputs
      touchedSlotCount := touched.length
      distinctSegmentCount := segments.length
      stateFrontierNodeCount := stateFrontierNodeCount touched block.header.logSlots }

/-- What the preflight says about the records and the actions of a block. -/
theorem validateBlockResourcePreflight_bounds {D : Type} {hasher : TxHasher}
    {rules : ClientObjectRules} {block : Block D} {facts : BlockResourcePreflight}
    (preflight : validateBlockResourcePreflight hasher rules block = .ok facts) :
    (∃ stream, validateBlockPageStream hasher block.transactions = .ok stream) ∧
      groupLiveInputs block.transactions + groupLiveOutputs block.transactions ≤
        blockMaxActions := by
  simp only [validateBlockResourcePreflight, bind_eq_ok, require_eq_ok, exists_const,
    mapError_eq_ok] at preflight
  obtain ⟨-, _, -, -, stream, laidOut, -, _, -, -, -, actions, -⟩ := preflight
  exact ⟨⟨stream, laidOut⟩, actions⟩

/-- The hard-finalized header range that decides a child, oldest first. -/
def finalizedExpansionWindow (parentHeight : Nat) : Option (Nat × Nat) := do
  let last ← checkedSub parentHeight consensusFinalityDepth
  let first ← checkedSub last (expansionWindow - 1)
  pure (first, last)

/-- The only depth valid for the child of a parent header. -/
def expectedChildLogSlots (parentHeight parentLogSlots : Nat) (finalizedActiveCounts : List Nat) :
    Nat :=
  if (finalizedExpansionWindow parentHeight).isNone then parentLogSlots
  else if finalizedActiveCounts.length ≠ expansionWindow then parentLogSlots
  else
    let capacity := if parentLogSlots < 64 then 2 ^ parentLogSlots else u64Max
    let thresholdScaled := satMul capacity 3
    let atOrAbove := finalizedActiveCounts.countP fun active =>
      decide (thresholdScaled ≤ satMul active 4)
    if expansionWindow / 2 < atOrAbove then min (parentLogSlots + 1) logSlotsMax
    else parentLogSlots

variable {D : Type}

/-- A header at a pinned height has to be the pinned one. -/
def checkHardCheckpoint (hashes : ChainHashes D) (pins : List (Nat × Digest))
    (header : BlockHeader D) : Except ConsensusError Unit :=
  require ((pins.find? (·.1 == header.height)).all fun pin => hashes.blockId header == pin.2)
    .checkpointMismatch

def validateHeaderInner (hashes : ChainHashes D) (rules : ConsensusRules D) (checkPow : Bool)
    (header parent : BlockHeader D) (finalizedActiveCounts : List Nat) :
    Except ConsensusError Unit := do
  checkHardCheckpoint hashes rules.checkpoints header
  require (header.prevBlockHash = hashes.blockId parent) .badParentHash
  require (header.height = parent.height + 1) .badHeight
  require (header.difficultyTarget = rules.expectedTarget header.height parent.timestamp)
    .badDifficultyTarget
  require (rules.timestampValid header parent = true) .badTimestamp
  require (checkPow = true → rules.powValid header = true) .invalidPoW
  require (header.logSlots =
      expectedChildLogSlots parent.height parent.logSlots finalizedActiveCounts)
    .badLogSlotsExpansion

def networkFundAddress : Address :=
  0xf044f0294d6606423a118d51a08cdb00bd6613e99f138a3e7b019ebf0b54ca77

def labFundAddress : Address :=
  0x8f7d1470fc4bc11d19102ca7084710d8b1ef3cfb8347622c62c4cfa9c551de71

/-- The scheduled development payout has to be present exactly where it is due. -/
def validateDevelopmentPayout (anchor : Digest) (payout : Option TxBody) (due : Option Nat)
    (present : Bool) : Except ConsensusError Unit :=
  match due, present with
  | some _, false => .error .missingDevelopmentPayout
  | none, true => .error .unexpectedDevelopmentPayout
  | none, false => .ok ()
  | some amount, true => do
    let payout ← okOr payout .missingDevelopmentPayout
    mapError (fun _ =>
        .shapeMismatch "development payout has non-canonical body semantics" none)
      (validateBodySemanticsNoHash payout)
    require (payout.epochAnchor = anchor) .badDevelopmentPayout
    require ((payout.outputs 0).owner = networkFundAddress ∧
        (payout.outputs 1).owner = labFundAddress ∧
        (payout.outputs 0).amount.toNat = amount ∧ (payout.outputs 1).amount.toNat = amount)
      .badDevelopmentPayout

def validateMandatoryCoinbase (hashes : ChainHashes D) (rules : ConsensusRules D)
    (block : Block D) (parent : BlockHeader D) : Except ConsensusError Unit := do
  let expectedAnchor := hashes.blockId parent
  let stream ← mapError pageStreamConsensusError
    (validateBlockPageStream hashes.tx block.transactions)
  let coinbase ← okOr block.transactions.head? .missingCoinbase
  mapError (fun error => .shapeMismatch "coinbase semantics" (some error))
    (validateBodySemanticsNoHash coinbase)
  require (coinbase.epochAnchor = expectedAnchor) .badCoinbaseAnchor
  require ((coinbase.outputs 0).owner = block.header.minerAddress) .badCoinbaseOwner
  let allocation ← mapError (fun _ => .badDevelopmentPayout)
    (developmentAllocationWith block.header.height rules.v1_5Activation)
  validateDevelopmentPayout expectedAnchor (block.transactions.drop 1).head? allocation.payoutEach
    stream.hasDevelopmentPayout

def validateTxConsensus (body : TxBody) : Except ConsensusError Unit := do
  mapError (fun error => .shapeMismatch "body semantics" (some error))
    (validateBodySemanticsNoHash body)
  require (body.isCoinbase = false → body.epochAnchor ≠ 0) .badEpochAnchor

/-- Charge one group and add what the miner may claim of its fee. -/
def chargeGroup (parent : BlockHeader D) (claimable : Nat) (group : PagedSpendGroupFacts) :
    Except ConsensusError Nat := do
  let breakdown := feeBreakdown group.spend.liveInputs group.spend.liveOutputs
    parent.activeSlotCount parent.logSlots
  let paid := group.spend.fee.toNat
  require (breakdown.requiredTotal ≤ paid) (.belowMinFee breakdown.requiredTotal paid)
  okOr (checkedAdd u128Bound claimable (paid - breakdown.burned))
    (.shapeMismatch "claimable fee sum overflow" none)

/-- The fee policy, and the sum of the fees that the miner may claim. -/
def validateFeePolicyAndClaimableFeeSum (hasher : TxHasher) (block : Block D)
    (parent : BlockHeader D) : Except ConsensusError Nat := do
  let stream ← mapError pageStreamConsensusError
    (validateBlockPageStream hasher block.transactions)
  stream.groups.foldlM (chargeGroup parent) 0

/-- The coinbase claims at most the subsidy, the claimable fees and the license dividend. -/
def validateCoinbaseCeiling (rules : ConsensusRules D) (block : Block D)
    (claimableFeeSum licenseDividend : Nat) : Except ConsensusError Unit :=
  match block.transactions.head? with
  | none => .ok ()
  | some coinbase =>
    let value := ((coinbase.liveOutputs.head?).map fun live => live.2.amount.toNat).getD 0
    require (coinbase.isCoinbase = true → value ≤
        minerSubsidyWith block.header.height rules.v1_5Activation + claimableFeeSum +
          licenseDividend)
      .inflatedCoinbase

/-- All native checks of a block that read no state. -/
def validateBlockChecksInner (hashes : ChainHashes D) (rules : ConsensusRules D) (checkPow : Bool)
    (block : Block D) (parent : BlockHeader D) (finalizedActiveCounts : List Nat)
    (licenseDividend : Nat) : Except ConsensusError Unit := do
  let _ ← validateBlockResourcePreflight hashes.tx rules.client block
  validateHeaderInner hashes rules checkPow block.header parent finalizedActiveCounts
  validateMandatoryCoinbase hashes rules block parent
  let _ ← mapError pageStreamConsensusError
    (validateBlockPageStream hashes.tx block.transactions)
  validateBlockSlotConflicts .slotConflict block.transactions
  let coinbase ← okOr block.transactions.head? .missingCoinbase
  validateTxConsensus coinbase
  let claimableFeeSum ← validateFeePolicyAndClaimableFeeSum hashes.tx block parent
  validateCoinbaseCeiling rules block claimableFeeSum licenseDividend

end Jetsam
