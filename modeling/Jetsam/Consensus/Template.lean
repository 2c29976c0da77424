import Jetsam.Consensus.Admission
import Jetsam.Consensus.Allocator
import Jetsam.Tx.Wire

/-!
# Block templates

The builder selects page groups by fee under the block resources, chooses slots for the system
mints, and replays the block on a scratch state to fill in its header.
-/

namespace Jetsam

open Control

variable {D : Type}

structure BlockTemplate (D : Type) where
  coinbase : TxBody
  developmentPayout : Option TxBody
  txs : List TxBody
  stateRoot : D
  txRoot : Digest
  activeSlotCount : Nat
  allocCounter : Nat
  logSlots : Nat
  height : Nat
  timestamp : Nat
  minerAddress : Address
  difficultyTarget : BitVec 256
  prevBlockHash : Digest

def BlockTemplate.intoBlock (template : BlockTemplate D) (nonce : BitVec 128) : Block D where
  header :=
    { prevBlockHash := template.prevBlockHash
      stateRoot := template.stateRoot
      txRoot := template.txRoot
      timestamp := template.timestamp
      height := template.height
      minerAddress := template.minerAddress
      nonce
      difficultyTarget := template.difficultyTarget
      logSlots := template.logSlots
      activeSlotCount := template.activeSlotCount
      allocCounter := template.allocCounter }
  transactions := template.coinbase :: template.developmentPayout.toList ++ template.txs
  clientObjects := []

inductive TemplateApplyReason where
  | text (message : String)
  | stream (error : PagedSpendStreamError)
  | developmentAllocation (error : DevelopmentAllocationError)
  | apply (error : ApplyError)
  | stateRead (error : ExactStateReadError)
  deriving DecidableEq

/-- Failures of the builder; the last two are panics of the functions it calls. -/
inductive TemplateBuildError where
  | noCoinbaseSlot
  | stateApplyError (reason : TemplateApplyReason)
  | expansionPanicked (error : StateResizeError)
  | segmentPanicked
  deriving DecidableEq

/-- Resources of the groups selected so far, next to the mandatory system records. -/
structure TemplateResourceSelection where
  systemRecordCount : Nat
  systemOutputCount : Nat
  userPageCount : Nat
  logicalCount : Nat
  liveInputCount : Nat
  liveOutputCount : Nat
  touchedSlots : List (BitVec 32)
  touchedSegments : List Nat

namespace TemplateResourceSelection

def withSystemOutputs (systemRecordCount systemOutputCount : Nat) : TemplateResourceSelection :=
  ⟨systemRecordCount, systemOutputCount, 0, 0, 0, 0, [], []⟩

/-- The limits of a selection, a segment being reserved for every system output. -/
def WithinLimits (selection : TemplateResourceSelection) : Prop :=
  selection.userPageCount + selection.systemRecordCount ≤ blockMaxUserPages ∧
    selection.logicalCount ≤ blockMaxUserPages ∧
    selection.liveInputCount ≤ blockMaxLiveInputs ∧
    selection.liveOutputCount + selection.systemOutputCount ≤ blockMaxUserOutputs + 1 ∧
    selection.liveInputCount + selection.liveOutputCount + selection.systemOutputCount ≤
      blockMaxActions ∧
    selection.touchedSegments.length + selection.systemOutputCount ≤ blockMaxDistinctSegments

instance (selection : TemplateResourceSelection) : Decidable selection.WithinLimits := by
  unfold WithinLimits
  infer_instance

/-- The selection with one more group, unless a limit or a slot conflict forbids it. -/
def withGroup (selection : TemplateResourceSelection) (pages : List TxBody)
    (spend : PagedSpendFacts) : Option TemplateResourceSelection :=
  let slots := pages.flatMap TxBody.touched
  let next : TemplateResourceSelection :=
    { selection with
      userPageCount := selection.userPageCount + pages.length
      logicalCount := selection.logicalCount + 1
      liveInputCount := selection.liveInputCount + spend.liveInputs
      liveOutputCount := selection.liveOutputCount + spend.liveOutputs
      touchedSlots := selection.touchedSlots ++ slots
      touchedSegments := (selection.touchedSegments ++ Jetsam.touchedSegments pages).dedup }
  if firstRepeat selection.touchedSlots slots = none ∧ next.WithinLimits then some next else none

end TemplateResourceSelection

structure CandidatePagedSpend where
  pages : List TxBody
  spend : PagedSpendFacts

/-- Hand each group of the stream its pages. -/
def splitCandidates : List PagedSpendGroupFacts → List TxBody → List CandidatePagedSpend
  | [], _ => []
  | group :: groups, source =>
    ⟨source.take group.pageCount, group.spend⟩ ::
      splitCandidates groups (source.drop group.pageCount)

/-- Higher fees first, then the identifiers in byte order. -/
def CandidatePagedSpend.Precedes (left right : CandidatePagedSpend) : Prop :=
  right.spend.fee.toNat < left.spend.fee.toNat ∨
    left.spend.fee = right.spend.fee ∧
      (digestBytes left.spend.logicalTxid).map BitVec.toNat ≤
        (digestBytes right.spend.logicalTxid).map BitVec.toNat

instance : DecidableRel CandidatePagedSpend.Precedes := fun _ _ => by
  unfold CandidatePagedSpend.Precedes
  infer_instance

structure TemplateSelection (D : Type) where
  scratch : ChainState D
  resources : TemplateResourceSelection
  winners : List CandidatePagedSpend

/-- Apply user pages, which mint under no height. -/
def ChainState.applyPages (chain : ChainState D) (pages : List TxBody) :
    Except TemplateBuildError (ChainState D) :=
  pages.foldlM
    (fun chain page => mapError (fun error => .stateApplyError (.apply error))
      (chain.applyTxCheckedDeferredRoot page none))
    chain

/-- Take one candidate if it fits and pays its fee; a group that fails to apply ends the build. -/
def selectGroup (parent : BlockHeader D) (selection : TemplateSelection D)
    (group : CandidatePagedSpend) : Except TemplateBuildError (TemplateSelection D) :=
  match selection.resources.withGroup group.pages group.spend with
  | none => .ok selection
  | some resources =>
    let required := (feeBreakdown group.spend.liveInputs group.spend.liveOutputs
      parent.activeSlotCount parent.logSlots).requiredTotal
    if group.spend.fee.toNat < required then .ok selection
    else do
      let scratch ← selection.scratch.applyPages group.pages
      pure ⟨scratch, resources, selection.winners ++ [group]⟩

/-- The slot of the primary coinbase and, where a payout is due, its two slots. -/
def ChainState.selectSystemSlots (chain : ChainState D) (seed : BitVec 64)
    (reserved : List (BitVec 32)) (payoutDue : Bool) :
    Except TemplateBuildError (BitVec 32 × Option (BitVec 32 × BitVec 32)) := do
  let select := fun reserved => mapError
    (fun | .noSlot => .noCoinbaseSlot | .segmentPanicked => .segmentPanicked)
    (chain.selectSystemMintSlot seed reserved)
  let coinbase ← select reserved
  if payoutDue then do
    let first ← select (coinbase :: reserved)
    let second ← select (first :: coinbase :: reserved)
    pure (coinbase, some (first, second))
  else pure (coinbase, none)

def TxBody.developmentPayout (anchor : Digest) (slots : BitVec 32 × BitVec 32)
    (amount : BitVec 64) : TxBody where
  epochAnchor := anchor
  fee := 0
  inputOwner := 0
  inputs := fun _ => .dummy
  outputs := ![⟨slots.1, amount, networkFundAddress⟩, ⟨slots.2, amount, labFundAddress⟩]
  validityBitmap := outputBitmapBit 0 ||| outputBitmapBit 1
  isCoinbase := true

/-- The payout of an allocation; it has an amount exactly where slots were chosen for it. -/
def scheduledPayout (anchor : Digest) (payoutEach : Option Nat)
    (slots : Option (BitVec 32 × BitVec 32)) : Option TxBody :=
  payoutEach.bind fun amount => slots.map fun slots =>
    .developmentPayout anchor slots (BitVec.ofNat 64 amount)

def claimableFeeSum (parent : BlockHeader D) (winners : List CandidatePagedSpend) : Nat :=
  (winners.map fun group => claimableFee group.spend.fee.toNat group.spend.liveInputs
    group.spend.liveOutputs parent.activeSlotCount parent.logSlots).sum

/-- Fix the system records and replay the whole block in block order. -/
def replayTemplate (hashes : ChainHashes D) (rootWord : D → BitVec 64) (parent : BlockHeader D)
    (childHeight newLogSlots : Nat) (allocation : DevelopmentAllocation) (scratch : ChainState D)
    (winners : List CandidatePagedSpend) (minerAddress : Address) (timestamp : Nat)
    (difficultyTarget : BitVec 256) :
    Except TemplateBuildError (BlockTemplate D × ChainState D) := do
  let reserved := winners.flatMap fun group => group.pages.flatMap TxBody.touched
  let seed := BitVec.ofNat 64 scratch.allocCounter ^^^ rootWord parent.stateRoot
  let (coinbaseSlot, developmentSlots) ←
    scratch.selectSystemSlots seed reserved allocation.payoutDue
  let coinbaseValue := min (allocation.minerSubsidy + claimableFeeSum parent winners) u64Max
  let prevBlockHash := hashes.blockId parent
  let coinbase := TxBody.primaryCoinbase prevBlockHash coinbaseSlot (BitVec.ofNat 64 coinbaseValue)
    minerAddress
  let developmentPayout := scheduledPayout prevBlockHash allocation.payoutEach developmentSlots
  let minted ← (coinbase :: developmentPayout.toList).foldlM
    (fun chain body => mapError (fun error => .stateApplyError (.apply error))
      (chain.applyTxCheckedDeferredRoot body (some childHeight)))
    scratch
  let txs := winners.flatMap CandidatePagedSpend.pages
  let applied ← minted.applyPages txs
  let (rooted, stateRoot) ← mapError (fun error => .stateApplyError (.stateRead error))
    (applied.tryStateRoot hashes.state)
  let txHashes := (coinbase :: developmentPayout.toList).map hashes.tx.bodyHash ++
    winners.map fun group => group.spend.logicalTxid
  pure
    ({ coinbase, developmentPayout, txs, stateRoot
       txRoot := rootFromHashes hashes.tree txHashes
       activeSlotCount := rooted.activeSlotCount
       allocCounter := rooted.allocCounter
       logSlots := newLogSlots
       height := childHeight
       timestamp, minerAddress, difficultyTarget, prevBlockHash }, rooted)

variable [DecidableEq D]

/-- The domain of the child, which grows by one level at most. -/
def ChainState.expandForChild (hasher : StateHasher D) (shouldExpand : Bool)
    (chain : ChainState D) : Except TemplateBuildError (ChainState D) :=
  if shouldExpand then mapError .expansionPanicked (chain.expandOne hasher) else .ok chain

/-- Build a template with the state it leads to; `rootWord` reads eight bytes of a state root. -/
def buildBlockTemplateWithPostState (hashes : ChainHashes D) (v1_5Activation : Option Nat)
    (rootWord : D → BitVec 64) (parent : BlockHeader D) (chain : ChainState D)
    (finalizedActiveCounts : List Nat) (candidateTxs : List TxBody) (minerAddress : Address)
    (timestamp : Nat) (difficultyTarget : BitVec 256) :
    Except TemplateBuildError (BlockTemplate D × ChainState D) := do
  let childHeight ← okOr (checkedAdd u64Bound parent.height 1)
    (.stateApplyError (.text "parent height exhausted"))
  let stream ← mapError (fun error => .stateApplyError (.stream error))
    (validatePagedSpendTransactionStreamIn hashes.tx candidateTxs .v1)
  let candidates := (splitCandidates stream.groups candidateTxs).insertionSort
    CandidatePagedSpend.Precedes
  let newLogSlots := expectedChildLogSlots parent.height parent.logSlots finalizedActiveCounts
  let shouldExpand := decide (newLogSlots ≠ parent.logSlots)
  let allocation ← mapError (fun error => .stateApplyError (.developmentAllocation error))
    (developmentAllocationWith childHeight v1_5Activation)
  let systemRecordCount := allocation.payoutDue.toNat
  let systemOutputCount := 1 + 2 * systemRecordCount
  -- Selection and replay start from the same expanded copy of the state.
  let scratch ← chain.expandForChild hashes.state shouldExpand
  let reservedCounter ← okOr (checkedAdd u64Bound scratch.allocCounter systemOutputCount)
    (.stateApplyError
      (.text "alloc_counter exhausted while reserving system mint creation IDs"))
  let selection ← candidates.foldlM (selectGroup parent)
    ⟨{ scratch with allocCounter := reservedCounter },
      .withSystemOutputs systemRecordCount systemOutputCount, []⟩
  replayTemplate hashes rootWord parent childHeight newLogSlots allocation scratch
    selection.winners minerAddress timestamp difficultyTarget

def buildBlockTemplate (hashes : ChainHashes D) (v1_5Activation : Option Nat)
    (rootWord : D → BitVec 64) (parent : BlockHeader D) (chain : ChainState D)
    (finalizedActiveCounts : List Nat) (candidateTxs : List TxBody) (minerAddress : Address)
    (timestamp : Nat) (difficultyTarget : BitVec 256) :
    Except TemplateBuildError (BlockTemplate D) := do
  let (template, _) ← buildBlockTemplateWithPostState hashes v1_5Activation rootWord parent chain
    finalizedActiveCounts candidateTxs minerAddress timestamp difficultyTarget
  pure template

end Jetsam
