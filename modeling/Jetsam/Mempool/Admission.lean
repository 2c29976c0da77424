import Jetsam.Mempool.Pool
import Jetsam.Consensus.EpochAnchor
import Jetsam.Consensus.Generations

/-!
# Admission to the node's mempool

The node wraps the pool with a view of the chain, a moving fee floor and two sets of held slots. A
submission is checked against a state it saw, verified without the lock, and checked again against
the state it is admitted to.
-/

namespace Jetsam

open Control

def medianU64 (values : List Nat) : Nat :=
  (values.insertionSort (· ≤ ·)).getD (values.length / 2) 0

/-- The fees of recent admissions and the floor they set. -/
structure FeeFloor where
  recent : List Nat
  capacity : Nat
  current : Nat

namespace FeeFloor

def new (windowSize : Nat) : FeeFloor := ⟨[], max windowSize 1, minFeeBase⟩

/-- Nine tenths of the median, and at least the base fee. -/
def compute (recent : List Nat) : Nat :=
  if recent = [] then minFeeBase
  else max (satMul (medianU64 recent) 9 / 10) minFeeBase

/-- Count the fee of an admission; the oldest one makes room. -/
def record (floor : FeeFloor) (fee : Nat) : FeeFloor :=
  let recent :=
    (if floor.capacity ≤ floor.recent.length then floor.recent.tail else floor.recent) ++ [fee]
  { floor with recent := recent, current := compute recent }

def reset (floor : FeeFloor) : FeeFloor := { floor with recent := [], current := minFeeBase }

end FeeFloor

inductive ChainViewReadError where
  | staleOrUnavailable
  | corruptSegment
  | cachePoisoned
  deriving DecidableEq

/-- What admission sees of the chain. -/
structure ChainView where
  tipHeight : Nat
  numSlots : Nat
  activeSlotCount : Nat
  logSlots : Nat
  userEpochAnchorId : Digest
  previousUserEpochAnchorId : Digest
  /-- One slot of the durable state at the tip. -/
  trySlot : BitVec 32 → Except ChainViewReadError SlotValue

/-- Anchors a group may bind in the next block, and the generation that counts them. -/
def ChainView.acceptedUserEpochAnchors (view : ChainView) (schedule : ActivationSchedule) :
    AcceptedEpochAnchors × HistoryStepPackGeneration :=
  (⟨view.userEpochAnchorId, view.previousUserEpochAnchorId⟩,
    .atFullSchedule (satAdd view.tipHeight 1) schedule)

inductive PlainTransactionError where
  | spendFromLockedAddress (owner : Address)
  | paymentWithoutObject
  deriving DecidableEq

/-- No group spends from a locked owner or pays a client object without carrying it. -/
def checkPlainTransactionWith (pages : List TxBody) (nextHeight : Nat) (rules : ClientObjectRules)
    (batch : ClientBatchRules) : Except PlainTransactionError Unit :=
  if !rules.activeAt nextHeight then .ok ()
  else do
    requireNone ((pages.map TxBody.inputOwner).find? (isClientLockedAddressAt batch nextHeight))
      .spendFromLockedAddress
    require (∀ output ∈ liveOutputsOf pages,
      (clientObjectMarkerKindAt batch nextHeight output.owner).isNone) .paymentWithoutObject

inductive AdmissionError where
  | belowMinFee (required actual : Nat)
  | clientObject (error : PlainTransactionError)
  | badEpochAnchor
  | slotConflict
  | shapeMismatch (text : String)
  | badStateRoot
  deriving DecidableEq

inductive InternalCause where
  | chainStateRead (error : ChainViewReadError)
  | pool (error : MempoolError)
  deriving DecidableEq

inductive SubmitError where
  | alreadyAdmitted (hash : Digest)
  | consensus (error : AdmissionError)
  | full (capacity : Nat)
  | bytesFull (actual max : Nat)
  | malformedIntent (text : String) (cause : Option PagedSpendError)
  | intentTooLarge (actual max : Nat)
  | missingProof
  | proofTooLarge (actual max : Nat)
  | invalidProof (reason : String)
  | internal (cause : InternalCause)

/-- A complete group with its authorization. -/
structure PagedSpendIntent where
  pages : List TxBody
  authorizationBytes : List Wire.Byte

def maxAuthorizationBytes : Nat := 256 * 1024

/-- Most bytes of an intent on the wire. -/
def maxTxIntentBytesGlobal : Nat :=
  (1 + 2 + 4) + maxPagedSpendPages * transactionWireSize + maxAuthorizationBytes

def pagedSpendIntentMarker : Wire.Byte := 0xA3

def canonicalIntentBytesMatch (intent : PagedSpendIntent) (bytes : List Wire.Byte) : Bool :=
  let authLen := intent.authorizationBytes.length
  match pagedSpendAuthorizationWireOffset intent.pages.length, intent.pages.mapM encodePage with
  | some offset, some encoded =>
    let head := pagedSpendIntentMarker :: Wire.leBytes 2 intent.pages.length ++ encoded.flatten ++
      Wire.leBytes 4 authLen
    authLen < 2 ^ 32 && bytes.length == offset + authLen && head.length == offset &&
      head.isPrefixOf bytes && bytes.drop offset == intent.authorizationBytes
  | _, _ => false

structure MempoolConfig where
  capacity : Nat
  maxTotalIntentBytes : Nat
  feeFloorWindow : Nat
  clientObjectRules : ClientObjectRules

/-- What the binary fixes: hashing, activation heights, batch rules, and the verifier of
authorizations. -/
structure AdmissionRules where
  hasher : TxHasher
  schedule : ActivationSchedule
  batch : ClientBatchRules
  verifyIntentAuthorization : List TxBody → List Wire.Byte → Except String Unit

/-- The state behind the mempool's lock. -/
structure MempoolState where
  pool : Mempool
  view : ChainView
  floor : FeeFloor
  admittedInputSlots : Finset (BitVec 32)
  admittedOutputSlots : Finset (BitVec 32)
  clientRules : ClientObjectRules

namespace MempoolState

def new (view : ChainView) (config : MempoolConfig) : MempoolState :=
  ⟨.new config.capacity, view, .new config.feeFloorWindow, ∅, ∅, config.clientObjectRules⟩

def setPool (pool : Mempool) (state : MempoolState) : MempoolState := { state with pool := pool }

end MempoolState

/-- No slot of a group is held by an admitted one, each on its own side. -/
def checkSlotConflictsWithPool (pages : List TxBody)
    (poolInputs poolOutputs : Finset (BitVec 32)) : Except SubmitError Unit :=
  require (pages.all (fun page => page.inputSlots.all (· ∉ poolInputs) &&
    page.outputSlots.all (· ∉ poolOutputs)) = true) (.consensus .slotConflict)

def ChainView.readSlot (view : ChainView) (index : BitVec 32) : Except SubmitError SlotValue :=
  mapError (fun error => .internal (.chainStateRead error)) (view.trySlot index)

def checkInputSlot (owner : Address) (view : ChainView) (input : TxInput) :
    Except SubmitError Unit := do
  let index := input.slotIndex.toNat
  require (index < view.numSlots)
    (.consensus (.shapeMismatch s!"input slot {index} out of range"))
  let actual ← view.readSlot input.slotIndex
  require (actual = .withOwnerFields input.amount input.creationId (asFields owner))
    (.consensus .badStateRoot)

def checkOutputSlot (view : ChainView) (output : TxOutput) : Except SubmitError Unit := do
  let index := output.slotIndex.toNat
  require (index < view.numSlots)
    (.consensus (.shapeMismatch s!"output slot {index} out of range"))
  let actual ← view.readSlot output.slotIndex
  require (actual = .empty) (.consensus .slotConflict)

/-- Every live input is in the state as the group claims it. -/
def checkInputSlots (pages : List TxBody) (spend : PagedSpendFacts) (view : ChainView) :
    Except SubmitError Unit :=
  (pages.flatMap TxBody.liveInputs).forM fun input => checkInputSlot spend.inputOwner view input.2

/-- Every live output fills an empty slot. -/
def checkOutputSlots (pages : List TxBody) (view : ChainView) : Except SubmitError Unit :=
  (pages.flatMap TxBody.liveOutputs).forM fun output => checkOutputSlot view output.2

/-- The checks of an admission against a state; the height of the current anchor. -/
def runAdmissionChecks (rules : AdmissionRules) (pages : List TxBody) (spend : PagedSpendFacts)
    (state : MempoolState) : Except SubmitError Nat := do
  let consensusRequired := (feeBreakdown spend.liveInputs spend.liveOutputs
    state.view.activeSlotCount state.view.logSlots).requiredTotal
  let required := max state.floor.current consensusRequired
  require (required ≤ spend.fee.toNat) (.consensus (.belowMinFee required spend.fee.toNat))
  let _ ← mapError (fun error => .malformedIntent "PagedSpend: " (some error))
    (validatePagedSpend rules.hasher pages)
  mapError (fun error => .consensus (.clientObject error))
    (checkPlainTransactionWith pages (satAdd state.view.tipHeight 1) state.clientRules rules.batch)
  require (spend.epochAnchor ≠ 0) (.consensus .badEpochAnchor)
  let (accepted, generation) := state.view.acceptedUserEpochAnchors rules.schedule
  require (state.view.userEpochAnchorId ≠ 0 ∧ accepted.accepts spend.epochAnchor generation = true)
    (.consensus .badEpochAnchor)
  checkSlotConflictsWithPool pages state.admittedInputSlots state.admittedOutputSlots
  checkInputSlots pages spend state.view
  checkOutputSlots pages state.view
  return txEpochAnchorHeightForChild (state.view.tipHeight + 1)

/-- The checks a state is asked for, before and after the verification. -/
def checkAgainst (rules : AdmissionRules) (config : MempoolConfig) (intent : PagedSpendIntent)
    (intentBytes : List Wire.Byte) (spend : PagedSpendFacts) (state : MempoolState) :
    Except SubmitError Nat := do
  require (state.pool.contains spend.logicalTxid = false) (.alreadyAdmitted spend.logicalTxid)
  let projectedBytes := state.pool.totalIntentBytes + intentBytes.length
  require (projectedBytes ≤ config.maxTotalIntentBytes)
    (.bytesFull projectedBytes config.maxTotalIntentBytes)
  runAdmissionChecks rules intent.pages spend state

/-- The checks of an intent that read no state. -/
def checkIntent (rules : AdmissionRules) (intent : PagedSpendIntent)
    (intentBytes : List Wire.Byte) : Except SubmitError PagedSpendFacts := do
  require (intentBytes.length ≤ maxTxIntentBytesGlobal)
    (.intentTooLarge intentBytes.length maxTxIntentBytesGlobal)
  require (canonicalIntentBytesMatch intent intentBytes = true)
    (.malformedIntent "decoded intent does not match retained canonical wire bytes" none)
  let spend ← mapError (fun error => .malformedIntent "PagedSpend: " (some error))
    (validatePagedSpend rules.hasher intent.pages)
  require (intent.authorizationBytes ≠ []) .missingProof
  require (intent.authorizationBytes.length ≤ maxAuthorizationBytes)
    (.proofTooLarge intent.authorizationBytes.length maxAuthorizationBytes)
  return spend

namespace MempoolState

def holdSlots (pages : List TxBody) (state : MempoolState) : MempoolState :=
  { state with
    admittedInputSlots := state.admittedInputSlots ∪ (groupInputSlots pages).toFinset
    admittedOutputSlots := state.admittedOutputSlots ∪ (groupOutputSlots pages).toFinset }

def admitRefusal (config : MempoolConfig) (hash : Digest) : MempoolError → SubmitError
  | .full => .full config.capacity
  | .alreadyAdmitted => .alreadyAdmitted hash
  | error => .internal (.pool error)

/-- Submit a group; `seen` is the state under the first lock, before the verification. -/
def submit (rules : AdmissionRules) (config : MempoolConfig) (seen : MempoolState)
    (intent : PagedSpendIntent) (intentBytes : List Wire.Byte) :
    InPlace MempoolState SubmitError Digest := do
  let spend ← .lift (checkIntent rules intent intentBytes)
  let _ ← .lift (checkAgainst rules config intent intentBytes spend seen)
  .lift (mapError .invalidProof
    (rules.verifyIntentAuthorization intent.pages intent.authorizationBytes))
  let state ← .get
  let _ ← .lift (checkAgainst rules config intent intentBytes spend state)
  let hash := spend.logicalTxid
  let admission := Mempool.admitPages rules.hasher intent.pages state.view.tipHeight
  (InPlace.zoom MempoolState.pool setPool admission).mapErr (admitRefusal config hash)
  let admitted ← .get
  let entry ← (InPlace.lift (okOr (admitted.pool.entries.lookup hash) ())).expect
  .update (holdSlots entry.pages)
  .update fun state => state.setPool (state.pool.setIntentBytes hash intentBytes)
  .update fun state => { state with floor := state.floor.record spend.fee.toNat }
  return hash

/-- Hold exactly the slots of the entries in the pool. -/
def rebuildSlotSets (state : MempoolState) : MempoolState :=
  state.pool.entries.entries.foldl (fun state stored => state.holdSlots stored.2.pages)
    { state with admittedInputSlots := ∅, admittedOutputSlots := ∅ }

/-- Forget old congestion once the pool has drained. -/
def resetFloorIfEmpty (state : MempoolState) : MempoolState :=
  if state.pool.len = 0 then { state with floor := state.floor.reset } else state

/-- Evict every entry that meets a condition; the number evicted. -/
def evictWhere (condition : MempoolEntry → Bool) (state : MempoolState) : Nat × MempoolState :=
  let refused := state.pool.hashesWhere condition
  (refused.length, state.setPool (state.pool.removeAll refused))

/-- Evict what the block at a height may not carry as a plain transaction. -/
def evictClientObjectViolations (rules : AdmissionRules) (nextHeight : Nat)
    (state : MempoolState) : Nat × MempoolState :=
  if !state.clientRules.activeAt nextHeight then (0, state)
  else state.evictWhere fun entry =>
    !(checkPlainTransactionWith entry.pages nextHeight state.clientRules rules.batch).isOk

/-- The anchor of an entry is not one the next block accepts. -/
def staleAnchor (rules : AdmissionRules) (view : ChainView) (entry : MempoolEntry) : Bool :=
  let (accepted, generation) := view.acceptedUserEpochAnchors rules.schedule
  !accepted.accepts entry.spend.epochAnchor generation

/-- An output slot of an entry is taken, or cannot be read. -/
def outputOccupied (view : ChainView) (entry : MempoolEntry) : Bool :=
  entry.pages.any fun page => page.liveOutputs.any fun output =>
    match view.trySlot output.2.slotIndex with
    | .ok slot => decide (slot ≠ .empty)
    | .error _ => true

/-- An input of an entry is no longer in the state as it was, or cannot be read. -/
def inputConsumed (view : ChainView) (entry : MempoolEntry) : Bool :=
  entry.pages.any fun page => page.liveInputs.any fun input =>
    match view.trySlot input.2.slotIndex with
    | .ok slot => decide (slot ≠
        .withOwnerFields input.2.amount input.2.creationId (asFields entry.spend.inputOwner))
    | .error _ => true

def onNewBlock (rules : AdmissionRules) (confirmedHashes : List Digest) (newView : ChainView)
    (state : MempoolState) : MempoolState :=
  let state := state.setPool (state.pool.onBlockConfirmed confirmedHashes).2
  let state := { state with view := newView }
  let state := (state.evictWhere (staleAnchor rules state.view)).2
  let state := (state.evictWhere (outputOccupied state.view)).2
  let state := (state.evictWhere (inputConsumed state.view)).2
  let state := (state.evictClientObjectViolations rules (satAdd state.view.tipHeight 1)).2
  state.rebuildSlotSets.resetFloorIfEmpty

/-- Evict what the block at a height may not carry; the slot sets follow if anything went. -/
def evictUnminableAt (rules : AdmissionRules) (nextHeight : Nat) (state : MempoolState) :
    MempoolState :=
  let (evicted, state) := state.evictClientObjectViolations rules nextHeight
  if 0 < evicted then state.rebuildSlotSets.resetFloorIfEmpty else state

def updateChainView (rules : AdmissionRules) (view : ChainView) (state : MempoolState) :
    MempoolState :=
  evictUnminableAt rules (satAdd view.tipHeight 1) { state with view := view }

/-- Drop the transactions of reverted blocks from the pool; the slot sets are left alone. -/
def readmitAfterReorg (txHashes : List Digest) (state : MempoolState) : MempoolState :=
  if txHashes = [] then state
  else (state.setPool (state.pool.removeAll txHashes)).resetFloorIfEmpty

end MempoolState
end Jetsam
