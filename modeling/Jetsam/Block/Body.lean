import Jetsam.Client.Registry
import Jetsam.Consensus.PagedStream
import Jetsam.State.ApplyTx

/-!
# Blocks

A block is a header and its ordered records: the primary coinbase, the development payout where one
is due, and the page stream.
-/

namespace Jetsam

open Control List

structure BlockHeader (D : Type) where
  prevBlockHash : Digest
  stateRoot : D
  txRoot : Digest
  timestamp : Nat
  height : Nat
  minerAddress : Address
  nonce : BitVec 128
  difficultyTarget : BitVec 256
  logSlots : Nat
  activeSlotCount : Nat
  allocCounter : Nat
  deriving DecidableEq

/-- A header with its records and the objects its markers open. -/
structure Block (D : Type) where
  header : BlockHeader D
  transactions : List TxBody
  clientObjects : List ClientObject

inductive BlockPageStreamError where
  | missingCoinbase
  | coinbaseNotFirst
  | multipleCoinbase
  | invalidPrimaryCoinbase
  | invalidDevelopmentPayout
  | pagedSpend (error : PagedSpendStreamError)
  deriving DecidableEq

structure BlockPageStreamFacts where
  proofClass : BlockProofClass
  groups : List PagedSpendGroupFacts
  pageCount : Nat
  logicalCount : Nat
  liveInputs : Nat
  liveOutputs : Nat
  hasDevelopmentPayout : Bool
  userStartIndex : Nat
  deriving DecidableEq

/-- Coinbase placement and the complete page stream under one generation's ladder. -/
def validateBlockPageStreamIn (hasher : TxHasher) (generation : HistoryStepPackGeneration) :
    List TxBody → Except BlockPageStreamError BlockPageStreamFacts
  | [] => .error .missingCoinbase
  | coinbase :: rest => do
    require (coinbase.isCoinbase = true) .coinbaseNotFirst
    require (coinbase.isPrimaryCoinbaseShape = true) .invalidPrimaryCoinbase
    let hasDevelopmentPayout := rest.head?.any TxBody.isDevelopmentPayoutShape
    let userPages := if hasDevelopmentPayout then rest.tail else rest
    require (∀ page ∈ userPages, page.isCoinbase = false) .multipleCoinbase
    require (rest.head?.all fun second => !second.isCoinbase || second.isDevelopmentPayoutShape)
      .invalidDevelopmentPayout
    let user ← mapError .pagedSpend
      (validatePagedSpendTransactionStreamIn hasher userPages generation)
    let effectivePageCount := user.pageCount + hasDevelopmentPayout.toNat
    let proofClass ← okOr
      (BlockProofClass.forPageCountInGeneration effectivePageCount generation)
      (.pagedSpend (.blockPageLimit effectivePageCount blockMaxUserPages))
    pure
      { proofClass
        groups := user.groups
        pageCount := user.pageCount
        logicalCount := user.logicalCount
        liveInputs := user.liveInputs
        liveOutputs := user.liveOutputs
        hasDevelopmentPayout
        userStartIndex := 1 + hasDevelopmentPayout.toNat }

def validateBlockPageStream (hasher : TxHasher) :
    List TxBody → Except BlockPageStreamError BlockPageStreamFacts :=
  validateBlockPageStreamIn hasher .v1

/-- Every live action of a block touches its own slot. -/
def validateBlockSlotConflicts {ε : Type} (conflict : ε) (transactions : List TxBody) :
    Except ε Unit :=
  requireNone (firstRepeat [] (transactions.flatMap TxBody.touched)) fun _ => conflict

variable {transactions : List TxBody}

theorem validateBlockSlotConflicts_eq_ok {ε : Type} {conflict : ε} {done : Unit} :
    validateBlockSlotConflicts conflict transactions = .ok done ↔
      (transactions.flatMap TxBody.touched).Nodup := by
  simp [validateBlockSlotConflicts]

/-- Compression of two digests, and the wrap that binds the number of leaves. -/
structure TxTreeHasher where
  compress : Digest → Digest → Digest
  bindTxCount : Digest → Nat → Digest

def txTreeLeaves : Nat := 256

def txTreeDepth : Nat := 8

def compressLayers (compress : Digest → Digest → Digest) : Nat → (Nat → Digest) → Digest
  | 0, layer => layer 0
  | levels + 1, layer =>
    compressLayers compress levels fun index => compress (layer (2 * index)) (layer (2 * index + 1))

/-- Header root of the logical transaction identifiers. -/
def rootFromHashes (tree : TxTreeHasher) (hashes : List Digest) : Digest :=
  if hashes = [] then 0
  else
    tree.bindTxCount (compressLayers tree.compress txTreeDepth fun index => hashes.getD index 0)
      hashes.length

/-- Identifiers of the leaves: the system records, then the groups. -/
def tryComputeLogicalTxids (hasher : TxHasher) (transactions : List TxBody) :
    Except BlockPageStreamError (List Digest) :=
  if transactions = [] then pure []
  else do
    let stream ← validateBlockPageStream hasher transactions
    pure ((transactions.take stream.userStartIndex).map hasher.bodyHash ++
      stream.groups.map fun group => group.spend.logicalTxid)

def tryComputeTxRoot (hasher : TxHasher) (tree : TxTreeHasher) (transactions : List TxBody) :
    Except BlockPageStreamError Digest := do
  let hashes ← tryComputeLogicalTxids hasher transactions
  pure (rootFromHashes tree hashes)

structure BlockLayout where
  coinbase : TxBody
  payout : Option TxBody
  groups : List PageGroup

namespace BlockLayout

def pages (layout : BlockLayout) : List TxBody := layout.groups.flatMap PageGroup.pages

def system (layout : BlockLayout) : List TxBody := layout.coinbase :: layout.payout.toList

def records (layout : BlockLayout) : List TxBody := layout.system ++ layout.pages

structure Accepted (layout : BlockLayout) : Prop where
  primary : layout.coinbase.isPrimaryCoinbaseShape = true
  development : ∀ payout ∈ layout.payout, payout.isDevelopmentPayoutShape = true
  stream : StreamAccepted layout.pages layout.groups
  pageLimit : layout.pages.length + layout.payout.toList.length ≤ blockMaxUserPages

def facts (layout : BlockLayout) (hasher : TxHasher) (generation : HistoryStepPackGeneration) :
    BlockPageStreamFacts where
  proofClass :=
    if layout.pages.length + layout.payout.toList.length ≤ generation.tiers.1 then .b25 else .b255
  groups := groupFacts hasher 0 layout.groups
  pageCount := layout.pages.length
  logicalCount := layout.groups.length
  liveInputs := groupLiveInputs layout.pages
  liveOutputs := groupLiveOutputs layout.pages
  hasDevelopmentPayout := layout.payout.isSome
  userStartIndex := layout.system.length

end BlockLayout

theorem StreamAccepted.user {pages : List TxBody} {groups : List PageGroup}
    (stream : StreamAccepted pages groups) : ∀ page ∈ pages, page.isCoinbase = false := by
  intro page mem
  rw [stream.split, mem_flatMap] at mem
  obtain ⟨group, inGroups, inGroup⟩ := mem
  exact ((stream.accepted group inGroups).shape page inGroup).user

variable {body : TxBody}

theorem TxBody.isCoinbase_of_primary (primary : body.isPrimaryCoinbaseShape = true) :
    body.isCoinbase = true := by
  rw [isPrimaryCoinbaseShape, Bool.and_eq_true] at primary
  exact primary.1

theorem TxBody.isCoinbase_of_development (development : body.isDevelopmentPayoutShape = true) :
    body.isCoinbase = true := by
  rw [isDevelopmentPayoutShape, Bool.and_eq_true] at development
  exact development.1

/-- The layout validator accepts exactly the bodies that are laid out by the rules. -/
theorem validateBlockPageStreamIn_eq_ok {hasher : TxHasher} {generation : HistoryStepPackGeneration}
    {facts : BlockPageStreamFacts} :
    validateBlockPageStreamIn hasher generation transactions = .ok facts ↔
      ∃ layout : BlockLayout, transactions = layout.records ∧ layout.Accepted ∧
        facts = layout.facts hasher generation := by
  cases transactions with
  | nil => simp [validateBlockPageStreamIn, BlockLayout.records, BlockLayout.system]
  | cons coinbase rest =>
    simp only [validateBlockPageStreamIn, bind_eq_ok, require_eq_ok, exists_const,
      mapError_eq_ok, okOr_eq_ok, pure_eq_ok, validatePagedSpendTransactionStreamIn_eq_ok,
      BlockProofClass.forPageCountInGeneration_eq_some]
    constructor
    · rintro ⟨-, primary, user, -, _, ⟨groups, stream, rfl⟩, _, ⟨limit, rfl⟩, rfl⟩
      cases development : rest.head?.any TxBody.isDevelopmentPayoutShape with
      | false =>
        simp only [development, Bool.false_eq_true, if_false] at stream limit
        refine ⟨⟨coinbase, none, groups⟩, ?_, ⟨primary, by simp, ?_, ?_⟩, ?_⟩
        · simp [BlockLayout.records, BlockLayout.system, BlockLayout.pages, ← stream.split]
        · simpa [BlockLayout.pages, ← stream.split] using stream
        · simpa [BlockLayout.pages, ← stream.split, streamFacts] using limit
        · simp [BlockLayout.facts, BlockLayout.pages, BlockLayout.system, ← stream.split,
            streamFacts]
      | true =>
        cases rest with
        | nil => simp at development
        | cons payout rest =>
          simp only [development, if_true, tail_cons] at stream limit
          refine ⟨⟨coinbase, some payout, groups⟩, ?_,
            ⟨primary, by simpa using development, ?_, ?_⟩, ?_⟩
          · simp [BlockLayout.records, BlockLayout.system, BlockLayout.pages, ← stream.split]
          · simpa [BlockLayout.pages, ← stream.split] using stream
          · simpa [BlockLayout.pages, ← stream.split, streamFacts] using limit
          · simp [BlockLayout.facts, BlockLayout.pages, BlockLayout.system, ← stream.split,
              streamFacts]
    · rintro ⟨⟨coinbase', payout, groups⟩, equal, accepted, rfl⟩
      have user := accepted.stream.user
      have limit := accepted.pageLimit
      cases payout with
      | none =>
        simp only [BlockLayout.records, BlockLayout.system, Option.toList_none,
          singleton_append, List.cons.injEq] at equal
        obtain ⟨rfl, rfl⟩ := equal
        have plain : ∀ second ∈ (BlockLayout.pages ⟨coinbase, none, groups⟩).head?,
            second.isCoinbase = false :=
          fun second first => user second (mem_of_mem_head? first)
        have development : (BlockLayout.pages ⟨coinbase, none, groups⟩).head?.any
            TxBody.isDevelopmentPayoutShape = false := by
          cases first : (BlockLayout.pages ⟨coinbase, none, groups⟩).head? with
          | none => rfl
          | some second =>
            simp [TxBody.isDevelopmentPayoutShape, plain second first]
        simp only [development, Bool.false_eq_true, if_false, Bool.toNat_false, add_zero]
        refine ⟨TxBody.isCoinbase_of_primary accepted.primary, accepted.primary, user, ?_, _,
          ⟨groups, accepted.stream, rfl⟩, _, ⟨by simpa [streamFacts] using limit, rfl⟩, ?_⟩
        · cases first : (BlockLayout.pages ⟨coinbase, none, groups⟩).head? with
          | none => rfl
          | some second => simp [plain second first]
        · simp [BlockLayout.facts, BlockLayout.system, streamFacts]
          rfl
      | some payout =>
        simp only [BlockLayout.records, BlockLayout.system, Option.toList_some,
          cons_append, nil_append, List.cons.injEq] at equal
        obtain ⟨rfl, rfl⟩ := equal
        have development := accepted.development payout rfl
        simp only [head?_cons, Option.any_some, development, if_true, tail_cons, Bool.toNat_true]
        refine ⟨TxBody.isCoinbase_of_primary accepted.primary, accepted.primary, user,
          by simp [development], _, ⟨groups, accepted.stream, rfl⟩, _,
          ⟨by simpa [streamFacts] using limit, rfl⟩, ?_⟩
        simp [BlockLayout.facts, BlockLayout.system, streamFacts]

variable {layout : BlockLayout}

theorem BlockLayout.Accepted.length_records (accepted : layout.Accepted) :
    layout.records.length ≤ blockMaxTxs := by
  have limit := accepted.pageLimit
  simp only [BlockLayout.records, BlockLayout.system, length_append, length_cons,
    blockMaxTxs, blockMaxUserPages] at limit ⊢
  omega

theorem BlockLayout.Accepted.liveInputCount_system (accepted : layout.Accepted) :
    ∀ body ∈ layout.system, body.liveInputCount = 0 := by
  intro body mem
  have bitmap : body.validityBitmap = outputBitmapBit 0 ∨
      body.validityBitmap = outputBitmapBit 0 ||| outputBitmapBit 1 := by
    rcases mem_cons.mp mem with rfl | mem
    · have primary := accepted.primary
      rw [TxBody.isPrimaryCoinbaseShape, Bool.and_eq_true, beq_iff_eq] at primary
      exact Or.inl primary.2
    · have development := accepted.development body (Option.mem_toList.mp mem)
      rw [TxBody.isDevelopmentPayoutShape, Bool.and_eq_true, beq_iff_eq] at development
      exact Or.inr development.2
  rcases bitmap with bitmap | bitmap <;> rw [TxBody.liveInputCount, bitmap] <;> decide

/-- Leaves of the transaction tree of an accepted body. -/
def BlockLayout.txids (layout : BlockLayout) (hasher : TxHasher) : List Digest :=
  layout.system.map hasher.bodyHash ++
    layout.groups.map fun group => hashPagedSpendUnchecked hasher group.pages

theorem BlockLayout.Accepted.tryComputeLogicalTxids (accepted : layout.Accepted)
    (hasher : TxHasher) :
    Jetsam.tryComputeLogicalTxids hasher layout.records = .ok (layout.txids hasher) := by
  have stream : validateBlockPageStream hasher layout.records = .ok (layout.facts hasher .v1) :=
    validateBlockPageStreamIn_eq_ok.mpr ⟨layout, rfl, accepted, rfl⟩
  refine bind_eq_ok.mpr ⟨_, stream, ?_⟩
  rw [facts, records, take_left, map_groupFacts]
  rfl

theorem BlockLayout.Accepted.tryComputeTxRoot (accepted : layout.Accepted) (hasher : TxHasher)
    (tree : TxTreeHasher) :
    Jetsam.tryComputeTxRoot hasher tree layout.records =
      .ok (rootFromHashes tree (layout.txids hasher)) :=
  bind_eq_ok.mpr ⟨_, accepted.tryComputeLogicalTxids hasher, rfl⟩

theorem BlockLayout.length_txids_le (layout : BlockLayout) (hasher : TxHasher) :
    (layout.txids hasher).length ≤ layout.records.length := by
  have groups : layout.groups.length ≤ layout.pages.length := by
    rw [pages]
    induction layout.groups with
    | nil => exact le_refl 0
    | cons group groups ih =>
      have some : 0 < group.pages.length := Nat.succ_pos _
      rw [flatMap_cons, length_append, length_cons]
      omega
  rw [txids, records, length_append, length_append, length_map, length_map]
  omega

end Jetsam
