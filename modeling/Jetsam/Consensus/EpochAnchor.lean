import Jetsam.Consensus.Validation

/-!
# Epoch anchors of transactions

A user transaction names a block id, its anchor: the last epoch boundary below the child or, from
v1.3 on, the one before. A node folds the anchor over the headers it accepts, and the chain
accumulator remembers the older one; both agree with the canonical headers.
-/

namespace Jetsam

open Control Option

variable {D : Type}

def txEpochBlocks : Nat := 32

structure TxEpochHeightDecomposition where
  quotient : Nat
  remainder : Nat

def TxEpochHeightDecomposition.isBoundary (decomposition : TxEpochHeightDecomposition) : Bool :=
  decomposition.remainder == 0

/-- Divide a height by the epoch length, with the reconstruction checked in 64 bits. -/
def checkedTxEpochHeightDecomposition (height : Nat) : Option TxEpochHeightDecomposition := do
  let quotient := height / txEpochBlocks
  let remainder := height % txEpochBlocks
  guard (quotient * txEpochBlocks < 2 ^ 64)
  let recomposed ← checkedAdd (2 ^ 64) (quotient * txEpochBlocks) remainder
  guard (recomposed = height ∧ remainder < txEpochBlocks)
  guard (remainder < 2 ^ 8)
  return ⟨quotient, remainder⟩

def txEpochAnchorHeightForChild (childHeight : Nat) : Nat :=
  (childHeight - 1) / txEpochBlocks * txEpochBlocks

def previousTxEpochAnchorHeightForChild (childHeight : Nat) : Nat :=
  txEpochAnchorHeightForChild childHeight - txEpochBlocks

/-- Whether a child accepts the anchor at a height under the two-anchor rule. -/
def txEpochAnchorIsAcceptableForChild (childHeight anchorHeight : Nat) : Bool :=
  anchorHeight == txEpochAnchorHeightForChild childHeight ||
    anchorHeight == previousTxEpochAnchorHeightForChild childHeight

def validateBlockEpochAnchors (transactions : List TxBody) (userEpochAnchorId parentId : Digest) :
    Except ConsensusError Unit :=
  transactions.forM fun body =>
    let expected := if body.isCoinbase then parentId else userEpochAnchorId
    require (body.epochAnchor = expected)
      (if body.isCoinbase then .badCoinbaseAnchor else .badEpochAnchor)

def validateBlockEpochAnchorsIn (transactions : List TxBody) (accepted : AcceptedEpochAnchors)
    (parentId : Digest) (generation : HistoryStepPackGeneration) : Except ConsensusError Unit :=
  if generation.bindsTwoEpochAnchors then
    transactions.forM fun body =>
      if body.isCoinbase then require (body.epochAnchor = parentId) .badCoinbaseAnchor
      else require (accepted.accepts body.epochAnchor generation = true) .badEpochAnchor
  else validateBlockEpochAnchors transactions accepted.current parentId

/-- The anchor after an accepted child; nothing when the height leaves 64 bits. -/
def nextTxEpochAnchorId (startAnchorId : Digest) (acceptedChildHeight : Nat)
    (acceptedChildId : Digest) : Option Digest := do
  let decomposition ← checkedTxEpochHeightDecomposition acceptedChildHeight
  return if acceptedChildHeight ≠ 0 ∧ decomposition.isBoundary = true then acceptedChildId
    else startAnchorId

def resolveUserEpochAnchorId (blockId : BlockHeader D → Digest) (childHeight : Nat)
    (headerAt : Nat → Option (BlockHeader D)) : Option Digest :=
  (headerAt (txEpochAnchorHeightForChild childHeight)).map blockId

def resolveAcceptedUserEpochAnchorIds (blockId : BlockHeader D → Digest) (childHeight : Nat)
    (headerAt : Nat → Option (BlockHeader D)) : Option AcceptedEpochAnchors := do
  let current ← (headerAt (txEpochAnchorHeightForChild childHeight)).map blockId
  let previous ← (headerAt (previousTxEpochAnchorHeightForChild childHeight)).map blockId
  return ⟨current, previous⟩

/-- The boundary that a history proof carries from block to block. -/
structure ChainAccumulator (D : Type) where
  height : Nat
  tipSemanticId : Digest
  stateRoot : D
  logSlots : Nat
  activeSlotCount : Nat
  allocCounter : Nat
  epochAnchorId : Digest
  previousEpochAnchorId : Digest

inductive ChainAccumulatorAdvanceError where
  | heightOverflow
  | badHeight (expected actual : Nat)
  | badParentTip
  | badParentHeight (expected actual : Nat)
  | badParentLink
  /-- The height has no decomposition. -/
  | panicked

/-- The two identities of a header. -/
structure HeaderIds (D : Type) where
  blockId : BlockHeader D → Digest
  semanticHeaderId : BlockHeader D → Digest

def genesisAccumulator (ids : HeaderIds D) (genesis : BlockHeader D) : ChainAccumulator D where
  height := genesis.height
  tipSemanticId := ids.semanticHeaderId genesis
  stateRoot := genesis.stateRoot
  logSlots := genesis.logSlots
  activeSlotCount := genesis.activeSlotCount
  allocCounter := genesis.allocCounter
  epochAnchorId := ids.blockId genesis
  previousEpochAnchorId := ids.blockId genesis

/-- The boundary behind a child. One bit drives both anchors. -/
def ChainAccumulator.advanceIn (accumulator : ChainAccumulator D) (ids : HeaderIds D)
    (generation : HistoryStepPackGeneration) (parentHeader childHeader : BlockHeader D) :
    Except ChainAccumulatorAdvanceError (ChainAccumulator D) := do
  require (parentHeader.height = accumulator.height)
    (.badParentHeight accumulator.height parentHeader.height)
  require (ids.semanticHeaderId parentHeader = accumulator.tipSemanticId) .badParentTip
  let parentBlockId := ids.blockId parentHeader
  require (childHeader.prevBlockHash = parentBlockId) .badParentLink
  let expectedHeight ← okOr (checkedAdd (2 ^ 64) accumulator.height 1) .heightOverflow
  require (childHeader.height = expectedHeight) (.badHeight expectedHeight childHeader.height)
  let decomposition ←
    okOr (checkedTxEpochHeightDecomposition accumulator.height) .panicked
  let boundary := decomposition.isBoundary
  let epochAnchorId := if boundary then parentBlockId else accumulator.epochAnchorId
  return {
    height := childHeader.height
    tipSemanticId := ids.semanticHeaderId childHeader
    stateRoot := childHeader.stateRoot
    logSlots := childHeader.logSlots
    activeSlotCount := childHeader.activeSlotCount
    allocCounter := childHeader.allocCounter
    epochAnchorId
    previousEpochAnchorId :=
      if generation.bindsTwoEpochAnchors = false then epochAnchorId
      else if boundary then accumulator.epochAnchorId
      else accumulator.previousEpochAnchorId }

/-- Headers from genesis on, each at its height and linked to the one below. -/
structure HeaderChain (blockId : BlockHeader D → Digest) where
  headers : List (BlockHeader D)
  rooted : headers ≠ []
  heights : ∀ (index : Nat) (header : BlockHeader D), headers[index]? = some header →
    header.height = index
  linked : ∀ (index : Nat) (parent child : BlockHeader D), headers[index]? = some parent →
    headers[index + 1]? = some child → child.prevBlockHash = blockId parent
  bounded : headers.length ≤ 2 ^ 64

namespace HeaderChain

variable {ids : HeaderIds D} {blockId : BlockHeader D → Digest}

def headerAt (chain : HeaderChain blockId) (height : Nat) : Option (BlockHeader D) :=
  chain.headers[height]?

def idAt (chain : HeaderChain blockId) (height : Nat) : Option Digest :=
  (chain.headerAt height).map blockId

/-- The anchor for a child, folded over the headers accepted below it. -/
def foldedAnchorId (chain : HeaderChain blockId) (childHeight : Nat) : Option Digest := do
  let genesis ← chain.headerAt 0
  (chain.headers.take childHeight).tail.foldlM (fun anchorId header =>
    nextTxEpochAnchorId anchorId header.height (blockId header)) (blockId genesis)

/-- The accumulator at a height, advanced from genesis under the generations of the heights. -/
def accumulatorAt (chain : HeaderChain ids.blockId)
    (generations : Nat → HistoryStepPackGeneration) : Nat → Option (ChainAccumulator D)
  | 0 => (chain.headerAt 0).map (genesisAccumulator ids)
  | height + 1 => do
    let accumulator ← chain.accumulatorAt generations height
    let parent ← chain.headerAt height
    let child ← chain.headerAt (height + 1)
    (accumulator.advanceIn ids (generations (height + 1)) parent child).toOption

end HeaderChain

variable {height : Nat}

theorem checkedTxEpochHeightDecomposition_eq (small : height < 2 ^ 64) :
    checkedTxEpochHeightDecomposition height =
      some ⟨height / txEpochBlocks, height % txEpochBlocks⟩ := by
  have recomposed : height / 32 * 32 + height % 32 = height := Nat.div_add_mod' height 32
  have remainder : height % 32 < 32 := Nat.mod_lt _ (by decide)
  have scaled : height / 32 * 32 < 2 ^ 64 := by omega
  have narrow : height % 32 < 2 ^ 8 := by omega
  simp only [checkedTxEpochHeightDecomposition, txEpochBlocks, bind_eq_bind,
    bind_eq_some_iff, checkedAdd_eq_some, recomposed]
  exact ⟨(), if_pos scaled, height, ⟨small, rfl⟩, (),
    if_pos ⟨rfl, remainder⟩, (), if_pos narrow, rfl⟩

theorem nextTxEpochAnchorId_eq (small : height < 2 ^ 64) (start id : Digest) :
    nextTxEpochAnchorId start height id =
      some (if height ≠ 0 ∧ height % txEpochBlocks = 0 then id else start) := by
  simp [nextTxEpochAnchorId, checkedTxEpochHeightDecomposition_eq small,
    TxEpochHeightDecomposition.isBoundary]

theorem txEpochAnchorHeightForChild_succ (height : Nat) :
    txEpochAnchorHeightForChild (height + 1) =
      if height % txEpochBlocks = 0 then height else txEpochAnchorHeightForChild height := by
  by_cases boundary : height % txEpochBlocks = 0
  · rw [if_pos boundary]
    simp only [txEpochAnchorHeightForChild, txEpochBlocks] at boundary ⊢
    omega
  · rw [if_neg boundary]
    simp only [txEpochAnchorHeightForChild, txEpochBlocks] at boundary ⊢
    omega

/-- The older anchor height moves with it, to the one that was current. -/
theorem previousTxEpochAnchorHeightForChild_succ (height : Nat) :
    previousTxEpochAnchorHeightForChild (height + 1) =
      if height % txEpochBlocks = 0 then txEpochAnchorHeightForChild height
      else previousTxEpochAnchorHeightForChild height := by
  rw [previousTxEpochAnchorHeightForChild, previousTxEpochAnchorHeightForChild,
    txEpochAnchorHeightForChild_succ]
  by_cases boundary : height % txEpochBlocks = 0
  · rw [if_pos boundary, if_pos boundary]
    simp only [txEpochAnchorHeightForChild, txEpochBlocks] at boundary ⊢
    omega
  · rw [if_neg boundary, if_neg boundary]

variable {child : Nat}

theorem txEpochAnchorHeightForChild_lt (pos : 0 < child) :
    txEpochAnchorHeightForChild child < child := by
  simp only [txEpochAnchorHeightForChild, txEpochBlocks]
  omega

theorem txEpochAnchorIsAcceptableForChild_iff {anchorHeight : Nat} (pos : 0 < child)
    (boundary : anchorHeight % txEpochBlocks = 0) :
    txEpochAnchorIsAcceptableForChild child anchorHeight = true ↔
      anchorHeight + 1 ≤ child ∧ child ≤ anchorHeight + 64 := by
  simp only [txEpochAnchorIsAcceptableForChild, previousTxEpochAnchorHeightForChild,
    txEpochAnchorHeightForChild, txEpochBlocks, Bool.or_eq_true, beq_iff_eq] at boundary ⊢
  omega

variable {generation : HistoryStepPackGeneration}

theorem validateBlockEpochAnchorsIn_eq_ok {transactions : List TxBody}
    {accepted : AcceptedEpochAnchors} {parentId : Digest}
    (two : generation.bindsTwoEpochAnchors = true) :
    validateBlockEpochAnchorsIn transactions accepted parentId generation = .ok () ↔
      ∀ body ∈ transactions,
        if body.isCoinbase = true then body.epochAnchor = parentId
        else body.epochAnchor = accepted.current ∨ body.epochAnchor = accepted.previous := by
  rw [validateBlockEpochAnchorsIn, if_pos two, forM_eq_ok]
  apply forall₂_congr
  intro body _
  split <;> simp [AcceptedEpochAnchors.accepts, two]

theorem ChainAccumulator.advanceIn_eq_ok {ids : HeaderIds D} {accumulator : ChainAccumulator D}
    {parent child : BlockHeader D} (two : generation.bindsTwoEpochAnchors = true)
    (room : child.height < 2 ^ 64) (height : parent.height = accumulator.height)
    (next : child.height = parent.height + 1)
    (tip : ids.semanticHeaderId parent = accumulator.tipSemanticId)
    (link : child.prevBlockHash = ids.blockId parent) :
    ∃ advanced, accumulator.advanceIn ids generation parent child = .ok advanced ∧
      advanced.height = child.height ∧
      advanced.tipSemanticId = ids.semanticHeaderId child ∧
      advanced.epochAnchorId =
        (if parent.height % txEpochBlocks = 0 then ids.blockId parent
          else accumulator.epochAnchorId) ∧
      advanced.previousEpochAnchorId =
        if parent.height % txEpochBlocks = 0 then accumulator.epochAnchorId
        else accumulator.previousEpochAnchorId := by
  have small : accumulator.height < 2 ^ 64 := by omega
  have fits : accumulator.height + 1 < 2 ^ 64 := by omega
  have follows : child.height = accumulator.height + 1 := by omega
  simp only [ChainAccumulator.advanceIn, bind_eq_ok, require_eq_ok, okOr_eq_ok, pure_eq_ok,
    checkedAdd_eq_some, exists_const]
  refine ⟨_, ⟨height, tip, link, _, ⟨fits, rfl⟩, follows, _,
    checkedTxEpochHeightDecomposition_eq small, rfl⟩, rfl, rfl, ?_, ?_⟩
  · simp [TxEpochHeightDecomposition.isBoundary, height]
  · simp [TxEpochHeightDecomposition.isBoundary, height, two]

namespace HeaderChain

variable {ids : HeaderIds D} {blockId : BlockHeader D → Digest}

variable (chain : HeaderChain blockId)

variable {height : Nat}

theorem exists_headerAt (known : height < chain.headers.length) :
    ∃ header, chain.headerAt height = some header := by
  exact ⟨chain.headers[height], List.getElem?_eq_getElem known⟩

variable {header : BlockHeader D}

theorem height_of_headerAt {chain : HeaderChain blockId}
    (found : chain.headerAt height = some header) : header.height = height ∧ height < 2 ^ 64 := by
  have known := (List.getElem?_eq_some_iff.mp found).1
  exact ⟨chain.heights height header found, known.trans_le chain.bounded⟩

theorem foldedAnchorId_succ (pos : 0 < height) (found : chain.headerAt height = some header) :
    chain.foldedAnchorId (height + 1) =
      (chain.foldedAnchorId height).map fun anchorId =>
        if height % txEpochBlocks = 0 then blockId header else anchorId := by
  obtain ⟨rfl, small⟩ := height_of_headerAt found
  have known := (List.getElem?_eq_some_iff.mp found).1
  have split : (chain.headers.take (header.height + 1)).tail =
      (chain.headers.take header.height).tail ++ [header] := by
    rw [List.take_add_one, show chain.headers[header.height]? = some header from found,
      toList_some, List.tail_append_of_ne_nil]
    intro empty
    have := congrArg List.length empty
    rw [List.length_take, List.length_nil] at this
    omega
  simp only [foldedAnchorId, split, List.foldlM_append, List.foldlM_cons, List.foldlM_nil,
    nextTxEpochAnchorId_eq small]
  cases chain.headerAt 0 with
  | none => rfl
  | some genesis =>
    simp [map_eq_bind, pos.ne']

theorem foldedAnchorId_eq (pos : 0 < child) (below : child ≤ chain.headers.length) :
    chain.foldedAnchorId child = chain.idAt (txEpochAnchorHeightForChild child) := by
  induction child with
  | zero => omega
  | succ height ih =>
    obtain ⟨header, found⟩ := chain.exists_headerAt (show height < _ by omega)
    rcases Nat.eq_zero_or_pos height with rfl | above
    · have single : (chain.headers.take 1).tail = [] := by
        cases chain.headers <;> rfl
      simp [foldedAnchorId, single, idAt, found, txEpochAnchorHeightForChild]
    · rw [chain.foldedAnchorId_succ above found, ih above (by omega),
        txEpochAnchorHeightForChild_succ]
      obtain ⟨anchor, anchorFound⟩ := chain.exists_headerAt
        (show txEpochAnchorHeightForChild height < _ from
          (txEpochAnchorHeightForChild_lt above).trans (by omega))
      by_cases boundary : height % txEpochBlocks = 0
      · simp [idAt, boundary, found, anchorFound]
      · simp [idAt, boundary, anchorFound]

theorem exists_accumulatorAt (chain : HeaderChain ids.blockId)
    {generations : Nat → HistoryStepPackGeneration}
    (two : ∀ height, (generations height).bindsTwoEpochAnchors = true)
    (known : height < chain.headers.length) :
    ∃ accumulator, chain.accumulatorAt generations height = some accumulator ∧
      accumulator.height = height ∧
      (chain.headerAt height).map ids.semanticHeaderId = some accumulator.tipSemanticId ∧
      chain.idAt (txEpochAnchorHeightForChild height) = some accumulator.epochAnchorId ∧
      chain.idAt (previousTxEpochAnchorHeightForChild height) =
        some accumulator.previousEpochAnchorId := by
  induction height with
  | zero =>
    obtain ⟨genesis, found⟩ := chain.exists_headerAt known
    refine ⟨genesisAccumulator ids genesis, ?_, (height_of_headerAt found).1, ?_, ?_, ?_⟩
    · rw [accumulatorAt, found, map_some]
    · rw [found, map_some, genesisAccumulator]
    · simp [idAt, txEpochAnchorHeightForChild, found, genesisAccumulator]
    · simp [idAt, previousTxEpochAnchorHeightForChild, txEpochAnchorHeightForChild, found,
        genesisAccumulator]
  | succ height ih =>
    obtain ⟨accumulator, reached, stands, tip, current, previous⟩ := ih (by omega)
    obtain ⟨parent, parentFound⟩ := chain.exists_headerAt (show height < _ by omega)
    obtain ⟨child, childFound⟩ := chain.exists_headerAt known
    obtain ⟨parentHeight, -⟩ := height_of_headerAt parentFound
    obtain ⟨childHeight, room⟩ := height_of_headerAt childFound
    rw [parentFound, map_some, Option.some.injEq] at tip
    obtain ⟨advanced, moved, newHeight, newTip, newCurrent, newPrevious⟩ :=
      ChainAccumulator.advanceIn_eq_ok (two (height + 1)) (childHeight ▸ room)
        (parentHeight.trans stands.symm) (by omega) tip
        (chain.linked height parent child parentFound childFound)
    refine ⟨advanced, ?_, newHeight.trans childHeight, ?_, ?_, ?_⟩
    · simp [accumulatorAt, reached, parentFound, childFound, moved, Except.toOption]
    · rw [childFound, map_some, newTip]
    · rw [newCurrent, parentHeight, txEpochAnchorHeightForChild_succ]
      split
      · rw [idAt, parentFound, map_some]
      · exact current
    · rw [newPrevious, parentHeight, previousTxEpochAnchorHeightForChild_succ]
      split
      · exact current
      · exact previous

theorem idAt_eq_iff {chain : HeaderChain blockId} (distinct : (chain.headers.map blockId).Nodup)
    {left right : Nat} {leftId rightId : Digest} (atLeft : chain.idAt left = some leftId)
    (atRight : chain.idAt right = some rightId) : leftId = rightId ↔ left = right := by
  have leftEntry : (chain.headers.map blockId)[left]? = some leftId := by
    rw [List.getElem?_map]
    exact atLeft
  have rightEntry : (chain.headers.map blockId)[right]? = some rightId := by
    rw [List.getElem?_map]
    exact atRight
  constructor
  · rintro rfl
    obtain ⟨inside, value⟩ := List.getElem?_eq_some_iff.mp leftEntry
    obtain ⟨inside', value'⟩ := List.getElem?_eq_some_iff.mp rightEntry
    exact (distinct.getElem_inj_iff).mp (value.trans value'.symm)
  · rintro rfl
    exact Option.some.inj (atLeft.symm.trans atRight)

/-- For every child the folded anchor is the id of the block at the anchor height, and the older
anchor is the one an epoch below. A body bound to an epoch boundary passes the two-anchor rule
exactly in the 64 heights above it, if no two blocks share an id. -/
theorem epochAnchors_of_child (chain : HeaderChain ids.blockId) {child : Nat} (positive : 0 < child)
    (below : child ≤ chain.headers.length) :
    ∃ current previous,
      chain.idAt (txEpochAnchorHeightForChild child) = some current ∧
      chain.idAt (txEpochAnchorHeightForChild child - txEpochBlocks) = some previous ∧
      chain.foldedAnchorId child = some current ∧
      (txEpochBlocks < child → chain.foldedAnchorId (child - txEpochBlocks) = some previous) ∧
      resolveUserEpochAnchorId ids.blockId child chain.headerAt = some current ∧
      resolveAcceptedUserEpochAnchorIds ids.blockId child chain.headerAt =
        some ⟨current, previous⟩ ∧
      (∀ generations : Nat → HistoryStepPackGeneration,
        (∀ height, (generations height).bindsTwoEpochAnchors = true) →
        child < chain.headers.length →
        ∃ accumulator, chain.accumulatorAt generations child = some accumulator ∧
          accumulator.epochAnchorId = current ∧ accumulator.previousEpochAnchorId = previous) ∧
      ∀ (generation : HistoryStepPackGeneration) (boundary : Nat) (anchorId parentId : Digest)
        (transactions : List TxBody),
        generation.bindsTwoEpochAnchors = true → (chain.headers.map ids.blockId).Nodup →
        boundary % txEpochBlocks = 0 → chain.idAt boundary = some anchorId →
        (∀ body ∈ transactions,
          body.epochAnchor = if body.isCoinbase = true then parentId else anchorId) →
        (∃ body ∈ transactions, body.isCoinbase = false) →
        (validateBlockEpochAnchorsIn transactions ⟨current, previous⟩ parentId generation =
          .ok () ↔ boundary + 1 ≤ child ∧ child ≤ boundary + 64) := by
  have anchorBelow := txEpochAnchorHeightForChild_lt positive
  obtain ⟨anchor, anchorFound⟩ := chain.exists_headerAt (anchorBelow.trans_le below)
  obtain ⟨older, olderFound⟩ := chain.exists_headerAt
    (show txEpochAnchorHeightForChild child - txEpochBlocks < _ by omega)
  have current : chain.idAt (txEpochAnchorHeightForChild child) = some (ids.blockId anchor) := by
    rw [idAt, anchorFound, Option.map_some]
  have previous : chain.idAt (txEpochAnchorHeightForChild child - txEpochBlocks) =
      some (ids.blockId older) := by
    rw [idAt, olderFound, Option.map_some]
  refine ⟨_, _, current, previous, ?_, ?_, ?_, ?_, ?_, ?_⟩
  · rw [chain.foldedAnchorId_eq positive below, current]
  · intro late
    have earlier : txEpochAnchorHeightForChild (child - txEpochBlocks) =
        txEpochAnchorHeightForChild child - txEpochBlocks := by
      simp only [txEpochAnchorHeightForChild, txEpochBlocks] at late ⊢
      omega
    rw [chain.foldedAnchorId_eq (by omega) (by omega), earlier, previous]
  · rw [resolveUserEpochAnchorId, anchorFound, Option.map_some]
  · simp [resolveAcceptedUserEpochAnchorIds, previousTxEpochAnchorHeightForChild, anchorFound,
      olderFound]
  · intro generations two known
    obtain ⟨accumulator, reached, -, -, carried, remembered⟩ := chain.exists_accumulatorAt two known
    refine ⟨accumulator, reached, ?_, ?_⟩
    · exact Option.some.inj (carried.symm.trans current)
    · exact Option.some.inj (remembered.symm.trans previous)
  · intro generation boundary anchorId parentId transactions two distinct aligned atBoundary bound
      user
    rw [← txEpochAnchorIsAcceptableForChild_iff positive aligned, txEpochAnchorIsAcceptableForChild,
      Bool.or_eq_true, beq_iff_eq, beq_iff_eq, previousTxEpochAnchorHeightForChild,
      ← idAt_eq_iff distinct atBoundary current, ← idAt_eq_iff distinct atBoundary previous,
      validateBlockEpochAnchorsIn_eq_ok two]
    constructor
    · intro accepted
      obtain ⟨body, member, notCoinbase⟩ := user
      have here := accepted body member
      have binds := bound body member
      rw [if_neg (by simp [notCoinbase])] at here binds
      rwa [binds] at here
    · intro accepted body member
      have binds := bound body member
      split at binds
      case isTrue coinbase => rwa [if_pos coinbase]
      case isFalse coinbase => rwa [if_neg coinbase, binds]

/-- A header that tells its height only. -/
def numberedHeader (height : Nat) : BlockHeader Unit where
  prevBlockHash := BitVec.ofNat 256 (height - 1)
  stateRoot := ()
  txRoot := 0
  timestamp := 0
  height
  minerAddress := 0
  nonce := 0
  difficultyTarget := 0
  logSlots := 0
  activeSlotCount := 0
  allocCounter := 0

def numberedIds : HeaderIds Unit where
  blockId header := BitVec.ofNat 256 header.height
  semanticHeaderId header := BitVec.ofNat 256 header.height

theorem eq_numberedHeader {count index : Nat} {header : BlockHeader Unit}
    (found : ((List.range count).map numberedHeader)[index]? = some header) :
    header = numberedHeader index := by
  obtain ⟨inside, value⟩ := List.getElem?_eq_some_iff.mp found
  simpa using value.symm

def numberedChain (count : Nat) (positive : 0 < count) (bounded : count ≤ 2 ^ 64) :
    HeaderChain numberedIds.blockId where
  headers := (List.range count).map numberedHeader
  rooted := by simp [positive.ne']
  heights := by
    intro index header found
    rw [eq_numberedHeader found]
    rfl
  linked := by
    intro index parent child parentFound childFound
    rw [eq_numberedHeader parentFound, eq_numberedHeader childFound]
    rfl
  bounded := by simpa using bounded

def genesisBoundBody : TxBody where
  epochAnchor := 0
  fee := 0
  inputOwner := 0
  inputs := fun _ => TxInput.dummy
  outputs := fun _ => TxOutput.dummy
  validityBitmap := 0
  isCoinbase := false

theorem epochAnchors_of_numberedChain :
    let chain := numberedChain 65 (by decide) (by decide)
    (∃ pair, resolveAcceptedUserEpochAnchorIds numberedIds.blockId 64 chain.headerAt = some pair ∧
      chain.foldedAnchorId 64 = some pair.current ∧
      validateBlockEpochAnchorsIn [genesisBoundBody] pair 7 .v1_3 = .ok ()) ∧
    ∃ pair, resolveAcceptedUserEpochAnchorIds numberedIds.blockId 65 chain.headerAt = some pair ∧
      chain.foldedAnchorId 65 = some pair.current ∧
      validateBlockEpochAnchorsIn [genesisBoundBody] pair 7 .v1_3 ≠ .ok () := by
  intro chain
  have distinct : (chain.headers.map numberedIds.blockId).Nodup := by decide
  have genesis : chain.idAt 0 = some 0 := by decide
  have bound : ∀ body ∈ [genesisBoundBody],
      body.epochAnchor = if body.isCoinbase = true then 7 else 0 := by
    simp [genesisBoundBody]
  have user : ∃ body ∈ [genesisBoundBody], body.isCoinbase = false :=
    ⟨_, List.mem_singleton_self _, rfl⟩
  obtain ⟨current, previous, -, -, folded, -, -, resolved, -, window⟩ :=
    chain.epochAnchors_of_child (show 0 < 64 by decide) (show 64 ≤ 65 by decide)
  obtain ⟨current', previous', -, -, folded', -, -, resolved', -, window'⟩ :=
    chain.epochAnchors_of_child (show 0 < 65 by decide) (show 65 ≤ 65 by decide)
  refine ⟨⟨_, resolved, folded, ?_⟩, ⟨_, resolved', folded', ?_⟩⟩
  · exact (window .v1_3 0 0 7 _ rfl distinct rfl genesis bound user).mpr (by decide)
  · rw [ne_eq, window' .v1_3 0 0 7 _ rfl distinct rfl genesis bound user]
    decide

end HeaderChain

end Jetsam
