import Jetsam.Block.ActionSurface
import Jetsam.Node.Acceptance

/-!
# Two execution paths

`apply_block` runs the records one after another; the exact path derives all slot updates from the
parent and installs them in one batch. Both accept exactly the transitions of the ledger and leave
the same state.
-/

namespace Jetsam

open Control SegmentedFriState List

inductive ExactPathError where
  | surface (error : StateDeltaError)
  | stateCounterOverflow
  | activeSlotCountMismatch
  | allocCounterMismatch
  | transition (error : ApplyExactTransitionError)
  deriving DecidableEq

/-- The exact path: the surface of the block, its counters against the header, and the batch. -/
def ChainState.applyExactBlock {D : Type} [DecidableEq D] (hashes : ChainHashes D)
    (chain : ChainState D) (block : Block D) : Except ExactPathError (ChainState D × D) := do
  let surface ← mapError .surface (buildExactActionSurfaceForTransactionsAtLogSlots chain.state
    block.header.logSlots block.transactions chain.allocCounter block.header.height)
  let (active, alloc) ← okOr (surface.counters chain) .stateCounterOverflow
  require (active = block.header.activeSlotCount) .activeSlotCountMismatch
  require (alloc = block.header.allocCounter) .allocCounterMismatch
  mapError .transition (chain.applyVerifiedExactTransition hashes.state block.header.logSlots
    block.header.stateRoot surface.updates active alloc)

variable {D : Type}

/-- The block carries the records of the layout, and its checks that read no slot pass. -/
structure BlockLayout.Describes (hashes : ChainHashes D) (block : Block D) (layout : BlockLayout) :
    Prop where
  records : block.transactions = layout.records
  accepted : layout.Accepted
  canonical : ∀ body ∈ layout.system, validateBodySemanticsNoHash body = .ok ()
  txRoot : tryComputeTxRoot hashes.tx hashes.tree block.transactions = .ok block.header.txRoot

/-- The slot transition of a block on a ledger, read off the state before it. -/
structure Ledger.Admits (hasher : StateHasher D) (ledger : Ledger) (block : Block D) : Prop where
  grows : ledger.logSlots ≤ block.header.logSlots
  distinct : (block.transactions.flatMap TxBody.touched).Nodup
  inRange : ∀ slot ∈ block.transactions.flatMap TxBody.touched,
    slot.toNat < 2 ^ block.header.logSlots
  hits : ∀ body ∈ block.transactions, Ledger.Matches ledger.slots body
  untagged : ledger.allocCounter + groupLiveOutputs block.transactions < 2 ^ 63
  stateRoot : block.header.stateRoot =
    hasher.slotRoot block.header.logSlots (ledger.afterBlock block).slots
  activeSlotCount : block.header.activeSlotCount = (ledger.afterBlock block).activeSlotCount
  allocCounter : block.header.allocCounter = (ledger.afterBlock block).allocCounter

namespace BlockLayout.Describes

variable {hashes : ChainHashes D} {block : Block D} {layout : BlockLayout}

section

variable (describes : layout.Describes hashes block)

include describes

theorem transactions_eq :
    block.transactions = layout.coinbase :: (layout.payout.toList ++ layout.pages) :=
  describes.records

theorem groupLiveOutputs_pos :
    0 < groupLiveOutputs block.transactions := by
  rw [describes.transactions_eq, groupLiveOutputs, map_cons, sum_cons, TxBody.liveOutputCount_eq,
    TxBody.liveOutputs_primary describes.accepted.primary, length_singleton]
  omega

theorem coinbase_touched :
    (layout.coinbase.outputs 0).slotIndex ∈ block.transactions.flatMap TxBody.touched := by
  rw [describes.transactions_eq, flatMap_cons]
  refine mem_append_left _ (mem_append_right _ ?_)
  rw [TxBody.outputSlots, TxBody.liveOutputs_primary describes.accepted.primary]
  exact mem_singleton.mpr rfl

/-- A block of 256 records has far fewer than 2 ^ 32 actions. -/
theorem room :
    groupLiveInputs block.transactions < u32Bound ∧
      groupLiveOutputs block.transactions < u32Bound := by
  have length : block.transactions.length ≤ 256 :=
    describes.records ▸ describes.accepted.length_records
  have inputs := groupLiveInputs_le block.transactions
  have outputs := groupLiveOutputs_le block.transactions
  simp only [txInputs, txOutputs] at inputs outputs
  rw [u32Bound]
  omega

end

end BlockLayout.Describes

namespace ChainState

variable {hashes : ChainHashes D} {chain after : ChainState D} {ledger : Ledger}
  {block : Block D} {layout : BlockLayout}

/-- A state between blocks: a current root, and a counter that counts the occupied slots. -/
structure Settled (hashes : ChainHashes D) (chain : ChainState D) (ledger : Ledger) : Prop where
  represents : chain.Represents hashes.state ledger
  rooted : chain.Rooted hashes.state ledger.slots
  counted : ledger.Counted

/-- The segments that a block touches, in the geometry after it, are in memory or empty. -/
def ResidentFor (chain : ChainState D) (block : Block D) : Prop :=
  ∀ slot ∈ block.transactions.flatMap TxBody.touched,
    slot.toNat / 2 ^ min block.header.logSlots logSegmentSize ∉ chain.state.evicted

/-- A domain of one segment has nothing evicted when a block touches it. -/
theorem ResidentFor.small (resident : chain.ResidentFor block) {slots : Nat → SlotValue}
    (holds : chain.state.Holds slots) (describes : layout.Describes hashes block)
    (grows : chain.state.logSlots ≤ block.header.logSlots)
    (inRange : ∀ slot ∈ block.transactions.flatMap TxBody.touched,
      slot.toNat < 2 ^ block.header.logSlots)
    (small : block.header.logSlots ≤ logSegmentSize) : chain.state.evicted = [] := by
  refine eq_nil_iff_forall_not_mem.mpr fun segId shelved => ?_
  have single : chain.state.numSegments = 1 := single_segment (by omega)
  have inside := holds.evicted_lt shelved
  obtain rfl : segId = 0 := by omega
  have coinbase := resident _ describes.coinbase_touched
  rw [min_eq_left small, Nat.div_eq_of_lt (inRange _ describes.coinbase_touched)] at coinbase
  exact coinbase shelved

theorem ResidentFor.before (resident : chain.ResidentFor block)
    (represents : chain.Represents hashes.state ledger) (describes : layout.Describes hashes block)
    (grows : ledger.logSlots ≤ block.header.logSlots)
    (shallow : block.header.logSlots ≤ ledger.logSlots + 1)
    (inRange : ∀ slot ∈ block.transactions.flatMap TxBody.touched,
      slot.toNat < 2 ^ block.header.logSlots) :
    chain.Resident (block.transactions.flatMap TxBody.touched) := fun slot touched =>
  notEvicted_before (by rw [represents.logSlots]; exact shallow)
    (resident.small represents.coherent.holds describes (by rwa [represents.logSlots]) inRange)
    (resident slot touched)

section Sequential

variable [DecidableEq D]

theorem Represents.expandTimes_isOk (represents : chain.Represents hashes.state ledger)
    {levels : Nat} (small : ledger.logSlots + 1 ≤ logSegmentSize → chain.state.evicted = []) :
    ∃ expanded, chain.expandTimes hashes.state levels = .ok expanded := by
  induction levels generalizing chain ledger with
  | zero => exact ⟨chain, rfl⟩
  | succ levels ih =>
    obtain ⟨state, expanded⟩ := @expand_isOk chain.state (by rw [represents.logSlots]; exact small)
    obtain ⟨grown, step⟩ : ∃ grown, chain.expandOne hashes.state = .ok grown :=
      ⟨_, bind_eq_ok.mpr ⟨state, expanded, rfl⟩⟩
    obtain ⟨next, evicted, -⟩ := represents.expandOne step
    refine bind_isOk step (ih next fun few => ?_)
    rw [evicted]
    exact small (by simp only [Ledger.atDepth] at few; omega)

theorem Settled.applyBlock_isOk_iff (settled : chain.Settled hashes ledger)
    (describes : layout.Describes hashes block)
    (spends : ∀ body ∈ block.transactions, body.SpendsOccupied)
    (shallow : block.header.logSlots ≤ ledger.logSlots + 1) (resident : chain.ResidentFor block) :
    (∃ result, chain.applyBlock hashes block = .ok result) ↔
      ledger.Admits hashes.state block := by
  have represents := settled.represents
  constructor
  · rintro ⟨⟨after, root⟩, done⟩
    obtain ⟨layout, applied⟩ := represents.applyBlock done
    obtain ⟨inRange, hits, -⟩ := (Ledger.recordsApply_iff applied.distinct).mp applied.applies
    have depth : after.state.logSlots = block.header.logSlots := by
      rw [applied.represents.logSlots, Ledger.afterBlock, Ledger.applyRecords_logSlots,
        Ledger.atDepth]
    refine ⟨applied.grows, applied.distinct, inRange, hits, ?_, ?_, applied.activeSlotCount,
      applied.allocCounter⟩
    · have first := applied.applies
      rw [describes.transactions_eq] at first
      have untagged := Ledger.allocCounter_applyRecords_lt
        (lt_of_le_of_lt (Nat.le_add_right _ _) first.1.allocBound) applied.applies
      rwa [Ledger.applyRecords_allocCounter] at untagged
    · rw [applied.stateRoot, applied.rooted, depth]
  · intro admits
    have applies := @Ledger.Counted.recordsApply (ledger.atDepth block.header.logSlots)
      block.header.height block.transactions settled.counted spends admits.distinct admits.inRange
      admits.hits admits.untagged
    have window : ledger.logSlots + (block.header.logSlots - ledger.logSlots) =
        block.header.logSlots := Nat.add_sub_cancel' admits.grows
    obtain ⟨expanded, expansion⟩ : ∃ expanded, chain.expandTimes hashes.state
        (block.header.logSlots - ledger.logSlots) = .ok expanded := by
      rcases Nat.lt_or_ge ledger.logSlots block.header.logSlots with deeper | same
      · refine represents.expandTimes_isOk fun few => ?_
        exact resident.small represents.coherent.holds describes
          (by rw [represents.logSlots]; exact admits.grows) admits.inRange (by omega)
      · rw [Nat.sub_eq_zero_of_le same]
        exact ⟨chain, rfl⟩
    obtain ⟨expandedRep, evicted, -⟩ := represents.expandTimes expansion
    refine represents.applyBlock_isOk describes.records describes.accepted describes.canonical
      admits.distinct admits.grows expansion applies (fun slot touched => ?_) admits.stateRoot
      admits.activeSlotCount admits.allocCounter describes.txRoot
    rw [evicted, segIdOf, segmentSlotCount, effectiveLogSegmentSize, expandedRep.logSlots]
    simp only [Ledger.atDepth, window]
    exact resident slot touched

end Sequential

theorem afterBlock_slots (state : SegmentedFriState) :
    (ledger.afterBlock block).slots = overwrite ledger.slots
      (exactSurface state block.header.height ledger.allocCounter block.transactions).updates := by
  rw [updates_exactSurface, overwrite_orderedMap, Ledger.afterBlock, Ledger.applyRecords_slots]
  rfl

theorem afterBlock_activeSlotCount
    (applies : (ledger.atDepth block.header.logSlots).RecordsApply block.header.height
      block.transactions)
    (distinct : (block.transactions.flatMap TxBody.touched).Nodup)
    (covered : groupLiveInputs block.transactions ≤ ledger.activeSlotCount) :
    (ledger.afterBlock block).activeSlotCount = ledger.activeSlotCount -
      groupLiveInputs block.transactions + groupLiveOutputs block.transactions := by
  have moved := @Ledger.applyRecords_activeSlotCount block.header.height _ _
    ((Ledger.recordsApply_iff distinct).mp applies).2.2
  change _ = ledger.activeSlotCount + _ at moved
  rw [Ledger.afterBlock]
  omega

theorem afterBlock_allocCounter : (ledger.afterBlock block).allocCounter =
    ledger.allocCounter + groupLiveOutputs block.transactions := by
  rw [Ledger.afterBlock, Ledger.applyRecords_allocCounter]
  rfl

theorem ResidentFor.matches_parentSlot (resident : chain.ResidentFor block)
    (represents : chain.Represents hashes.state ledger) (describes : layout.Describes hashes block)
    (grows : ledger.logSlots ≤ block.header.logSlots)
    (shallow : block.header.logSlots ≤ ledger.logSlots + 1)
    (inRange : ∀ slot ∈ block.transactions.flatMap TxBody.touched,
      slot.toNat < 2 ^ block.header.logSlots) {body : TxBody} (mem : body ∈ block.transactions) :
    Ledger.Matches (parentSlot chain.state) body ↔ Ledger.Matches ledger.slots body := by
  refine Ledger.matches_congr fun slot touched => ?_
  exact previous_eq represents.coherent.holds fun _ =>
    resident.before represents describes grows shallow inRange slot
      (mem_flatMap.mpr ⟨body, mem, touched⟩)

section Exact

variable [DecidableEq D]

/-- What the exact path has checked, and the batch it installs. -/
theorem applyExactBlock_eq_ok (represents : chain.Represents hashes.state ledger)
    (describes : layout.Describes hashes block) {result : ChainState D × D} :
    chain.applyExactBlock hashes block = .ok result ↔
      ∃ surface, surface = exactSurface chain.state block.header.height ledger.allocCounter
          block.transactions ∧
        ((block.header.logSlots = ledger.logSlots ∨
            block.header.logSlots = ledger.logSlots + 1) ∧ block.header.logSlots < 64) ∧
        (∀ slot ∈ block.transactions.flatMap TxBody.touched,
          slot.toNat < 2 ^ block.header.logSlots) ∧
        (∀ body ∈ block.transactions, Ledger.Matches (parentSlot chain.state) body) ∧
        (block.transactions.flatMap TxBody.touched).Nodup ∧
        ledger.allocCounter + groupLiveOutputs block.transactions < 2 ^ 63 ∧
        surface.counters chain =
          some (block.header.activeSlotCount, block.header.allocCounter) ∧
        chain.applyVerifiedExactTransition hashes.state block.header.logSlots
          block.header.stateRoot surface.updates block.header.activeSlotCount
          block.header.allocCounter = .ok result := by
  obtain ⟨inputRoom, outputRoom⟩ := describes.room
  have pos := describes.groupLiveOutputs_pos
  simp only [applyExactBlock, bind_eq_ok, mapError_eq_ok, okOr_eq_ok, require_eq_ok, exists_const,
    Prod.exists, buildExactActionSurface_eq_ok inputRoom outputRoom, represents.logSlots,
    represents.alloc]
  constructor
  · rintro ⟨surface, ⟨window, deep, inRange, hits, distinct, fits, rfl⟩, active, alloc, counters,
      rfl, rfl, done⟩
    exact ⟨_, rfl, ⟨window, deep⟩, inRange, hits, distinct, fits pos, counters, done⟩
  · rintro ⟨surface, rfl, ⟨window, deep⟩, inRange, hits, distinct, untagged, counters, done⟩
    exact ⟨_, ⟨window, deep, inRange, hits, distinct, fun _ => untagged, rfl⟩, _, _, counters, rfl,
      rfl, done⟩

theorem Settled.applyExactBlock (settled : chain.Settled hashes ledger)
    (describes : layout.Describes hashes block)
    (spends : ∀ body ∈ block.transactions, body.SpendsOccupied)
    (resident : chain.ResidentFor block) {root : D}
    (done : chain.applyExactBlock hashes block = .ok (after, root)) :
    ledger.Admits hashes.state block ∧
      after.Represents hashes.state (ledger.afterBlock block) ∧
      after.utxoRoot = block.header.stateRoot ∧ after.state.evicted = chain.state.evicted := by
  have represents := settled.represents
  obtain ⟨surface, rfl, ⟨window, -⟩, inRange, hits, distinct, untagged, counters, done⟩ :=
    (applyExactBlock_eq_ok represents describes).mp done
  have installed := represents.applyVerifiedExactTransition settled.rooted
    (fun update mem => by
      obtain ⟨slot, -, same⟩ := mem_updates_exactSurface mem
      exact same ▸ toNat_lt_slotIndexBound slot) done
  obtain ⟨covered, -, -, active, alloc⟩ := counters_exactSurface.mp counters
  rw [represents.active] at covered active
  rw [represents.alloc] at alloc
  have grows := installed.window.1
  have matching := fun body mem => (resident.matches_parentSlot represents describes grows
    installed.window.2 inRange mem).mp (hits body mem)
  have applies := @Ledger.Counted.recordsApply (ledger.atDepth block.header.logSlots)
    block.header.height block.transactions settled.counted spends distinct inRange matching untagged
  have activeAfter := afterBlock_activeSlotCount applies distinct covered
  have allocAfter := @afterBlock_allocCounter D ledger block
  have slotsAfter := @afterBlock_slots D ledger block chain.state
  have depthAfter : (ledger.afterBlock block).logSlots = block.header.logSlots := by
    rw [Ledger.afterBlock, Ledger.applyRecords_logSlots, Ledger.atDepth]
  have same : ledger.afterBlock block = ⟨block.header.logSlots, overwrite ledger.slots
      (exactSurface chain.state block.header.height ledger.allocCounter block.transactions).updates,
      block.header.activeSlotCount, block.header.allocCounter⟩ := by
    rw [← slotsAfter, ← active, ← alloc, ← activeAfter, ← allocAfter, ← depthAfter]
  refine ⟨⟨grows, distinct, inRange, matching, untagged, ?_, ?_, ?_⟩, ?_, installed.rooted,
    installed.evicted⟩
  · rw [slotsAfter, installed.root]
  · rw [activeAfter, active]
  · rw [allocAfter, alloc]
  · rw [same]
    exact installed.represents

theorem Settled.applyExactBlock_isOk_iff (settled : chain.Settled hashes ledger)
    (describes : layout.Describes hashes block)
    (spends : ∀ body ∈ block.transactions, body.SpendsOccupied)
    (shallow : block.header.logSlots ≤ ledger.logSlots + 1)
    (depth : block.header.logSlots ≤ logSlotsMax) (resident : chain.ResidentFor block) :
    (∃ result, chain.applyExactBlock hashes block = .ok result) ↔
      ledger.Admits hashes.state block := by
  have represents := settled.represents
  constructor
  · rintro ⟨⟨after, root⟩, done⟩
    exact (settled.applyExactBlock describes spends resident done).1
  · intro admits
    have covered := settled.counted.covered spends admits.distinct admits.hits
    have applies := @Ledger.Counted.recordsApply (ledger.atDepth block.header.logSlots)
      block.header.height block.transactions settled.counted spends admits.distinct admits.inRange
      admits.hits admits.untagged
    have few := settled.counted.le_slotIndexBound
    have outputs := describes.room.2
    rw [slotIndexBound_eq] at few
    rw [u32Bound] at outputs
    set surface := exactSurface chain.state block.header.height ledger.allocCounter
      block.transactions with surfaceDef
    have counters : surface.counters chain =
        some (block.header.activeSlotCount, block.header.allocCounter) := by
      refine counters_exactSurface.mpr ⟨?_, ?_, ?_, ?_, ?_⟩
      · rwa [represents.active]
      · rw [represents.active, u64Bound]
        omega
      · rw [represents.alloc, u64Bound]
        have := admits.untagged
        omega
      · rw [represents.active, admits.activeSlotCount,
          afterBlock_activeSlotCount applies admits.distinct covered]
      · rw [represents.alloc, admits.allocCounter, afterBlock_allocCounter]
    have updated : ∀ update ∈ surface.updates,
        ∃ slot ∈ block.transactions.flatMap TxBody.touched, slot.toNat = update.1 :=
      fun update mem => mem_updates_exactSurface mem
    obtain ⟨result, done⟩ := represents.applyVerifiedExactTransition_isOk settled.rooted
      block.header.activeSlotCount block.header.allocCounter
      (fun update mem => by
        obtain ⟨slot, -, same⟩ := updated update mem
        exact same ▸ toNat_lt_slotIndexBound slot)
      ⟨admits.grows, shallow⟩ depth
      (resident.small represents.coherent.holds describes
        (by rw [represents.logSlots]; exact admits.grows) admits.inRange)
      (fun update mem => by
        obtain ⟨slot, touched, same⟩ := updated update mem
        exact same ▸ admits.inRange slot touched)
      (fun update mem => by
        obtain ⟨slot, touched, same⟩ := updated update mem
        exact same ▸ resident slot touched)
      (admits.stateRoot.trans (by rw [afterBlock_slots chain.state]))
    have window : block.header.logSlots = ledger.logSlots ∨
        block.header.logSlots = ledger.logSlots + 1 := by
      have := admits.grows
      omega
    have deep : block.header.logSlots < 64 := depth.trans_lt (by decide)
    exact ⟨result, (applyExactBlock_eq_ok represents describes).mpr ⟨surface, rfl, ⟨window, deep⟩,
      admits.inRange, fun body mem => (resident.matches_parentSlot represents describes
        admits.grows shallow admits.inRange mem).mpr (admits.hits body mem),
      admits.distinct, admits.untagged, counters, done⟩⟩

/-- For a block that grows the domain by at most one level and spends occupied slots of resident
segments, the two paths decide the same and leave the same state. -/
theorem Settled.paths_agree (settled : chain.Settled hashes ledger)
    (describes : layout.Describes hashes block)
    (spends : ∀ body ∈ block.transactions, body.SpendsOccupied)
    (shallow : block.header.logSlots ≤ ledger.logSlots + 1)
    (depth : block.header.logSlots ≤ logSlotsMax) (resident : chain.ResidentFor block) :
    ((∃ result, chain.applyBlock hashes block = .ok result) ↔
        ∃ result, chain.applyExactBlock hashes block = .ok result) ∧
      ∀ sequential exact root root', chain.applyBlock hashes block = .ok (sequential, root) →
        chain.applyExactBlock hashes block = .ok (exact, root') → sequential.Agrees exact := by
  constructor
  · rw [settled.applyBlock_isOk_iff describes spends shallow resident,
      settled.applyExactBlock_isOk_iff describes spends shallow depth resident]
  · intro sequential exact root root' applied installed
    obtain ⟨_, first⟩ := settled.represents.applyBlock applied
    obtain ⟨-, second, utxoRoot, evicted⟩ :=
      settled.applyExactBlock describes spends resident installed
    exact first.represents.agrees second (first.evicted.trans evicted.symm)
      (first.stateRoot.symm.trans utxoRoot.symm)

end Exact

end ChainState

section Sample

theorem settled_genesis (hashes : ChainHashes D) :
    (NodeState.genesis hashes.state).chain.Settled hashes NodeState.genesisLedger where
  represents := (NodeState.sound_genesis hashes).represents
  rooted := (NodeState.sound_genesis hashes).rooted
  counted := slotSum_empty rfl

/-- A first block that mints into one slot, in a domain of the given depth. -/
def mintBlock (logSlots : Nat) (slot : BitVec 32) : Block SymbolicDigest :=
  let block := sampleBlock (genesisHeader symbolicHasher) NodeState.genesisLedger (mintLayout slot)
  { block with
    header := { block.header with
      logSlots
      stateRoot := symbolicHasher.slotRoot logSlots
        (NodeState.genesisLedger.applyRecords 1 (mintLayout slot).records).slots } }

theorem describes_mintBlock (logSlots : Nat) (slot : BitVec 32) :
    (mintLayout slot).Describes sampleHashes (mintBlock logSlots slot) where
  records := rfl
  accepted := accepted_mintLayout slot
  canonical := (systemRecordsValid_primaryCoinbase 0 slot 45000000 0 []).canonical
  txRoot := (accepted_mintLayout slot).tryComputeTxRoot _ _

theorem admits_mintBlock {logSlots : Nat} {slot : BitVec 32} (deep : stateLogSlots ≤ logSlots)
    (inRange : slot.toNat < 2 ^ logSlots) :
    NodeState.genesisLedger.Admits symbolicHasher (mintBlock logSlots slot) := by
  have distinct : ((mintLayout slot).records.flatMap TxBody.touched).Nodup := by
    rw [touched_mintLayout]
    exact nodup_singleton slot
  have applies := (Ledger.recordsApply_iff distinct).mp (applies_mintLayout inRange)
  have outputs : groupLiveOutputs (mintLayout slot).records = 1 := by
    change (TxBody.primaryCoinbase 0 slot 45000000 0).liveOutputCount + 0 = 1
    rw [TxBody.liveOutputCount_eq, TxBody.liveOutputs_primaryCoinbase, length_singleton]
  exact {
    grows := deep
    distinct
    inRange := applies.1
    hits := applies.2.1
    untagged := show 0 + groupLiveOutputs (mintLayout slot).records < 2 ^ 63 by
      rw [outputs]
      norm_num
    stateRoot := rfl
    activeSlotCount := rfl
    allocCounter := rfl }

theorem residentFor_genesis (block : Block D) (hashes : ChainHashes D) :
    (NodeState.genesis hashes.state).chain.ResidentFor block :=
  fun _ _ => not_mem_nil

theorem paths_agree_mintBlock : ∃ sequential exact root root',
    (NodeState.genesis symbolicHasher).chain.applyBlock sampleHashes (mintBlock 25 (2 ^ 24)) =
        .ok (sequential, root) ∧
      (NodeState.genesis symbolicHasher).chain.applyExactBlock sampleHashes
        (mintBlock 25 (2 ^ 24)) = .ok (exact, root') ∧ sequential.Agrees exact := by
  have settled := settled_genesis sampleHashes
  have resident := residentFor_genesis (mintBlock 25 (2 ^ 24)) sampleHashes
  have describes := describes_mintBlock 25 (2 ^ 24)
  have spends := spendsOccupied_mintLayout (2 ^ 24)
  obtain ⟨same, agree⟩ := ChainState.Settled.paths_agree settled describes spends
    (show 25 ≤ 25 from le_rfl) (show 25 ≤ 32 by norm_num) resident
  obtain ⟨⟨sequential, root⟩, applied⟩ := (settled.applyBlock_isOk_iff describes spends
    (show 25 ≤ 25 from le_rfl) resident).mpr
      (admits_mintBlock (show 24 ≤ 25 by norm_num) (by decide))
  obtain ⟨⟨exact, root'⟩, installed⟩ := same.mp ⟨_, applied⟩
  exact ⟨sequential, exact, root, root', applied, installed,
    agree sequential exact root root' applied installed⟩

theorem applyBlock_mintBlock {logSlots : Nat} {slot : BitVec 32} (deep : stateLogSlots ≤ logSlots)
    (inRange : slot.toNat < 2 ^ logSlots) :
    ∃ result, (NodeState.genesis symbolicHasher).chain.applyBlock sampleHashes
      (mintBlock logSlots slot) = .ok result := by
  have represents := (settled_genesis sampleHashes).represents
  have describes := describes_mintBlock logSlots slot
  have admits := admits_mintBlock deep inRange
  obtain ⟨expanded, expansion⟩ := @ChainState.Represents.expandTimes_isOk _ _ _ _ _ represents
    (logSlots - stateLogSlots) fun _ => rfl
  obtain ⟨-, evicted, -⟩ := represents.expandTimes expansion
  refine represents.applyBlock_isOk describes.records describes.accepted describes.canonical
    admits.distinct admits.grows expansion (applies_mintLayout inRange) (fun slot _ => ?_)
    admits.stateRoot admits.activeSlotCount admits.allocCounter describes.txRoot
  rw [evicted]
  exact not_mem_nil

theorem two_levels_split :
    (NodeState.genesis symbolicHasher).chain.ResidentFor (mintBlock 26 0) ∧
      (∃ result, (NodeState.genesis symbolicHasher).chain.applyBlock sampleHashes
        (mintBlock 26 0) = .ok result) ∧
      (NodeState.genesis symbolicHasher).chain.applyExactBlock sampleHashes (mintBlock 26 0) =
        .error (.surface .invalidSlotDomain) :=
  ⟨residentFor_genesis _ sampleHashes,
    applyBlock_mintBlock (show 24 ≤ 26 by norm_num) (show 0 < 2 ^ 26 by norm_num), rfl⟩

end Sample

end Jetsam
