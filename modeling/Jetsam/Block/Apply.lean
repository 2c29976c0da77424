import Jetsam.Block.Body

/-!
# Applying a block

`apply_block` checks the record layout, grows the slot domain to the header's depth, applies the
records in order and compares the root and the counters with the header.
-/

namespace Jetsam

open Control SegmentedFriState List

/-- Refusals of a block; `expansionPanicked` is the assertion behind `expand_one`. -/
inductive BlockApplyError where
  | tx (error : ApplyError)
  | tooManyTransactions
  | genesisHasTransactions
  | invalidTxBody
  | invalidPagedSpend
  | slotConflict
  | headerStateRootMismatch
  | headerTxRootMismatch
  | headerActiveSlotCountMismatch
  | headerAllocCounterMismatch
  | headerLogSlotsMismatch
  | coinbaseHasInputs
  | expansionPanicked (error : StateResizeError)
  deriving DecidableEq

structure ChainHashes (D : Type) where
  state : StateHasher D
  tx : TxHasher
  tree : TxTreeHasher
  blockId : BlockHeader D → Digest
  commitment : ClientObject → Digest

namespace ChainState

variable {D : Type} [DecidableEq D]

def expandTimes (hasher : StateHasher D) :
    Nat → ChainState D → Except StateResizeError (ChainState D)
  | 0, chain => .ok chain
  | levels + 1, chain => do
    let grown ← chain.expandOne hasher
    expandTimes hasher levels grown

/-- Apply one record; system records have to be canonical bodies. -/
def applyRecord (height : Nat) (system : Bool) (chain : ChainState D) (body : TxBody) :
    Except BlockApplyError (ChainState D) := do
  mapError (fun _ => .invalidTxBody)
    (if system then validateBodySemanticsNoHash body else .ok ())
  mapError .tx (chain.applyTxCheckedDeferredRoot body (some height))

def applyRecords (height userStartIndex : Nat) (chain : ChainState D) (records : List TxBody) :
    Except BlockApplyError (ChainState D) := do
  let minted ← (records.take userStartIndex).foldlM (applyRecord height true) chain
  (records.drop userStartIndex).foldlM (applyRecord height false) minted

/-- Apply a block; on success the new state and its root. -/
def applyBlock (hashes : ChainHashes D) (chain : ChainState D) (block : Block D) :
    Except BlockApplyError (ChainState D × D) := do
  require (block.transactions.length ≤ blockMaxTxs) .tooManyTransactions
  let stream ← mapError (fun _ => .invalidPagedSpend)
    (validateBlockPageStream hashes.tx block.transactions)
  validateBlockSlotConflicts .slotConflict block.transactions
  require (∀ system ∈ block.transactions.take stream.userStartIndex, system.liveInputCount = 0)
    .coinbaseHasInputs
  let expanded ← mapError .expansionPanicked
    (expandTimes hashes.state (block.header.logSlots - chain.state.logSlots) chain)
  let applied ← expanded.applyRecords block.header.height stream.userStartIndex block.transactions
  let (rooted, root) ← mapError (fun _ => .tx .exactStateUnavailable)
    (applied.tryStateRoot hashes.state)
  require (block.header.stateRoot = root) .headerStateRootMismatch
  require (block.header.activeSlotCount = rooted.activeSlotCount) .headerActiveSlotCountMismatch
  require (block.header.allocCounter = rooted.allocCounter) .headerAllocCounterMismatch
  require (block.header.logSlots = rooted.state.logSlots) .headerLogSlotsMismatch
  let txRoot ← mapError (fun _ => .invalidPagedSpend)
    (tryComputeTxRoot hashes.tx hashes.tree block.transactions)
  require (block.header.txRoot = txRoot) .headerTxRootMismatch
  pure (rooted, rooted.utxoRoot)

end ChainState

namespace Ledger

def applyRecords (height : Nat) (ledger : Ledger) (records : List TxBody) : Ledger :=
  records.foldl (fun ledger body => ledger.applyTx body height) ledger

/-- The ledger after a block: the domain at the header's depth, then the records. -/
def afterBlock {D : Type} (ledger : Ledger) (block : Block D) : Ledger :=
  (ledger.atDepth block.header.logSlots).applyRecords block.header.height block.transactions

/-- Each record applies to the ledger the earlier ones leave. -/
def RecordsApply (height : Nat) : Ledger → List TxBody → Prop
  | _, [] => True
  | ledger, body :: rest =>
    ledger.TxApplies body ∧ RecordsApply height (ledger.applyTx body height) rest

end Ledger

/-- Slot updates of a run of records, the allocator running through them. -/
def recordDeltas (height : Nat) : Nat → List TxBody → List (Nat × SlotValue)
  | _, [] => []
  | cursor, body :: rest =>
    body.deltas height cursor ++ recordDeltas height (cursor + body.liveOutputCount) rest

def CountersApply : Nat → Nat → List TxBody → Prop
  | _, _, [] => True
  | active, alloc, body :: rest =>
    body.liveInputCount ≤ active ∧
      active - body.liveInputCount + body.liveOutputCount < u64Bound ∧
      alloc + body.liveOutputCount < 2 ^ 63 ∧
      CountersApply (active - body.liveInputCount + body.liveOutputCount)
        (alloc + body.liveOutputCount) rest

theorem keys_recordDeltas (height cursor : Nat) (records : List TxBody) :
    (recordDeltas height cursor records).map Prod.fst =
      (records.flatMap TxBody.touched).map BitVec.toNat := by
  induction records generalizing cursor with
  | nil => rfl
  | cons body rest ih =>
    simp only [recordDeltas, map_append, flatMap_cons, ih, TxBody.keys_deltas]

theorem nodup_touched_iff {pages : List TxBody} :
    (pages.flatMap TxBody.touched).Nodup ↔
      (groupInputSlots pages).Nodup ∧ (groupOutputSlots pages).Nodup ∧
        ∀ slot ∈ groupInputSlots pages, slot ∉ groupOutputSlots pages := by
  have reordered : (groupInputSlots pages ++ groupOutputSlots pages).Perm
      (pages.flatMap TxBody.touched) := flatMap_append_perm _ _ _
  rw [← reordered.nodup_iff, nodup_append']
  exact Iff.rfl

theorem length_flatMap_touched (records : List TxBody) :
    (records.flatMap TxBody.touched).length =
      groupLiveInputs records + groupLiveOutputs records := by
  induction records with
  | nil => rfl
  | cons body records ih =>
    have here : body.touched.length = body.liveInputCount + body.liveOutputCount := by
      rw [TxBody.touched, length_append, TxBody.inputSlots, TxBody.outputSlots,
        length_map, length_map, body.liveInputCount_eq, body.liveOutputCount_eq]
    simp only [flatMap_cons, length_append, here, ih, groupLiveInputs,
      groupLiveOutputs, map_cons, sum_cons]
    omega

variable {body : TxBody}

namespace Ledger

variable {height : Nat} {ledger : Ledger}

theorem applyRecords_append (left right : List TxBody) :
    ledger.applyRecords height (left ++ right) =
      (ledger.applyRecords height left).applyRecords height right :=
  foldl_append

theorem recordsApply_append {left right : List TxBody} :
    ledger.RecordsApply height (left ++ right) ↔
      ledger.RecordsApply height left ∧
        (ledger.applyRecords height left).RecordsApply height right := by
  induction left generalizing ledger with
  | nil => simp [RecordsApply, applyRecords]
  | cons body left ih =>
    rw [cons_append, RecordsApply, RecordsApply, ih, and_assoc]
    rfl

theorem applyRecords_slots (records : List TxBody) :
    (ledger.applyRecords height records).slots =
      overwrite ledger.slots (recordDeltas height ledger.allocCounter records) := by
  induction records generalizing ledger with
  | nil => rfl
  | cons body rest ih =>
    rw [recordDeltas, overwrite_append]
    exact ih

@[simp]
theorem applyRecords_logSlots (records : List TxBody) :
    (ledger.applyRecords height records).logSlots = ledger.logSlots := by
  induction records generalizing ledger with
  | nil => rfl
  | cons body rest ih => exact ih

theorem applyRecords_allocCounter (records : List TxBody) :
    (ledger.applyRecords height records).allocCounter =
      ledger.allocCounter + groupLiveOutputs records := by
  induction records generalizing ledger with
  | nil => rfl
  | cons body rest ih =>
    refine (@ih (ledger.applyTx body height)).trans ?_
    simp only [applyTx, groupLiveOutputs, map_cons, sum_cons]
    omega

theorem applyRecords_activeSlotCount {records : List TxBody}
    (counters : CountersApply ledger.activeSlotCount ledger.allocCounter records) :
    (ledger.applyRecords height records).activeSlotCount + groupLiveInputs records =
      ledger.activeSlotCount + groupLiveOutputs records := by
  induction records generalizing ledger with
  | nil => rfl
  | cons body rest ih =>
    obtain ⟨covered, -, -, rest⟩ := counters
    have tail := @ih (ledger.applyTx body height) rest
    simp only [groupLiveOutputs, groupLiveInputs, map_cons, sum_cons] at tail ⊢
    change (applyRecords height (ledger.applyTx body height) _).activeSlotCount + _ = _
    simp only [applyTx] at tail ⊢
    omega

/-- The slots hold what a body claims to spend, and are empty where it mints. -/
def Matches (slots : Nat → SlotValue) (body : TxBody) : Prop :=
  (∀ live ∈ body.liveInputs, slots live.2.slotIndex.toNat = body.claim live.2) ∧
    ∀ live ∈ body.liveOutputs, slots live.2.slotIndex.toNat = .empty

theorem matches_congr {slots slots' : Nat → SlotValue}
    (same : ∀ slot ∈ body.touched, slots slot.toNat = slots' slot.toNat) :
    Matches slots body ↔ Matches slots' body := by
  obtain ⟨inputs, outputs⟩ := (ChainState.forall_touched fun index => slots index = slots' index).mp
    same
  refine and_congr (forall₂_congr fun live mem => ?_) (forall₂_congr fun live mem => ?_)
  · rw [inputs live mem]
  · rw [outputs live mem]

theorem matches_applyTx {other : TxBody} {rest : List TxBody}
    (apart : body.touched.Disjoint (rest.flatMap TxBody.touched)) (mem : other ∈ rest) :
    Matches (ledger.applyTx body height).slots other ↔ Matches ledger.slots other := by
  refine matches_congr fun slot touched => overwrite_of_notMem fun written => ?_
  rw [TxBody.keys_deltas] at written
  obtain ⟨twin, twinTouched, same⟩ := mem_map.mp written
  obtain rfl := BitVec.eq_of_toNat_eq same
  exact apart twinTouched (mem_flatMap.mpr ⟨other, mem, touched⟩)

/-- The records of a block without slot conflicts can be checked against the state before it. -/
theorem recordsApply_iff {records : List TxBody}
    (distinct : (records.flatMap TxBody.touched).Nodup) :
    ledger.RecordsApply height records ↔
      (∀ slot ∈ records.flatMap TxBody.touched, slot.toNat < 2 ^ ledger.logSlots) ∧
        (∀ body ∈ records, Matches ledger.slots body) ∧
        CountersApply ledger.activeSlotCount ledger.allocCounter records := by
  induction records generalizing ledger with
  | nil => simp [RecordsApply, CountersApply]
  | cons body rest ih =>
    rw [flatMap_cons, nodup_append'] at distinct
    obtain ⟨once, restOnce, apart⟩ := distinct
    rw [RecordsApply, ih restOnce]
    simp only [flatMap_cons, forall_mem_append, forall_mem_cons, CountersApply]
    constructor
    · rintro ⟨first, restRange, restMatches, counters⟩
      exact ⟨⟨first.inRange, restRange⟩, ⟨⟨first.claims, first.vacant⟩, fun other mem =>
        (matches_applyTx apart mem).mp (restMatches other mem)⟩, first.covered,
        first.activeBound, first.allocBound, counters⟩
    · rintro ⟨⟨range, restRange⟩, ⟨⟨claims, vacant⟩, restMatches⟩, covered, activeBound,
        allocBound, counters⟩
      exact ⟨⟨once, range, claims, vacant, covered, activeBound, allocBound⟩, restRange,
        fun other mem => (matches_applyTx apart mem).mpr (restMatches other mem), counters⟩

end Ledger

namespace ChainState

variable {D : Type} {hasher : StateHasher D} {chain after : ChainState D} {ledger : Ledger}

theorem Represents.expandTimes [DecidableEq D] (represents : chain.Represents hasher ledger)
    {levels : Nat} (done : chain.expandTimes hasher levels = .ok after) :
    after.Represents hasher (ledger.atDepth (ledger.logSlots + levels)) ∧
      after.state.evicted = chain.state.evicted ∧
      (∀ segId ∈ after.state.dirty, segId ∈ chain.state.dirty) := by
  induction levels generalizing chain ledger with
  | zero =>
    obtain rfl := Except.ok.inj done
    exact ⟨represents, rfl, fun _ => id⟩
  | succ levels ih =>
    simp only [ChainState.expandTimes, bind_eq_ok] at done
    obtain ⟨grown, expanded, rest⟩ := done
    obtain ⟨next, evicted, dirty⟩ := represents.expandOne expanded
    obtain ⟨final, finalEvicted, finalDirty⟩ := ih next rest
    refine ⟨?_, finalEvicted.trans evicted, fun segId mem => dirty segId (finalDirty segId mem)⟩
    simpa only [Ledger.atDepth, add_assoc, add_comm 1] using final

variable {height : Nat} {system : Bool}

theorem Represents.applyRecord (represents : chain.Represents hasher ledger)
    (applied : chain.applyRecord height system body = .ok after) :
    (system = true → validateBodySemanticsNoHash body = .ok ()) ∧ ledger.TxApplies body ∧
      chain.Resident body.touched ∧ after.Represents hasher (ledger.applyTx body height) ∧
      Rewritten chain.state after.state ledger.slots (ledger.applyTx body height).slots := by
  simp only [ChainState.applyRecord, bind_eq_ok, mapError_eq_ok] at applied
  obtain ⟨_, canonical, applied⟩ := applied
  refine ⟨fun isSystem => ?_, represents.applyTx applied⟩
  simpa [isSystem] using canonical

theorem Resident.congr {other : ChainState D} {slots : List (BitVec 32)}
    (logSlots : other.state.logSlots = chain.state.logSlots)
    (evicted : other.state.evicted = chain.state.evicted) :
    other.Resident slots ↔ chain.Resident slots := by
  simp only [Resident, segIdOf, segmentSlotCount, effectiveLogSegmentSize, logSlots, evicted]

variable {records : List TxBody}

theorem Represents.foldlM_applyRecord (represents : chain.Represents hasher ledger)
    (applied : records.foldlM (ChainState.applyRecord height system) chain = .ok after) :
    (system = true → ∀ body ∈ records, validateBodySemanticsNoHash body = .ok ()) ∧
      ledger.RecordsApply height records ∧ chain.Resident (records.flatMap TxBody.touched) ∧
      after.Represents hasher (ledger.applyRecords height records) ∧
      Rewritten chain.state after.state ledger.slots
        (ledger.applyRecords height records).slots := by
  induction records generalizing chain ledger with
  | nil =>
    obtain rfl := foldlM_nil_eq_ok.mp applied
    exact ⟨by simp, trivial, by simp [Resident], represents, Rewritten.refl _ _⟩
  | cons body rest ih =>
    obtain ⟨middle, step, rest⟩ := foldlM_cons_eq_ok.mp applied
    obtain ⟨canonical, applies, resident, next, rewritten⟩ := represents.applyRecord step
    obtain ⟨restCanonical, restApplies, restResident, final, restRewritten⟩ := ih next rest
    rw [Resident.congr rewritten.logSlots rewritten.evicted] at restResident
    refine ⟨fun isSystem => forall_mem_cons.mpr ⟨canonical isSystem, restCanonical isSystem⟩,
      ⟨applies, restApplies⟩, ?_, final, rewritten.trans restRewritten⟩
    exact forall_mem_append.mpr ⟨resident, restResident⟩

theorem foldlM_applyRecord_domain
    (applied : records.foldlM (applyRecord height system) chain = .ok after) :
    (∀ slot ∈ records.flatMap TxBody.touched, slot.toNat < 2 ^ chain.state.logSlots) ∧
      after.state.logSlots = chain.state.logSlots := by
  induction records generalizing chain with
  | nil =>
    obtain rfl := foldlM_nil_eq_ok.mp applied
    exact ⟨by simp, rfl⟩
  | cons record records ih =>
    obtain ⟨middle, step, rest⟩ := foldlM_cons_eq_ok.mp applied
    simp only [applyRecord, bind_eq_ok, mapError_eq_ok] at step
    obtain ⟨_, -, step⟩ := step
    obtain ⟨first, depth⟩ := applyTxCheckedDeferredRoot_domain step
    obtain ⟨later, finalDepth⟩ := ih rest
    rw [depth] at later finalDepth
    refine ⟨?_, finalDepth⟩
    exact forall_mem_append.mpr ⟨first, later⟩

theorem Represents.foldlM_applyRecord_isOk (represents : chain.Represents hasher ledger)
    (canonical : system = true → ∀ body ∈ records, validateBodySemanticsNoHash body = .ok ())
    (applies : ledger.RecordsApply height records)
    (resident : chain.Resident (records.flatMap TxBody.touched)) :
    ∃ after, records.foldlM (ChainState.applyRecord height system) chain = .ok after := by
  induction records generalizing chain ledger with
  | nil => exact ⟨chain, rfl⟩
  | cons body rest ih =>
    obtain ⟨first, restApplies⟩ := applies
    obtain ⟨firstResident, restResident⟩ := forall_mem_append.mp resident
    have known : body.isCoinbase = true → (some height).isSome := fun _ => rfl
    obtain ⟨middle, applied⟩ := represents.applyTx_isOk known first firstResident
    have step : chain.applyRecord height system body = .ok middle := by
      refine bind_eq_ok.mpr ⟨(), mapError_eq_ok.mpr ?_, mapError_eq_ok.mpr applied⟩
      cases system with
      | false => rfl
      | true => exact canonical rfl body mem_cons_self
    obtain ⟨-, -, next, rewritten⟩ := represents.applyTx applied
    refine bind_isOk step (ih next (fun isSystem other mem =>
      canonical isSystem other (mem_cons_of_mem _ mem)) restApplies ?_)
    rwa [Resident.congr rewritten.logSlots rewritten.evicted]

/-- What `apply_block` has checked, and the state it leaves. -/
structure BlockApplied (hashes : ChainHashes D) (chain after : ChainState D) (ledger : Ledger)
    (block : Block D) (layout : BlockLayout) : Prop where
  records : block.transactions = layout.records
  accepted : layout.Accepted
  canonical : ∀ body ∈ layout.system, validateBodySemanticsNoHash body = .ok ()
  distinct : (block.transactions.flatMap TxBody.touched).Nodup
  grows : ledger.logSlots ≤ block.header.logSlots
  applies : (ledger.atDepth block.header.logSlots).RecordsApply block.header.height
    block.transactions
  represents : after.Represents hashes.state (ledger.afterBlock block)
  rooted : after.Rooted hashes.state (ledger.afterBlock block).slots
  stateRoot : block.header.stateRoot = after.utxoRoot
  activeSlotCount : block.header.activeSlotCount = (ledger.afterBlock block).activeSlotCount
  allocCounter : block.header.allocCounter = (ledger.afterBlock block).allocCounter
  txRoot : tryComputeTxRoot hashes.tx hashes.tree block.transactions = .ok block.header.txRoot
  resident : after.Resident (block.transactions.flatMap TxBody.touched)
  evicted : after.state.evicted = chain.state.evicted
  dirty : ∀ segId ∈ after.state.dirty, segId ∈ chain.state.dirty ∨ segId ∉ chain.state.evicted
  current : after.state.exactDirty = []

theorem take_system (layout : BlockLayout) :
    layout.records.take layout.system.length = layout.system :=
  take_left

theorem drop_system (layout : BlockLayout) :
    layout.records.drop layout.system.length = layout.pages :=
  drop_left

theorem logSlots_afterBlock {block : Block D} :
    (ledger.afterBlock block).logSlots = block.header.logSlots := by
  rw [Ledger.afterBlock, Ledger.applyRecords_logSlots, Ledger.atDepth]

theorem Represents.applyBlock [DecidableEq D] {hashes : ChainHashes D} {block : Block D} {root : D}
    (represents : chain.Represents hashes.state ledger)
    (applied : chain.applyBlock hashes block = .ok (after, root)) :
    ∃ layout, BlockApplied hashes chain after ledger block layout := by
  simp only [ChainState.applyBlock, bind_eq_ok, require_eq_ok, exists_const, mapError_eq_ok,
    pure_eq_ok, validateBlockSlotConflicts_eq_ok, validateBlockPageStream,
    validateBlockPageStreamIn_eq_ok, Prod.exists, Prod.mk.injEq] at applied
  obtain ⟨-, _, ⟨layout, records, accepted, rfl⟩, distinct, -, expanded, expansion, written,
    recordsDone, rooted, _, rootDone, stateRoot, active, alloc, logSlots, _, txRoot, sameTxRoot,
    rfl, -⟩ := applied
  obtain ⟨expandedRep, expandedEvicted, expandedDirty⟩ := represents.expandTimes expansion
  simp only [ChainState.applyRecords, bind_eq_ok, records, BlockLayout.facts, take_system,
    drop_system] at recordsDone
  obtain ⟨minted, systemDone, usersDone⟩ := recordsDone
  obtain ⟨canonical, systemApplies, systemResident, mintedRep, mintedRewritten⟩ :=
    expandedRep.foldlM_applyRecord systemDone
  obtain ⟨-, userApplies, userResident, writtenRep, writtenRewritten⟩ :=
    mintedRep.foldlM_applyRecord usersDone
  obtain ⟨rootEq, coherent, synced, isRooted, utxoRoot, state, sameActive, sameAlloc, sameSupply⟩ :=
    writtenRep.coherent.tryStateRoot rootDone
  have depth : rooted.state.logSlots = ledger.logSlots +
      (block.header.logSlots - chain.state.logSlots) := by
    rw [state]
    exact writtenRep.logSlots.trans (by simp [Ledger.atDepth])
  have grows : ledger.logSlots ≤ block.header.logSlots := by
    omega
  have sameDepth : ledger.logSlots + (block.header.logSlots - chain.state.logSlots) =
      block.header.logSlots := by
    omega
  rw [sameDepth] at systemApplies userApplies writtenRep coherent isRooted
  rw [← Ledger.applyRecords_append] at writtenRep coherent isRooted
  have final : (ledger.atDepth block.header.logSlots).applyRecords block.header.height
      (layout.system ++ layout.pages) = ledger.afterBlock block := by
    rw [Ledger.afterBlock, records, BlockLayout.records]
  rw [final] at writtenRep coherent isRooted
  refine ⟨layout, records, accepted, canonical rfl, distinct, grows, ?_,
    ⟨coherent, synced, ?_, ?_, ?_, ?_⟩, isRooted, stateRoot.trans utxoRoot.symm, ?_, ?_, ?_, ?_, ?_,
    ?_, ?_⟩
  · rw [records, BlockLayout.records]
    exact Ledger.recordsApply_append.mpr ⟨systemApplies, userApplies⟩
  · rw [← logSlots]
    simp [Ledger.afterBlock, Ledger.atDepth]
  · exact sameActive.trans writtenRep.active
  · exact sameAlloc.trans writtenRep.alloc
  · exact sameSupply.trans writtenRep.supply
  · exact active.trans (sameActive.trans writtenRep.active)
  · exact alloc.trans (sameAlloc.trans writtenRep.alloc)
  · rw [txRoot, sameTxRoot]
  · have rewritten := mintedRewritten.trans writtenRewritten
    rw [records, BlockLayout.records, flatMap_append]
    refine forall_mem_append.mpr ⟨?_, ?_⟩
    · exact (Resident.congr (state ▸ rewritten.logSlots) (state ▸ rewritten.evicted)).mpr
        systemResident
    · exact (Resident.congr (state ▸ writtenRewritten.logSlots)
        (state ▸ writtenRewritten.evicted)).mpr userResident
  · rw [state, ← expandedEvicted, ← mintedRewritten.evicted, ← writtenRewritten.evicted]
    rfl
  · intro segId marked
    rw [state] at marked
    rw [← expandedEvicted]
    rcases (mintedRewritten.trans writtenRewritten).dirty segId marked with earlier | free
    · exact Or.inl (expandedDirty segId earlier)
    · exact Or.inr free
  · rw [state]
    rfl

theorem Represents.applyBlock_isOk [DecidableEq D] {hashes : ChainHashes D} {block : Block D}
    {layout : BlockLayout} {expanded : ChainState D}
    (represents : chain.Represents hashes.state ledger)
    (records : block.transactions = layout.records) (accepted : layout.Accepted)
    (canonical : ∀ body ∈ layout.system, validateBodySemanticsNoHash body = .ok ())
    (distinct : (block.transactions.flatMap TxBody.touched).Nodup)
    (grows : ledger.logSlots ≤ block.header.logSlots)
    (expansion : chain.expandTimes hashes.state (block.header.logSlots - ledger.logSlots) =
      .ok expanded)
    (applies : (ledger.atDepth block.header.logSlots).RecordsApply block.header.height
      block.transactions)
    (resident : expanded.Resident (block.transactions.flatMap TxBody.touched))
    (stateRoot : block.header.stateRoot =
      hashes.state.slotRoot block.header.logSlots (ledger.afterBlock block).slots)
    (activeSlotCount : block.header.activeSlotCount = (ledger.afterBlock block).activeSlotCount)
    (allocCounter : block.header.allocCounter = (ledger.afterBlock block).allocCounter)
    (txRoot : tryComputeTxRoot hashes.tx hashes.tree block.transactions =
      .ok block.header.txRoot) :
    ∃ result, chain.applyBlock hashes block = .ok result := by
  obtain ⟨expandedRep, -, -⟩ := represents.expandTimes expansion
  rw [Nat.add_sub_cancel' grows] at expandedRep
  rw [records, BlockLayout.records] at applies
  obtain ⟨systemApplies, userApplies⟩ := Ledger.recordsApply_append.mp applies
  rw [records, BlockLayout.records, flatMap_append] at resident
  obtain ⟨systemResident, userResident⟩ := forall_mem_append.mp resident
  obtain ⟨minted, systemDone⟩ := expandedRep.foldlM_applyRecord_isOk (fun _ => canonical)
    systemApplies systemResident
  obtain ⟨-, -, -, mintedRep, mintedRewritten⟩ := expandedRep.foldlM_applyRecord systemDone
  have noneSystem : false = true → ∀ body ∈ layout.pages,
      validateBodySemanticsNoHash body = .ok () := fun impossible => by cases impossible
  obtain ⟨written, usersDone⟩ := mintedRep.foldlM_applyRecord_isOk noneSystem userApplies
    ((Resident.congr mintedRewritten.logSlots mintedRewritten.evicted).mpr userResident)
  have recordsDone : expanded.applyRecords block.header.height
      (layout.facts hashes.tx .v1).userStartIndex block.transactions = .ok written := by
    rw [records, BlockLayout.facts]
    refine bind_eq_ok.mpr ⟨minted, ?_, ?_⟩
    · rw [take_system]
      exact systemDone
    · rw [drop_system]
      exact usersDone
  obtain ⟨-, -, -, writtenRep, -⟩ := mintedRep.foldlM_applyRecord usersDone
  rw [← Ledger.applyRecords_append, show (ledger.atDepth block.header.logSlots).applyRecords
    block.header.height (layout.system ++ layout.pages) = ledger.afterBlock block by
      rw [Ledger.afterBlock, records, BlockLayout.records]] at writtenRep
  obtain ⟨⟨rooted, root⟩, rootDone⟩ := writtenRep.coherent.tryStateRoot_isOk
  obtain ⟨rootEq, -, -, -, -, state, sameActive, sameAlloc, -⟩ :=
    writtenRep.coherent.tryStateRoot rootDone
  have depth : written.state.logSlots = block.header.logSlots := by
    rw [writtenRep.logSlots, Ledger.afterBlock, Ledger.applyRecords_logSlots, Ledger.atDepth]
  have stream : validateBlockPageStream hashes.tx block.transactions =
      .ok (layout.facts hashes.tx .v1) :=
    validateBlockPageStreamIn_eq_ok.mpr ⟨layout, records, accepted, rfl⟩
  have conflicts : validateBlockSlotConflicts BlockApplyError.slotConflict block.transactions =
      .ok () := validateBlockSlotConflicts_eq_ok.mpr distinct
  apply require_bind_isOk (records ▸ accepted.length_records)
  apply bind_isOk (mapError_eq_ok.mpr stream)
  apply bind_isOk conflicts
  apply require_bind_isOk
  · rw [records, BlockLayout.facts, take_system]
    exact accepted.liveInputCount_system
  apply bind_isOk (mapError_eq_ok.mpr (represents.logSlots ▸ expansion))
  apply bind_isOk recordsDone
  apply bind_isOk (mapError_eq_ok.mpr rootDone)
  apply require_bind_isOk
  · rw [stateRoot, rootEq, depth]
  apply require_bind_isOk (activeSlotCount.trans (sameActive.trans writtenRep.active).symm)
  apply require_bind_isOk (allocCounter.trans (sameAlloc.trans writtenRep.alloc).symm)
  apply require_bind_isOk
  · rw [state]
    exact depth.symm
  apply bind_isOk (mapError_eq_ok.mpr txRoot)
  exact require_bind_isOk rfl ⟨_, rfl⟩

end ChainState
end Jetsam
