import Jetsam.Block.Occupancy
import Jetsam.Mempool.Evictions
import Jetsam.Mempool.MinedSelection

/-!
# Pool groups apply to the state of the view

After a block the pool evicts what the new view contradicts, and a submission is checked against the
same view, so every group that is left can be applied to its state, with any of the others before
it. The evictions do not notice a group that fills a slot outside the domain, which a submission
would refuse.
-/

namespace Jetsam

open Control SegmentedFriState List

variable {D : Type}

/-- How a view reads a slot of a state; an evicted segment is read from the durable store. -/
def ChainView.slotRead (state : SegmentedFriState)
    (readSegment : Nat → Except ChainViewReadError SegmentColumns) (index : BitVec 32) :
    Except ChainViewReadError SlotValue :=
  if state.numSlots ≤ index.toNat then .ok .empty
  else if !state.isEvicted (state.segIdOf index.toNat) then .ok (state.slot index.toNat)
  else do
    let columns ← readSegment (state.segIdOf index.toNat)
    pure (columns.getD (state.localIdxOf index.toNat) .empty)

/-- The view is of this state: segments that the store returns are those of its ledger. -/
structure ChainView.Of (view : ChainView) (chain : ChainState D) (ledger : Ledger) : Prop where
  numSlots : view.numSlots = chain.state.numSlots
  reads : ∃ readSegment : Nat → Except ChainViewReadError SegmentColumns,
    (∀ segId columns, readSegment segId = .ok columns →
      columns = segmentOf chain.state.segmentSlotCount ledger.slots segId) ∧
      ∀ index, view.trySlot index = ChainView.slotRead chain.state readSegment index

variable {chain : ChainState D} {ledger : Ledger} {hasher : StateHasher D}

variable {view : ChainView}

theorem ChainView.Of.slot_eq (of : view.Of chain ledger)
    (represents : chain.Represents hasher ledger) {index : BitVec 32} {value : SlotValue}
    (read : view.trySlot index = .ok value) :
    ledger.slots index.toNat = value := by
  obtain ⟨readSegment, stored, reads⟩ := of.reads
  have holds := represents.coherent.holds
  rw [reads, ChainView.slotRead] at read
  split at read
  · rename_i outside
    obtain rfl := Except.ok.inj read
    exact holds.outside _ outside
  · split at read
    · rename_i inside present
      obtain rfl := Except.ok.inj read
      rw [Bool.not_eq_true', isEvicted, contains_eq_mem, decide_eq_false_iff_not] at present
      exact (holds.slot_eq present).symm
    · obtain ⟨columns, found, rest⟩ := bind_eq_ok.mp read
      obtain rfl := stored _ _ found
      obtain rfl := Except.ok.inj rest
      rw [getD_segmentOf _ _ (localIdxOf_lt _ _), segIdOf_mul_add]

/-- A group that fits the slots of a ledger, the anchors and the rules of the next block. -/
structure Minable (rules : AdmissionRules) (client : ClientObjectRules) (view : ChainView)
    (ledger : Ledger) (pages : List TxBody) : Prop where
  inRange : ∀ slot ∈ pages.flatMap TxBody.touched, slot.toNat < view.numSlots
  fits : ∀ page ∈ pages, Ledger.Matches ledger.slots page
  occupied : ∀ page ∈ pages, page.SpendsOccupied
  anchored : ∀ page ∈ pages, (view.acceptedUserEpochAnchors rules.schedule).1.accepts
    page.epochAnchor (view.acceptedUserEpochAnchors rules.schedule).2 = true
  plain : (checkPlainTransactionWith pages (satAdd view.tipHeight 1) client rules.batch).isOk = true

theorem shared_of_valid {hasher : TxHasher} {pages : List TxBody} {spend : PagedSpendFacts}
    (valid : validatePagedSpend hasher pages = .ok spend) :
    ∀ page ∈ pages, page.inputOwner = spend.inputOwner ∧ page.epochAnchor = spend.epochAnchor ∧
      page.isCoinbase = false := by
  cases pages with
  | nil => simp
  | cons first rest =>
    rw [validatePagedSpend, validatePagedSpendWith_eq_ok] at valid
    obtain ⟨accepted, rfl⟩ := valid
    intro page mem
    have user := (accepted.shape page mem).user
    rcases mem_cons.mp mem with rfl | later
    · exact ⟨rfl, rfl, user⟩
    · have continued := accepted.continuation page later
      exact ⟨continued.owner, continued.epoch, user⟩

namespace Mempool

variable {hasher : TxHasher} {pool : Mempool} {hash : Digest} {entry : MempoolEntry}
  {stored : List StoredEntry}

theorem Consistent.setIntentBytes (consistent : pool.Consistent hasher)
    (newest : pool.entries.entries = ⟨hash, entry⟩ :: stored) (bytes : List Wire.Byte) :
    (pool.setIntentBytes hash bytes).Consistent hasher := by
  obtain ⟨retained, pages, spend, feeRate, changed, entries⟩ := entries_setIntentBytes newest bytes
  have groups := consistent.groups
  have fees := consistent.fees
  rw [newest] at groups fees
  have slots : storedSlots (⟨hash, retained⟩ :: stored) =
      storedSlots (⟨hash, entry⟩ :: stored) := by
    simp only [storedSlots, flatMap_cons, pages]
  have keys : storedKeys (⟨hash, retained⟩ :: stored) = storedKeys (⟨hash, entry⟩ :: stored) := by
    simp only [storedKeys, map_cons, feeRate]
  have indexed : ∀ {side : List TxBody → List (BitVec 32)} {table : BitVec 32 → Option Digest},
      Indexed side pool.entries.entries table →
        Indexed side (⟨hash, retained⟩ :: stored) table := by
    intro side table before slot owner
    rw [before, newest]
    constructor
    · rintro ⟨held, mem, touched⟩
      rcases mem_cons.mp mem with same | later
      · cases same
        exact ⟨retained, mem_cons_self, pages ▸ touched⟩
      · exact ⟨held, mem_cons_of_mem _ later, touched⟩
    · rintro ⟨held, mem, touched⟩
      rcases mem_cons.mp mem with same | later
      · cases same
        exact ⟨entry, mem_cons_self, pages ▸ touched⟩
      · exact ⟨held, mem_cons_of_mem _ later, touched⟩
  have capped := consistent.capped
  rw [len, newest] at capped
  obtain ⟨first, valid⟩ := forall_mem_cons.mp groups.valid
  obtain ⟨firstNamed, named⟩ := forall_mem_cons.mp groups.named
  obtain ⟨firstRated, rated⟩ := forall_mem_cons.mp groups.rated
  constructor
  · rw [entries]
    refine ⟨forall_mem_cons.mpr ⟨?_, valid⟩, forall_mem_cons.mpr ⟨?_, named⟩,
      forall_mem_cons.mpr ⟨?_, rated⟩, groups.hashes, slots ▸ groups.apart⟩
    · rw [pages, spend]
      exact first
    · rw [spend]
      exact firstNamed
    · rw [feeRate, spend]
      exact firstRated
  · rw [entries]
    exact ⟨keys ▸ changed ▸ fees.keys, changed ▸ fees.sorted⟩
  · rw [entries, changed]
    exact indexed consistent.inputs
  · rw [entries, changed]
    exact indexed consistent.outputs
  · rw [len, entries, changed]
    exact capped

end Mempool

namespace MempoolState

variable {rules : AdmissionRules} {config : MempoolConfig} {state : MempoolState}

section

variable (consistent : state.pool.Consistent rules.hasher)

include consistent

theorem consistent_submit (seen : MempoolState) (intent : PagedSpendIntent)
    (intentBytes : List Wire.Byte) :
    (submit rules config seen intent intentBytes state).2.pool.Consistent rules.hasher := by
  rcases (submit_atomic seen intent intentBytes state).cases
    (submit_noPanic seen intent intentBytes state) with ⟨_, returned⟩ | same
  · obtain ⟨spend, _, -, -, fresh, entered, admission⟩ := admitted_of_submit returned
    rw [← entered]
    exact (consistent.admitPages admission).setIntentBytes
      (Mempool.entries_entered fresh) intentBytes
  · rw [same]
    exact consistent

theorem consistent_evictWhere (condition : MempoolEntry → Bool) :
    (state.evictWhere condition).2.pool.Consistent rules.hasher :=
  consistent.removeAll _

theorem consistent_evictClientObjectViolations (nextHeight : Nat) :
    (state.evictClientObjectViolations rules nextHeight).2.pool.Consistent rules.hasher := by
  rw [evictClientObjectViolations]
  split
  · exact consistent
  · exact consistent_evictWhere consistent _

theorem consistent_evictUnminableAt (nextHeight : Nat) :
    (state.evictUnminableAt rules nextHeight).pool.Consistent rules.hasher := by
  have left := consistent_evictClientObjectViolations consistent nextHeight
  rw [evictUnminableAt]
  rcases outcome : state.evictClientObjectViolations rules nextHeight with ⟨evicted, after⟩
  rw [outcome] at left
  dsimp only
  split
  · rw [pool_rebuildSlotSets]
    exact left
  · exact left

theorem consistent_onNewBlock (confirmedHashes : List Digest) (newView : ChainView) :
    (state.onNewBlock rules confirmedHashes newView).pool.Consistent rules.hasher := by
  rw [onNewBlock, pool_rebuildSlotSets]
  apply consistent_evictClientObjectViolations
  apply consistent_evictWhere
  apply consistent_evictWhere
  apply consistent_evictWhere
  have confirmed := consistent.removeAll confirmedHashes
  rw [← Mempool.onBlockConfirmed_snd] at confirmed
  exact confirmed

theorem consistent_run (op : AsyncMempoolOp) :
    (op.run rules config state).pool.Consistent rules.hasher := by
  cases op with
  | submit seen intent intentBytes => exact consistent_submit consistent seen intent intentBytes
  | onNewBlock confirmedHashes newView =>
    exact consistent_onNewBlock consistent confirmedHashes newView
  | updateChainView view =>
    have moved : ({ state with view := view } : MempoolState).pool.Consistent rules.hasher :=
      consistent
    exact consistent_evictUnminableAt moved _
  | evictUnminableAt nextHeight => exact consistent_evictUnminableAt consistent nextHeight
  | readmitAfterReorg txHashes =>
    change (state.readmitAfterReorg txHashes).pool.Consistent rules.hasher
    rw [readmitAfterReorg]
    split
    · exact consistent
    · rw [pool_resetFloorIfEmpty]
      exact consistent.removeAll txHashes

end

theorem consistent_after (view : ChainView) (history : List AsyncMempoolOp) :
    (after rules config view history).pool.Consistent rules.hasher := by
  induction history using List.reverseRecOn with
  | nil => exact Mempool.new_consistent _
  | append_singleton history op ih =>
    rw [after_concat]
    exact consistent_run ih op

variable {client : ClientObjectRules} {chain : ChainState D} {ledger : Ledger}
  {hasher : StateHasher D} {view : ChainView} {pages : List TxBody} {spend : PagedSpendFacts}

theorem forall_groupOutputs {property : BitVec 32 → Prop} :
    (∀ slot ∈ groupOutputSlots pages, property slot) ↔
      ∀ page ∈ pages, ∀ live ∈ page.liveOutputs, property live.2.slotIndex := by
  simp only [groupOutputSlots, mem_flatMap, TxBody.outputSlots, mem_map]
  constructor
  · intro all page mem live inside
    exact all _ ⟨page, mem, live, inside, rfl⟩
  · rintro all slot ⟨page, mem, live, inside, rfl⟩
    exact all page mem live inside

theorem touched_inRange {bound : Nat}
    (inputs : ∀ page ∈ pages, ∀ live ∈ page.liveInputs, live.2.slotIndex.toNat < bound)
    (outputs : ∀ page ∈ pages, ∀ live ∈ page.liveOutputs, live.2.slotIndex.toNat < bound) :
    ∀ slot ∈ pages.flatMap TxBody.touched, slot.toNat < bound := by
  intro slot mem
  obtain ⟨page, inPages, touched⟩ := mem_flatMap.mp mem
  rcases mem_append.mp touched with input | output
  · obtain ⟨live, inside, rfl⟩ := mem_map.mp input
    exact inputs page inPages live inside
  · obtain ⟨live, inside, rfl⟩ := mem_map.mp output
    exact outputs page inPages live inside

variable {entry : MempoolEntry}

theorem trySlot_of_vacant (vacant : outputOccupied view entry = false) :
    ∀ page ∈ entry.pages, ∀ live ∈ page.liveOutputs,
      view.trySlot live.2.slotIndex = .ok .empty := by
  intro page mem live inside
  have here := any_eq_false.mp (Bool.not_eq_true _ ▸ any_eq_false.mp vacant page mem)
    live inside
  cases read : view.trySlot live.2.slotIndex with
  | error refused => simp [read] at here
  | ok slot =>
    rw [read] at here
    simpa using here

theorem trySlot_of_present (present : inputConsumed view entry = false) :
    ∀ page ∈ entry.pages, ∀ live ∈ page.liveInputs,
      view.trySlot live.2.slotIndex = .ok (.withOwnerFields live.2.amount live.2.creationId
        (asFields entry.spend.inputOwner)) := by
  intro page mem live inside
  have here := any_eq_false.mp (Bool.not_eq_true _ ▸ any_eq_false.mp present page mem)
    live inside
  cases read : view.trySlot live.2.slotIndex with
  | error refused => simp [read] at here
  | ok slot =>
    rw [read] at here
    simpa using here

theorem minable_of_onNewBlock {confirmedHashes : List Digest} {stored : StoredEntry}
    (of : view.Of chain ledger) (represents : chain.Represents hasher ledger)
    (valid : validatePagedSpend rules.hasher stored.2.pages = .ok stored.2.spend)
    (occupied : ∀ page ∈ stored.2.pages, page.SpendsOccupied)
    (outputs : ∀ slot ∈ groupOutputSlots stored.2.pages, slot.toNat < view.numSlots)
    (mem : stored ∈ (state.onNewBlock rules confirmedHashes view).pool.entries.entries) :
    Minable rules state.clientRules view ledger stored.2.pages := by
  obtain ⟨-, -, fresh, vacant, present, plain⟩ := mem_of_onNewBlock mem
  have emptied := trySlot_of_vacant vacant
  have claimed := trySlot_of_present present
  have shared := shared_of_valid valid
  have claims : ∀ page ∈ stored.2.pages, ∀ live ∈ page.liveInputs,
      ledger.slots live.2.slotIndex.toNat = page.claim live.2 := by
    intro page inPages live inside
    rw [of.slot_eq represents (claimed page inPages live inside), TxBody.claim,
      (shared page inPages).1]
  refine ⟨touched_inRange ?_ (forall_groupOutputs.mp outputs), fun page inPages => ?_, occupied, ?_,
    plain⟩
  · intro page inPages live inside
    by_contra outside
    -- a slot outside the domain is empty, which no input claims
    apply occupied page inPages live inside
    rw [← claims page inPages live inside]
    exact represents.coherent.holds.outside _ (of.numSlots ▸ Nat.not_lt.mp outside)
  · exact ⟨claims page inPages, fun live inside =>
      of.slot_eq represents (emptied page inPages live inside)⟩
  · intro page inPages
    rw [(shared page inPages).2.1]
    simpa [staleAnchor] using fresh

variable {done : Unit}

theorem checkInputSlots_eq_ok :
    checkInputSlots pages spend view = .ok done ↔
      ∀ page ∈ pages, ∀ live ∈ page.liveInputs, live.2.slotIndex.toNat < view.numSlots ∧
        view.trySlot live.2.slotIndex = .ok (.withOwnerFields live.2.amount live.2.creationId
          (asFields spend.inputOwner)) := by
  simp only [checkInputSlots, forM_eq_ok, mem_flatMap, forall_exists_index, and_imp,
    checkInputSlot, ChainView.readSlot, bind_eq_ok, require_eq_ok, mapError_eq_ok, exists_const,
    exists_eq_right]
  exact ⟨fun checked page mem live => checked live page mem,
    fun each live page mem => each page mem live⟩

theorem checkOutputSlots_eq_ok :
    checkOutputSlots pages view = .ok done ↔
      ∀ page ∈ pages, ∀ live ∈ page.liveOutputs, live.2.slotIndex.toNat < view.numSlots ∧
        view.trySlot live.2.slotIndex = .ok .empty := by
  simp only [checkOutputSlots, forM_eq_ok, mem_flatMap, forall_exists_index, and_imp,
    checkOutputSlot, ChainView.readSlot, bind_eq_ok, require_eq_ok, mapError_eq_ok, exists_const,
    exists_eq_right]
  exact ⟨fun checked page mem live => checked live page mem,
    fun each live page mem => each page mem live⟩

theorem minable_of_runAdmissionChecks {anchorHeight : Nat} (of : state.view.Of chain ledger)
    (represents : chain.Represents hasher ledger)
    (valid : validatePagedSpend rules.hasher pages = .ok spend)
    (occupied : ∀ page ∈ pages, page.SpendsOccupied)
    (checked : runAdmissionChecks rules pages spend state = .ok anchorHeight) :
    Minable rules state.clientRules state.view ledger pages := by
  simp only [runAdmissionChecks, bind_eq_ok, require_eq_ok, mapError_eq_ok, exists_const,
    checkInputSlots_eq_ok, checkOutputSlots_eq_ok] at checked
  obtain ⟨-, _, -, _, plain, -, ⟨-, accepted⟩, _, -, inputs, outputs, -⟩ := checked
  have shared := shared_of_valid valid
  refine ⟨touched_inRange (fun page mem live inside => (inputs page mem live inside).1)
    (fun page mem live inside => (outputs page mem live inside).1), fun page mem => ?_,
    occupied, fun page mem => ?_, isOk_eq_true.mpr ⟨_, plain⟩⟩
  · constructor
    · intro live inside
      rw [of.slot_eq represents (inputs page mem live inside).2, TxBody.claim,
        (shared page mem).1]
    · intro live inside
      exact of.slot_eq represents (outputs page mem live inside).2
  · rw [(shared page mem).2.1]
    exact accepted

theorem clientRules_evictClientObjectViolations (nextHeight : Nat) :
    (state.evictClientObjectViolations rules nextHeight).2.clientRules = state.clientRules := by
  rw [evictClientObjectViolations]
  split <;> rfl

theorem clientRules_rebuildSlotSets (state : MempoolState) :
    state.rebuildSlotSets.resetFloorIfEmpty.clientRules = state.clientRules := by
  rw [resetFloorIfEmpty, rebuildSlotSets_eq]
  split <;> rfl

theorem clientRules_evictUnminableAt (nextHeight : Nat) :
    (state.evictUnminableAt rules nextHeight).clientRules = state.clientRules := by
  have kept := @clientRules_evictClientObjectViolations rules state nextHeight
  rw [evictUnminableAt]
  rcases outcome : state.evictClientObjectViolations rules nextHeight with ⟨evicted, left⟩
  rw [outcome] at kept
  dsimp only
  split
  · exact (clientRules_rebuildSlotSets left).trans kept
  · exact kept

theorem clientRules_onNewBlock (confirmedHashes : List Digest) (newView : ChainView) :
    (state.onNewBlock rules confirmedHashes newView).clientRules = state.clientRules := by
  rw [onNewBlock, clientRules_rebuildSlotSets, clientRules_evictClientObjectViolations]
  rfl

theorem view_onNewBlock (confirmedHashes : List Digest) (newView : ChainView) :
    (state.onNewBlock rules confirmedHashes newView).view = newView := by
  have kept : ∀ (before : MempoolState) nextHeight,
      (before.evictClientObjectViolations rules nextHeight).2.view = before.view := by
    intro before nextHeight
    rw [evictClientObjectViolations]
    split <;> rfl
  have rebuilt : ∀ before : MempoolState,
      before.rebuildSlotSets.resetFloorIfEmpty.view = before.view := by
    intro before
    rw [resetFloorIfEmpty, rebuildSlotSets_eq]
    split <;> rfl
  rw [onNewBlock, rebuilt, kept]
  rfl

theorem fixed_of_submit (seen : MempoolState) (intent : PagedSpendIntent)
    (intentBytes : List Wire.Byte) :
    (submit rules config seen intent intentBytes state).2.view = state.view ∧
      (submit rules config seen intent intentBytes state).2.clientRules = state.clientRules := by
  rcases (submit_atomic seen intent intentBytes state).cases
    (submit_noPanic seen intent intentBytes state) with ⟨_, returned⟩ | same
  · obtain ⟨spend, _, -, -, -, entered, -⟩ := admitted_of_submit returned
    rw [← entered]
    exact ⟨rfl, rfl⟩
  · rw [same]
    exact ⟨rfl, rfl⟩

theorem clientRules_after (view : ChainView) (history : List AsyncMempoolOp) :
    (after rules config view history).clientRules = config.clientObjectRules := by
  induction history using List.reverseRecOn with
  | nil => rfl
  | append_singleton history op ih =>
    rw [after_concat]
    refine Eq.trans ?_ ih
    cases op with
    | submit seen intent intentBytes => exact (fixed_of_submit seen intent intentBytes).2
    | onNewBlock confirmedHashes newView => exact clientRules_onNewBlock confirmedHashes newView
    | updateChainView view => exact clientRules_evictUnminableAt _
    | evictUnminableAt nextHeight => exact clientRules_evictUnminableAt nextHeight
    | readmitAfterReorg txHashes =>
      change (readmitAfterReorg txHashes (after rules config view history)).clientRules = _
      rw [readmitAfterReorg]
      split
      · rfl
      · rw [resetFloorIfEmpty]
        split <;> rfl

theorem minable_submit (config : MempoolConfig) (of : state.view.Of chain ledger)
    (represents : chain.Represents hasher ledger) (seen : MempoolState)
    {intent : PagedSpendIntent} (occupied : ∀ page ∈ intent.pages, page.SpendsOccupied)
    (intentBytes : List Wire.Byte)
    (before : ∀ stored ∈ state.pool.entries.entries,
      Minable rules state.clientRules state.view ledger stored.2.pages) :
    ∀ stored ∈ (submit rules config seen intent intentBytes state).2.pool.entries.entries,
      Minable rules state.clientRules state.view ledger stored.2.pages := by
  intro stored mem
  rcases (submit_atomic seen intent intentBytes state).cases
    (submit_noPanic seen intent intentBytes state) with ⟨_, returned⟩ | same
  · obtain ⟨spend, anchorHeight, checked, current, fresh, entered, -⟩ := admitted_of_submit returned
    obtain ⟨retained, pages, -, -, -, newest⟩ := Mempool.entries_setIntentBytes
      (@Mempool.entries_entered _ _ (⟨intent.pages, spend, state.view.tipHeight,
        MempoolEntry.computeFeeRate spend, 0, []⟩ : MempoolEntry) fresh) intentBytes
    rw [← entered] at mem
    have split : stored ∈ ⟨spend.logicalTxid, retained⟩ :: state.pool.entries.entries :=
      newest ▸ mem
    rcases mem_cons.mp split with rfl | old
    · simp only [checkAgainst, bind_eq_ok, require_eq_ok, exists_const] at current
      have minable := minable_of_runAdmissionChecks of represents
        (validatePagedSpend_of_checkIntent checked) occupied current.2.2
      exact pages ▸ minable
    · exact before stored old
  · rw [same] at mem
    exact before stored mem

/-- One submission: the state it was first checked against, the intent and its bytes. -/
structure Submission where
  seen : MempoolState
  intent : PagedSpendIntent
  intentBytes : List Wire.Byte

def submitAll (rules : AdmissionRules) (config : MempoolConfig) (submissions : List Submission)
    (state : MempoolState) : MempoolState :=
  submissions.foldl (fun state submission =>
    (submit rules config submission.seen submission.intent submission.intentBytes state).2) state

theorem minable_submitAll {submissions : List Submission} (of : state.view.Of chain ledger)
    (represents : chain.Represents hasher ledger)
    (occupied : ∀ submission ∈ submissions, ∀ page ∈ submission.intent.pages, page.SpendsOccupied)
    (before : ∀ stored ∈ state.pool.entries.entries,
      Minable rules state.clientRules state.view ledger stored.2.pages)
    (consistent : state.pool.Consistent rules.hasher) :
    (submitAll rules config submissions state).pool.Consistent rules.hasher ∧
      ∀ stored ∈ (submitAll rules config submissions state).pool.entries.entries,
        Minable rules state.clientRules state.view ledger stored.2.pages := by
  induction submissions generalizing state with
  | nil => exact ⟨consistent, before⟩
  | cons first rest ih =>
    obtain ⟨here, later⟩ := forall_mem_cons.mp occupied
    obtain ⟨sameView, sameRules⟩ :=
      @fixed_of_submit rules config state first.seen first.intent first.intentBytes
    have step := minable_submit config of represents first.seen here first.intentBytes before
    rw [← sameView, ← sameRules] at step ⊢
    exact ih (sameView ▸ of) later step (consistent_submit consistent _ _ _)

end MempoolState

def pagesOf (chosen : List StoredEntry) : List TxBody := chosen.flatMap fun stored => stored.2.pages

/-- Leave room for identifiers of the system records. -/
def ChainState.reserveIds (chain : ChainState D) (reserved : Nat) : ChainState D :=
  { chain with allocCounter := chain.allocCounter + reserved }

theorem ChainState.Represents.reserveIds (represents : chain.Represents hasher ledger)
    (reserved : Nat) :
    (chain.reserveIds reserved).Represents hasher
      { ledger with allocCounter := ledger.allocCounter + reserved } :=
  ⟨represents.coherent.of_same rfl rfl, represents.synced, represents.logSlots, represents.active,
    congrArg (· + reserved) represents.alloc, represents.supply⟩

/-- Minable groups of a consistent pool apply in every choice and order. -/
theorem applyPages_of_minable {rules : AdmissionRules} {client : ClientObjectRules}
    {stored chosen : List StoredEntry} {txHasher : TxHasher}
    (represents : chain.Represents hasher ledger) (counted : ledger.Counted)
    (wide : view.numSlots ≤ 2 ^ ledger.logSlots) (groups : StoredGroups txHasher stored)
    (minable : ∀ entry ∈ stored, Minable rules client view ledger entry.2.pages)
    (some : chosen.Subperm stored)
    (alloc : ledger.allocCounter + groupLiveOutputs (pagesOf chosen) < 2 ^ 63)
    (resident : chain.Resident ((pagesOf chosen).flatMap TxBody.touched)) :
    ∃ after, chain.applyPages (pagesOf chosen) = .ok after := by
  have inPool : ∀ page ∈ pagesOf chosen, ∃ entry ∈ stored, page ∈ entry.2.pages := by
    intro page mem
    obtain ⟨entry, inChosen, inside⟩ := mem_flatMap.mp mem
    exact ⟨entry, some.subset inChosen, inside⟩
  have user : ∀ page ∈ pagesOf chosen, page.isCoinbase = false := by
    intro page mem
    obtain ⟨entry, inStored, inside⟩ := inPool page mem
    exact (shared_of_valid (groups.valid entry inStored) page inside).2.2
  have distinct : ((pagesOf chosen).flatMap TxBody.touched).Nodup := by
    obtain ⟨ordered, perm, sublist⟩ := some
    rw [pagesOf, flatMap_assoc]
    have once : (storedSlots ordered).Nodup := groups.apart.sublist (sublist.flatMap _)
    exact (perm.flatMap_right _).nodup_iff.mp once
  have applies : ledger.RecordsApply 0 (pagesOf chosen) := by
    apply counted.recordsApply _ distinct _ _ alloc
    · intro page mem
      obtain ⟨entry, inStored, inside⟩ := inPool page mem
      exact (minable entry inStored).occupied page inside
    · intro slot mem
      obtain ⟨page, inPages, touched⟩ := mem_flatMap.mp mem
      obtain ⟨entry, inStored, inside⟩ := inPool page inPages
      exact ((minable entry inStored).inRange slot
        (mem_flatMap.mpr ⟨page, inside, touched⟩)).trans_le wide
    · intro page mem
      obtain ⟨entry, inStored, inside⟩ := inPool page mem
      exact (minable entry inStored).fits page inside
  have notSystem : false = true → ∀ body ∈ pagesOf chosen,
      validateBodySemanticsNoHash body = .ok () := fun impossible => Bool.noConfusion impossible
  obtain ⟨after, run⟩ := represents.foldlM_applyRecord_isOk notSystem applies resident
  exact ⟨after, (ChainState.applyPages_eq_ok user 0).mpr run⟩

def smallChain (logSlots : Nat) : ChainState Digest :=
  .stocked smallHashes.state logSlots smallOutputs

def viewOfSmallChain (logSlots : Nat) : ChainView :=
  { smallView with
    numSlots := 2 ^ logSlots
    logSlots := logSlots
    trySlot := ChainView.slotRead (smallChain logSlots).state fun _ => .error .staleOrUnavailable }

/-- The small spend with its output in the first slot above a domain of depth 24. -/
def upperSpend : TxBody := { smallSpend with outputs := ![⟨2 ^ 24, 50000, 9⟩, .dummy] }

/-- Submit a spend of one page against the state at some depth. -/
def submitPage (logSlots : Nat) (page : TxBody) : AsyncMempoolOp :=
  .submit (.new (viewOfSmallChain logSlots) smallConfig) ⟨[page], [5]⟩
    (pagedSpendIntentMarker :: Wire.leBytes 2 1 ++ encodePageBody page ++ Wire.leBytes 4 1 ++ [5])

theorem smallChain_represents {logSlots : Nat} (positive : 1 ≤ logSlots) (domain : logSlots ≤ 32) :
    (smallChain logSlots).Represents smallHashes.state (.stocked logSlots smallOutputs) ∧
      (smallChain logSlots).state.evicted = [] :=
  represents_stocked _ domain (nodup_singleton 1)
    (forall_mem_singleton.mpr (Nat.one_lt_two_pow (Nat.one_le_iff_ne_zero.mp positive)))

theorem smallChain_counted (logSlots : Nat) : (Ledger.stocked logSlots smallOutputs).Counted := by
  have total := @slotSum_overwrite_empty liveWeight rfl smallOutputs (nodup_singleton 1)
    (forall_mem_singleton.mpr (by rw [slotIndexBound_eq]; norm_num))
  exact total.trans rfl

theorem viewOfSmallChain_of {logSlots : Nat} (pos : 1 ≤ logSlots) (domain : logSlots ≤ 32) :
    (viewOfSmallChain logSlots).Of (smallChain logSlots) (.stocked logSlots smallOutputs) where
  numSlots := (smallChain_represents pos domain).1.numSlots.symm
  reads := by
    refine ⟨fun _ => .error .staleOrUnavailable, ?_, fun _ => rfl⟩
    intro segId columns impossible
    cases impossible

theorem spendsOccupied_iff {body : TxBody} :
    body.SpendsOccupied ↔ ∀ live ∈ body.liveInputs, body.claim live.2 ≠ .empty :=
  Iff.rfl

end Jetsam
