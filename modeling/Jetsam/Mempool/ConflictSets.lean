import Jetsam.Mempool.Admission
import Jetsam.Mempool.Selection

/-!
# The conflict sets of the node's mempool

The two slot sets repeat what the pool holds, with one exception: dropping the transactions of
reverted blocks removes entries and keeps their slots.
-/

namespace Jetsam

open Control List

/-- Slots that the entries of a pool hold on one side. -/
def Mempool.heldSlots (side : List TxBody → List (BitVec 32)) (pool : Mempool) :
    Finset (BitVec 32) :=
  (pool.entries.entries.flatMap fun stored => side stored.2.pages).toFinset

/-- The conflict sets are the slots of the entries in the pool. -/
structure MempoolState.SetsExact (state : MempoolState) : Prop where
  inputs : state.admittedInputSlots = state.pool.heldSlots groupInputSlots
  outputs : state.admittedOutputSlots = state.pool.heldSlots groupOutputSlots

/-- Calls on the node's mempool; a submission carries the state it was first checked against. -/
inductive AsyncMempoolOp where
  | submit (seen : MempoolState) (intent : PagedSpendIntent) (intentBytes : List Wire.Byte)
  | onNewBlock (confirmedHashes : List Digest) (newView : ChainView)
  | updateChainView (view : ChainView)
  | evictUnminableAt (nextHeight : Nat)
  | readmitAfterReorg (txHashes : List Digest)

def AsyncMempoolOp.run (rules : AdmissionRules) (config : MempoolConfig) (state : MempoolState) :
    AsyncMempoolOp → MempoolState
  | submit seen intent intentBytes =>
    (MempoolState.submit rules config seen intent intentBytes state).2
  | onNewBlock confirmedHashes newView => state.onNewBlock rules confirmedHashes newView
  | updateChainView view => state.updateChainView rules view
  | evictUnminableAt nextHeight => state.evictUnminableAt rules nextHeight
  | readmitAfterReorg txHashes => state.readmitAfterReorg txHashes

/-- The state after a history of calls on an empty mempool. -/
def MempoolState.after (rules : AdmissionRules) (config : MempoolConfig) (view : ChainView)
    (history : List AsyncMempoolOp) : MempoolState :=
  history.foldl (AsyncMempoolOp.run rules config) (.new view config)

namespace Mempool

variable {side : List TxBody → List (BitVec 32)} {pool : Mempool} {hash : Digest}
  {entry : MempoolEntry}

theorem mem_heldSlots {slot : BitVec 32} :
    slot ∈ pool.heldSlots side ↔ ∃ stored ∈ pool.entries.entries, slot ∈ side stored.2.pages := by
  rw [heldSlots, mem_toFinset, mem_flatMap]

theorem lookup_entered (pool : Mempool) (hash : Digest) (entry : MempoolEntry) :
    (pool.entered hash entry).entries.lookup hash = some entry :=
  AList.lookup_insert pool.entries

variable {stored : List StoredEntry}

theorem entries_setIntentBytes (newest : pool.entries.entries = ⟨hash, entry⟩ :: stored)
    (bytes : List Wire.Byte) :
    ∃ retained : MempoolEntry, retained.pages = entry.pages ∧ retained.spend = entry.spend ∧
      retained.feeRate = entry.feeRate ∧
      pool.setIntentBytes hash bytes = { pool with entries := pool.entries.replace hash retained } ∧
      (pool.setIntentBytes hash bytes).entries.entries = ⟨hash, retained⟩ :: stored := by
  have found : pool.entries.lookup hash = some entry := by
    rw [AList.lookup, newest, dlookup_cons_eq]
  simp only [setIntentBytes, found]
  exact ⟨_, by rfl, by rfl, by rfl, by rfl, entries_replace_head newest _⟩

theorem heldSlots_of_entries (newest : pool.entries.entries = ⟨hash, entry⟩ :: stored) :
    pool.heldSlots side =
      (stored.flatMap fun other => side other.2.pages).toFinset ∪ (side entry.pages).toFinset := by
  rw [heldSlots, newest, flatMap_cons, toFinset_append, Finset.union_comm]

end Mempool

namespace MempoolState

variable {rules : AdmissionRules} {config : MempoolConfig} {state : MempoolState}

theorem foldl_holdSlots (stored : List StoredEntry) (state : MempoolState) :
    stored.foldl (fun state entry => state.holdSlots entry.2.pages) state =
      { state with
        admittedInputSlots := state.admittedInputSlots ∪
          (stored.flatMap fun entry => groupInputSlots entry.2.pages).toFinset
        admittedOutputSlots := state.admittedOutputSlots ∪
          (stored.flatMap fun entry => groupOutputSlots entry.2.pages).toFinset } := by
  induction stored generalizing state with
  | nil => simp
  | cons entry stored ih =>
    rw [foldl_cons, ih]
    simp [holdSlots, Finset.union_assoc]

theorem rebuildSlotSets_eq (state : MempoolState) :
    state.rebuildSlotSets =
      { state with
        admittedInputSlots := state.pool.heldSlots groupInputSlots
        admittedOutputSlots := state.pool.heldSlots groupOutputSlots } := by
  rw [rebuildSlotSets, foldl_holdSlots]
  simp [Mempool.heldSlots]

theorem SetsExact.resetFloorIfEmpty (exact : state.SetsExact) :
    state.resetFloorIfEmpty.SetsExact := by
  rw [MempoolState.resetFloorIfEmpty]
  split
  · exact ⟨exact.inputs, exact.outputs⟩
  · exact exact

theorem rebuildSlotSets_exact (state : MempoolState) :
    state.rebuildSlotSets.resetFloorIfEmpty.SetsExact := by
  apply SetsExact.resetFloorIfEmpty
  rw [rebuildSlotSets_eq]
  exact ⟨rfl, rfl⟩

variable {intent : PagedSpendIntent} {intentBytes : List Wire.Byte} {spend : PagedSpendFacts}

theorem validatePagedSpend_of_checkIntent
    (checked : checkIntent rules intent intentBytes = .ok spend) :
    validatePagedSpend rules.hasher intent.pages = .ok spend := by
  simp only [checkIntent, bind_eq_ok, require_eq_ok, mapError_eq_ok, pure_eq_ok,
    exists_const] at checked
  obtain ⟨-, -, facts, valid, -, -, rfl⟩ := checked
  exact valid

/-- The state after a group passed the checks of a submission. -/
def admitted (spend : PagedSpendFacts) (entry : MempoolEntry) (intentBytes : List Wire.Byte)
    (state : MempoolState) : MempoolState :=
  let pool := (state.pool.entered spend.logicalTxid entry).setIntentBytes spend.logicalTxid
    intentBytes
  { (state.setPool pool).holdSlots entry.pages with floor := state.floor.record spend.fee.toNat }

theorem admitted_of_submit {seen after : MempoolState} {hash : Digest}
    (returned : submit rules config seen intent intentBytes state = (.ok hash, after)) :
    ∃ spend anchorHeight, checkIntent rules intent intentBytes = .ok spend ∧
      checkAgainst rules config intent intentBytes spend state = .ok anchorHeight ∧
      state.pool.contains spend.logicalTxid = false ∧
      state.admitted spend ⟨intent.pages, spend, state.view.tipHeight,
        MempoolEntry.computeFeeRate spend, 0, []⟩ intentBytes = after ∧
      Mempool.admitPages rules.hasher intent.pages state.view.tipHeight state.pool =
        (.ok (), state.pool.entered spend.logicalTxid ⟨intent.pages, spend, state.view.tipHeight,
          MempoolEntry.computeFeeRate spend, 0, []⟩) := by
  simp only [submit, InPlace.bind_returns, InPlace.get_returns, InPlace.lift_returns,
    InPlace.update_returns, InPlace.mapErr_returns, InPlace.zoom_returns, InPlace.expect_returns,
    InPlace.pure_returns, okOr_eq_ok, exists_const, exists_eq_left', and_assoc,
    exists_and_left, exists_exists_and_eq_and] at returned
  obtain ⟨spend, known, _, -, _, -, anchorHeight, current, ⟨⟩, pool, admission, entry, found, rfl,
    rfl⟩ := returned
  obtain ⟨-, facts, valid, fresh, -, -, rfl⟩ := Mempool.admit_returns.mp admission
  obtain rfl := Except.ok.inj ((validatePagedSpend_of_checkIntent known).symm.trans valid)
  obtain rfl := Option.some.inj ((Mempool.lookup_entered _ _ _).symm.trans found)
  exact ⟨spend, anchorHeight, known, current, fresh, rfl, admission⟩

theorem submit_atomic (seen : MempoolState) (intent : PagedSpendIntent)
    (intentBytes : List Wire.Byte) : (submit rules config seen intent intentBytes).Atomic := by
  intro state
  apply InPlace.AtomicAt.lift_bind
  intro spend _
  apply InPlace.AtomicAt.lift_bind
  intro _ _
  apply InPlace.AtomicAt.lift_bind
  intro _ _
  apply InPlace.AtomicAt.lift_bind
  intro _ _
  apply InPlace.AtomicAt.bind
  · exact ((Mempool.admitPages_atomic _ _ _).zoom rfl).mapErr
  · intro _ middle _
    apply InPlace.Infallible.expect_lift_bind
    intro entry _
    apply InPlace.Infallible.bind (InPlace.update_infallible _)
    intro _ _ _
    apply InPlace.Infallible.bind (InPlace.update_infallible _)
    intro _ _ _
    apply InPlace.Infallible.bind (InPlace.update_infallible _)
    intro _ _ _
    exact InPlace.pure_infallible _

theorem submit_noPanic (seen : MempoolState) (intent : PagedSpendIntent)
    (intentBytes : List Wire.Byte) (state : MempoolState) :
    (submit rules config seen intent intentBytes).NoPanic state := by
  apply InPlace.NoPanic.lift_bind
  intro spend known
  have valid := validatePagedSpend_of_checkIntent known
  apply InPlace.NoPanic.lift_bind
  intro _ _
  apply InPlace.NoPanic.lift_bind
  intro _ _
  apply InPlace.NoPanic.lift_bind
  intro _ _
  apply InPlace.NoPanic.bind
  · exact (Mempool.admit_noPanic _ _ (isOk_eq_true.mpr ⟨spend, valid⟩)).zoom.mapErr
  · intro _ middle entered
    obtain ⟨pool, admission, rfl⟩ := InPlace.zoom_returns.mp (InPlace.mapErr_returns.mp entered)
    obtain ⟨-, facts, same, -, -, -, rfl⟩ := Mempool.admit_returns.mp admission
    obtain rfl := Except.ok.inj (valid.symm.trans same)
    apply InPlace.NoPanic.expect_lift_bind (okOr_eq_ok.mpr (Mempool.lookup_entered _ _ _))
    apply InPlace.NoPanic.bind (InPlace.update_noPanic _)
    intro _ _ _
    apply InPlace.NoPanic.bind (InPlace.update_noPanic _)
    intro _ _ _
    apply InPlace.NoPanic.bind (InPlace.update_noPanic _)
    intro _ _ _
    exact InPlace.pure_noPanic _

theorem SetsExact.admitted (exact : state.SetsExact) {entry : MempoolEntry}
    (fresh : state.pool.contains spend.logicalTxid = false) (intentBytes : List Wire.Byte) :
    (state.admitted spend entry intentBytes).SetsExact := by
  obtain ⟨retained, samePages, -, -, -, newest⟩ :=
    Mempool.entries_setIntentBytes (@Mempool.entries_entered _ _ entry fresh) intentBytes
  constructor
  · exact (congrArg (· ∪ (groupInputSlots entry.pages).toFinset) exact.inputs).trans
      (samePages ▸ (Mempool.heldSlots_of_entries newest).symm)
  · exact (congrArg (· ∪ (groupOutputSlots entry.pages).toFinset) exact.outputs).trans
      (samePages ▸ (Mempool.heldSlots_of_entries newest).symm)

theorem SetsExact.submit (exact : state.SetsExact) (seen : MempoolState)
    (intent : PagedSpendIntent) (intentBytes : List Wire.Byte) :
    (MempoolState.submit rules config seen intent intentBytes state).2.SetsExact := by
  rcases (submit_atomic seen intent intentBytes state).cases
    (submit_noPanic seen intent intentBytes state) with ⟨_, returned⟩ | same
  · obtain ⟨spend, _, -, -, fresh, entered, -⟩ := admitted_of_submit returned
    rw [← entered]
    exact exact.admitted fresh intentBytes
  · rw [same]
    exact exact

theorem evictWhere_zero {condition : MempoolEntry → Bool}
    (nothing : (state.evictWhere condition).1 = 0) : (state.evictWhere condition).2 = state := by
  have none : state.pool.hashesWhere condition = [] := length_eq_zero_iff.mp nothing
  rw [evictWhere, none]
  rfl

theorem evictClientObjectViolations_zero {nextHeight : Nat}
    (nothing : (state.evictClientObjectViolations rules nextHeight).1 = 0) :
    (state.evictClientObjectViolations rules nextHeight).2 = state := by
  rw [evictClientObjectViolations] at nothing ⊢
  split
  · rfl
  · rename_i active
    rw [if_neg active] at nothing
    exact evictWhere_zero nothing

theorem SetsExact.evictUnminableAt (exact : state.SetsExact) (nextHeight : Nat) :
    (state.evictUnminableAt rules nextHeight).SetsExact := by
  rw [MempoolState.evictUnminableAt]
  rcases outcome : state.evictClientObjectViolations rules nextHeight with ⟨evicted, left⟩
  dsimp only
  split
  · exact rebuildSlotSets_exact left
  · rename_i nothing
    have none : (state.evictClientObjectViolations rules nextHeight).1 = 0 := by
      rw [outcome]
      exact Nat.eq_zero_of_not_pos nothing
    have same : left = state := by
      rw [← evictClientObjectViolations_zero none, outcome]
    rw [same]
    exact exact

theorem removeAll_of_absent {pool : Mempool} {hashes : List Digest}
    (absent : ∀ hash ∈ hashes, pool.contains hash = false) : pool.removeAll hashes = pool := by
  induction hashes with
  | nil => rfl
  | cons hash hashes ih =>
    have missing : pool.entries.lookup hash = none := by
      simpa [Mempool.contains] using absent hash mem_cons_self
    have here : (pool.remove hash).2 = pool := by rw [Mempool.remove, missing]
    rw [Mempool.removeAll, foldl_cons, here]
    exact ih fun other mem => absent other (mem_cons_of_mem hash mem)

theorem SetsExact.readmitAfterReorg (exact : state.SetsExact) {txHashes : List Digest}
    (absent : ∀ hash ∈ txHashes, state.pool.contains hash = false) :
    (state.readmitAfterReorg txHashes).SetsExact := by
  rw [MempoolState.readmitAfterReorg, removeAll_of_absent absent]
  split
  · exact exact
  · exact exact.resetFloorIfEmpty

/-- No call drops a reverted transaction that is in the pool. -/
def ReadmitsAbsent (state : MempoolState) : AsyncMempoolOp → Prop
  | .readmitAfterReorg txHashes => ∀ hash ∈ txHashes, state.pool.contains hash = false
  | _ => True

theorem SetsExact.run (exact : state.SetsExact) {op : AsyncMempoolOp}
    (absent : state.ReadmitsAbsent op) : (op.run rules config state).SetsExact := by
  cases op with
  | submit seen intent intentBytes => exact exact.submit seen intent intentBytes
  | onNewBlock confirmedHashes newView => exact rebuildSlotSets_exact _
  | updateChainView view =>
    have moved : ({ state with view := view } : MempoolState).SetsExact :=
      ⟨exact.inputs, exact.outputs⟩
    exact moved.evictUnminableAt _
  | evictUnminableAt nextHeight => exact exact.evictUnminableAt nextHeight
  | readmitAfterReorg txHashes => exact exact.readmitAfterReorg absent

theorem after_concat (view : ChainView) (history : List AsyncMempoolOp) (op : AsyncMempoolOp) :
    after rules config view (history ++ [op]) =
      op.run rules config (after rules config view history) :=
  foldl_concat _ _ _ _

theorem setsExact_after (view : ChainView) {history : List AsyncMempoolOp}
    (absent : ∀ past op, past ++ [op] <+: history →
      (after rules config view past).ReadmitsAbsent op) :
    (after rules config view history).SetsExact := by
  induction history using List.reverseRecOn with
  | nil => exact ⟨rfl, rfl⟩
  | append_singleton history op ih =>
    rw [after_concat]
    apply SetsExact.run
    · exact ih fun past op earlier => absent past op (earlier.trans (prefix_append _ _))
    · exact absent history op (prefix_refl _)

theorem SetsExact.conflict (exact : state.SetsExact) {pages : List TxBody} {error : SubmitError}
    (refused : checkSlotConflictsWithPool pages state.admittedInputSlots state.admittedOutputSlots =
      .error error) :
    ∃ stored ∈ state.pool.entries.entries,
      (∃ slot ∈ groupInputSlots pages, slot ∈ groupInputSlots stored.2.pages) ∨
        ∃ slot ∈ groupOutputSlots pages, slot ∈ groupOutputSlots stored.2.pages := by
  by_contra apart
  push Not at apart
  rw [checkSlotConflictsWithPool, require, if_pos] at refused
  · cases refused
  · simp only [all_eq_true, Bool.and_eq_true, decide_eq_true_eq]
    intro page mem
    constructor
    · intro slot live held
      rw [exact.inputs, Mempool.mem_heldSlots] at held
      obtain ⟨stored, known, holds⟩ := held
      exact (apart stored known).1 slot (mem_flatMap.mpr ⟨page, mem, live⟩) holds
    · intro slot live held
      rw [exact.outputs, Mempool.mem_heldSlots] at held
      obtain ⟨stored, known, holds⟩ := held
      exact (apart stored known).2 slot (mem_flatMap.mpr ⟨page, mem, live⟩) holds

/-- In every history that drops only reverted transactions outside the pool, the conflict sets are
the slots of the entries in the pool. -/
theorem conflictSets_after_history (rules : AdmissionRules) (config : MempoolConfig)
    (view : ChainView) (history : List AsyncMempoolOp)
    (absent : ∀ past op, past ++ [op] <+: history →
      (after rules config view past).ReadmitsAbsent op) :
    ∀ past, past <+: history →
      (after rules config view past).SetsExact ∧
        ∀ pages error, checkSlotConflictsWithPool pages
            (after rules config view past).admittedInputSlots
            (after rules config view past).admittedOutputSlots = .error error →
          ∃ stored ∈ (after rules config view past).pool.entries.entries,
            (∃ slot ∈ groupInputSlots pages, slot ∈ groupInputSlots stored.2.pages) ∨
              ∃ slot ∈ groupOutputSlots pages, slot ∈ groupOutputSlots stored.2.pages := by
  intro past reached
  have exact : (after rules config view past).SetsExact :=
    setsExact_after view fun earlier op step => absent earlier op (step.trans reached)
  exact ⟨exact, fun pages error refused => exact.conflict refused⟩

end MempoolState

/-- Rules under which every authorization verifies and no clock has started. -/
def openAdmission : AdmissionRules where
  hasher := feeHasher
  schedule := ⟨none, none, none⟩
  batch := ⟨none, none, 0, []⟩
  verifyIntentAuthorization := fun _ _ => .ok ()

/-- A mempool for ten groups. -/
def smallConfig : MempoolConfig where
  capacity := 10
  maxTotalIntentBytes := 10000
  feeFloorWindow := 50
  clientObjectRules := ⟨none, 0, .burn, 0, 0, none, 0, 0, 0, 0, []⟩

/-- A chain on which the input of the small spend is live. -/
def smallView : ChainView where
  tipHeight := 1
  numSlots := 2 ^ 24
  activeSlotCount := 1
  logSlots := 24
  userEpochAnchorId := 1
  previousUserEpochAnchorId := 1
  trySlot := fun index =>
    .ok (if index = 1 then .withOwnerFields 100000 1 (asFields 7) else .empty)

/-- The small spend with a one-byte authorization. -/
def smallIntent : PagedSpendIntent := ⟨[smallSpend], [5]⟩

def smallIntentBytes : List Wire.Byte :=
  pagedSpendIntentMarker :: Wire.leBytes 2 1 ++ encodePageBody smallSpend ++ Wire.leBytes 4 1 ++ [5]

def submitSmallSpend : AsyncMempoolOp :=
  .submit (.new smallView smallConfig) smallIntent smallIntentBytes

/-- Submit the small spend, and drop it as a transaction of a reverted block. -/
def revertedSmallSpend : List AsyncMempoolOp :=
  [submitSmallSpend, .readmitAfterReorg [smallEntry.spend.logicalTxid]]

/-- The pool is empty, yet the slots are still held and the same spend is refused. -/
theorem conflictSets_stale_after_reorg :
    let state := MempoolState.after openAdmission smallConfig smallView revertedSmallSpend
    ¬state.SetsExact ∧ state.pool.len = 0 ∧ state.admittedInputSlots = {1} ∧
      state.admittedOutputSlots = {2} ∧
      (checkSlotConflictsWithPool [smallSpend] state.admittedInputSlots
        state.admittedOutputSlots).isOk = false := by
  constructor
  · intro exact
    have same := exact.inputs
    revert same
    decide +kernel
  · decide +kernel

theorem conflictSets_after_smallSpend :
    let history := [submitSmallSpend, .readmitAfterReorg [0]]
    (MempoolState.after openAdmission smallConfig smallView history).admittedInputSlots = {1} ∧
      (MempoolState.after openAdmission smallConfig smallView history).SetsExact := by
  refine ⟨by decide +kernel, (MempoolState.conflictSets_after_history openAdmission smallConfig
    smallView _ ?_ _ (List.prefix_refl _)).1⟩
  rintro past op ⟨rest, split⟩
  rcases past with _ | ⟨first, _ | ⟨second, past⟩⟩
  · obtain ⟨rfl, -⟩ := List.cons.inj split
    trivial
  · obtain ⟨rfl, later⟩ := List.cons.inj split
    obtain ⟨rfl, -⟩ := List.cons.inj later
    intro hash listed
    rw [List.mem_singleton.mp listed]
    decide +kernel
  · simp at split

end Jetsam
