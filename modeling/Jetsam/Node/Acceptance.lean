import Jetsam.Block.Occupancy
import Jetsam.Consensus.Admission

/-!
# Accepting blocks

A node keeps the slot state, the client registry and the tip header. It accepts a block when the
native checks, the client-object rules and the state transition all pass.
-/

namespace Jetsam

open Control List

structure NodeState (D : Type) where
  chain : ChainState D
  registry : ClientRegistryState
  tip : BlockHeader D

inductive NodeError where
  | checks (error : ConsensusError)
  | clientObjects (error : ClientObjectError)
  | apply (error : BlockApplyError)
  deriving DecidableEq

variable {D : Type}

/-- The built-in genesis header: the empty domain at height zero. -/
def genesisHeader (hasher : StateHasher D) : BlockHeader D where
  prevBlockHash := 0
  stateRoot := hasher.zeroSlotRoot stateLogSlots
  txRoot := 0
  timestamp := 1787328000
  height := 0
  minerAddress := 0
  nonce := 131160
  difficultyTarget := 1 <<< 238
  logSlots := stateLogSlots
  activeSlotCount := 0
  allocCounter := 0

namespace NodeState

def genesis (hasher : StateHasher D) : NodeState D where
  chain := .new hasher
  registry := ⟨[]⟩
  tip := genesisHeader hasher

def acceptBlock [DecidableEq D] (hashes : ChainHashes D) (rules : ConsensusRules D)
    (node : NodeState D)
    (block : Block D) (finalizedActiveCounts : List Nat) : Except NodeError (NodeState D) := do
  mapError .checks (validateBlockChecksInner hashes rules true block node.tip finalizedActiveCounts
    (node.registry.licenseDividendAt block.header.height rules.client))
  let effect ← mapError .clientObjects (validateBlockClientObjectsWith hashes rules.client
    rules.batch block block.clientObjects node.tip node.registry)
  let (chain, _) ← mapError .apply (node.chain.applyBlock hashes block)
  pure { chain, registry := node.registry.apply effect.registrations, tip := block.header }

/-- The nodes reached from genesis by accepting the listed blocks, oldest first. -/
inductive AcceptedRun [DecidableEq D] (hashes : ChainHashes D) (rules : ConsensusRules D) :
    List (Block D) → NodeState D → Prop
  | genesis : AcceptedRun hashes rules [] (genesis hashes.state)
  | block {blocks : List (Block D)} {node next : NodeState D} {block : Block D}
      {finalizedActiveCounts : List Nat} :
      AcceptedRun hashes rules blocks node →
      node.acceptBlock hashes rules block finalizedActiveCounts = .ok next →
      AcceptedRun hashes rules (blocks ++ [block]) next

end NodeState

variable {blocks : List (Block D)}

namespace NodeState

variable {hashes : ChainHashes D} {rules : ConsensusRules D} {node next : NodeState D}
  {ledger : Ledger} {block : Block D}

def genesisLedger : Ledger := ⟨stateLogSlots, fun _ => .empty, 0, 0⟩

/-- The node stands for the ledger, with everything in memory and the tip committing to it. -/
structure Sound (hashes : ChainHashes D) (node : NodeState D) (ledger : Ledger) : Prop where
  represents : node.chain.Represents hashes.state ledger
  rooted : node.chain.Rooted hashes.state ledger.slots
  resident : node.chain.state.evicted = []
  logSlots : node.tip.logSlots = ledger.logSlots
  active : node.tip.activeSlotCount = ledger.activeSlotCount
  alloc : node.tip.allocCounter = ledger.allocCounter

theorem sound_genesis (hashes : ChainHashes D) :
    (genesis hashes.state).Sound hashes genesisLedger where
  represents :=
    { coherent := ChainState.coherent_withLogSlots hashes.state stateLogSlots
      synced := rfl
      logSlots := rfl
      active := rfl
      alloc := rfl
      supply := (slotSum_empty SlotValue.amount_empty_toNat).symm }
  rooted := (StateHasher.slotRoot_empty _).symm
  resident := rfl
  logSlots := rfl
  active := rfl
  alloc := rfl

structure BlockAccepted (hashes : ChainHashes D) (rules : ConsensusRules D)
    (node next : NodeState D) (ledger : Ledger) (block : Block D)
    (finalizedActiveCounts : List Nat) (layout : BlockLayout) (effect : ClientObjectsEffect) :
    Prop where
  applied : ChainState.BlockApplied hashes node.chain next.chain ledger block layout
  checks : ChecksPassed rules block node.tip finalizedActiveCounts
    (node.registry.licenseDividendAt block.header.height rules.client) layout
  objects : validateBlockClientObjectsWith hashes rules.client rules.batch block
    block.clientObjects node.tip node.registry = .ok effect
  registry : next.registry = node.registry.apply effect.registrations
  tip : next.tip = block.header
  sound : next.Sound hashes (ledger.afterBlock block)

theorem Sound.acceptBlock [DecidableEq D] {finalizedActiveCounts : List Nat}
    (sound : node.Sound hashes ledger)
    (accepted : node.acceptBlock hashes rules block finalizedActiveCounts = .ok next) :
    ∃ layout effect, BlockAccepted hashes rules node next ledger block finalizedActiveCounts layout
      effect := by
  simp only [NodeState.acceptBlock, bind_eq_ok, mapError_eq_ok, pure_eq_ok, Prod.exists] at accepted
  obtain ⟨_, checks, effect, objects, chain, root, done, rfl⟩ := accepted
  obtain ⟨layout, applied⟩ := sound.represents.applyBlock done
  refine ⟨layout, effect, applied, validateBlockChecksInner_eq_ok applied.records applied.accepted
    checks, objects, rfl, rfl, applied.represents, applied.rooted, ?_, ?_, ?_, ?_⟩
  · exact applied.evicted.trans sound.resident
  · simp [Ledger.afterBlock, Ledger.atDepth]
  · exact applied.activeSlotCount
  · exact applied.allocCounter

theorem Sound.slot_eq (sound : node.Sound hashes ledger) :
    node.chain.state.slot = ledger.slots := by
  funext index
  refine sound.represents.coherent.holds.slot_eq ?_
  simp [sound.resident]

def ledgerAfter (blocks : List (Block D)) : Ledger :=
  blocks.foldl Ledger.afterBlock genesisLedger

theorem AcceptedRun.sound [DecidableEq D] (run : AcceptedRun hashes rules blocks node) :
    node.Sound hashes (ledgerAfter blocks) ∧ node.tip.height = blocks.length := by
  induction run with
  | genesis => exact ⟨sound_genesis hashes, rfl⟩
  | block _ accepted ih =>
    obtain ⟨sound, height⟩ := ih
    obtain ⟨layout, effect, done⟩ := sound.acceptBlock accepted
    refine ⟨?_, ?_⟩
    · rw [ledgerAfter, foldl_append]
      exact done.sound
    · rw [done.tip, done.checks.height, height, length_append, length_singleton]

end NodeState

theorem NodeState.AcceptedRun.tip [DecidableEq D] {hashes : ChainHashes D}
    {rules : ConsensusRules D} {node : NodeState D} (run : AcceptedRun hashes rules blocks node) :
    node.tip = (blocks.getLast?.map Block.header).getD (genesisHeader hashes.state) := by
  cases run with
  | genesis => rfl
  | block earlier accepted =>
    obtain ⟨layout, effect, done⟩ := earlier.sound.1.acceptBlock accepted
    simp [done.tip]

section Sample

/-- Symbolic state hashes, and constant hashes where only identities are compared. -/
def sampleHashes : ChainHashes SymbolicDigest where
  state := symbolicHasher
  tx := ⟨fun _ => 0, id⟩
  tree := ⟨fun _ _ => 0, fun _ _ => 0⟩
  blockId := fun _ => 0
  commitment := fun _ => 0

/-- No checkpoints, no objects, and headers that need no work. -/
def sampleRules : ConsensusRules SymbolicDigest where
  checkpoints := []
  expectedTarget := fun _ _ => 0
  timestampValid := fun _ _ => true
  powValid := fun _ => true
  v1_5Activation := none
  client := ⟨none, 0, .burn, 0, 0, none, 0, 0, 0, 0, []⟩
  batch := ⟨none, none, 0, []⟩

section

local instance neZeroTwo : NeZero 2 := ⟨two_ne_zero⟩

/-- A child of a header with the given records, its commitments taken from the ledger. -/
def sampleBlock (parent : BlockHeader SymbolicDigest) (ledger : Ledger) (layout : BlockLayout) :
    Block SymbolicDigest where
  header :=
    let after := ledger.applyRecords (parent.height + 1) layout.records
    { prevBlockHash := 0
      stateRoot := symbolicHasher.slotRoot parent.logSlots after.slots
      txRoot := 0
      timestamp := 0
      height := parent.height + 1
      minerAddress := (layout.coinbase.outputs 0).owner
      nonce := 0
      difficultyTarget := 0
      logSlots := parent.logSlots
      activeSlotCount := after.activeSlotCount
      allocCounter := after.allocCounter }
  transactions := layout.records
  clientObjects := []

end

/-- The hashes of the small deployment over another commitment to objects. -/
def objectHashes (commitment : ClientObject → Digest) : ChainHashes SymbolicDigest :=
  { sampleHashes with commitment }

/-- The rules of the small deployment with object rules. -/
def objectRules (client : ClientObjectRules) (batch : ClientBatchRules) :
    ConsensusRules SymbolicDigest :=
  { sampleRules with client, batch }

/-- Such a child that carries objects. -/
def objectBlock (parent : BlockHeader SymbolicDigest) (ledger : Ledger) (layout : BlockLayout)
    (objects : List ClientObject) : Block SymbolicDigest :=
  { sampleBlock parent ledger layout with clientObjects := objects }

theorem NodeState.Sound.accept_objectBlock {node : NodeState SymbolicDigest} {ledger : Ledger}
    {layout : BlockLayout} {commitment : ClientObject → Digest} {client : ClientObjectRules}
    {batch : ClientBatchRules} {objects : List ClientObject} {effect : ClientObjectsEffect}
    (sound : node.Sound (objectHashes commitment) ledger)
    (depth : 1 ≤ ledger.logSlots ∧ ledger.logSlots ≤ 32) (accepted : layout.Accepted)
    (bounded : ResourcesBounded layout.records)
    (carried : validateObjectSection client (objectBlock node.tip ledger layout objects) = .ok ())
    (distinct : (layout.records.flatMap TxBody.touched).Nodup)
    {allocation : DevelopmentAllocation}
    (allocated : developmentAllocationWith (node.tip.height + 1) none = .ok allocation)
    (valid : SystemRecordsValid 0 (layout.coinbase.outputs 0).owner allocation.payoutEach layout)
    (paid : FeesPaid node.tip layout.groups)
    (ceiling : (layout.coinbase.outputs 0).amount.toNat ≤
      minerSubsidyWith (node.tip.height + 1) none + claimableFees node.tip layout.groups)
    (applies : ledger.RecordsApply (node.tip.height + 1) layout.records)
    (judged : validateBlockClientObjectsWith (objectHashes commitment) client batch
      (objectBlock node.tip ledger layout objects) objects node.tip node.registry = .ok effect) :
    ∃ next, node.acceptBlock (objectHashes commitment) (objectRules client batch)
      (objectBlock node.tip ledger layout objects) [] = .ok next := by
  have sameDepth : ledger.atDepth node.tip.logSlots = ledger := by
    rw [sound.logSlots]
    rfl
  have inRange := ((Ledger.recordsApply_iff distinct).mp applies).1
  have header : validateHeaderInner (objectHashes commitment) (objectRules client batch) true
      (objectBlock node.tip ledger layout objects).header node.tip [] = .ok () := by
    have stays : expectedChildLogSlots node.tip.height node.tip.logSlots [] =
        node.tip.logSlots := by
      rw [expectedChildLogSlots]
      split_ifs <;> rfl
    simp only [validateHeaderInner, checkHardCheckpoint, objectRules, objectHashes, objectBlock,
      sampleRules, sampleHashes, sampleBlock, stays, bind_eq_ok, require_eq_ok, exists_const]
    simp
  have checks := @validateBlockChecksInner_isOk _ (objectHashes commitment)
    (objectRules client batch) true (objectBlock node.tip ledger layout objects) node.tip []
    (node.registry.licenseDividendAt (node.tip.height + 1) client) layout allocation
    rfl accepted carried header (by rw [objectBlock, sampleBlock, sound.logSlots]; exact depth)
    (by rw [objectBlock, sampleBlock, sound.logSlots]; exact inRange) bounded distinct allocated
    valid paid (ceiling.trans (Nat.le_add_right _ _))
  obtain ⟨⟨chain, root⟩, applied⟩ := @ChainState.Represents.applyBlock_isOk _ node.chain ledger _
    (objectHashes commitment) (objectBlock node.tip ledger layout objects) layout node.chain
    sound.represents rfl accepted valid.canonical distinct sound.logSlots.ge
    (by rw [objectBlock, sampleBlock, sound.logSlots, Nat.sub_self]; rfl)
    (by simpa only [objectBlock, sampleBlock, sameDepth] using applies)
    (by intro slot _; rw [sound.resident]; exact not_mem_nil)
    (by simp only [Ledger.afterBlock, objectBlock, sampleBlock, sameDepth]; rfl)
    (by simp only [Ledger.afterBlock, objectBlock, sampleBlock, sameDepth])
    (by simp only [Ledger.afterBlock, objectBlock, sampleBlock, sameDepth])
    (accepted.tryComputeTxRoot _ _)
  apply bind_isOk (mapError_eq_ok.mpr checks)
  apply bind_isOk (mapError_eq_ok.mpr judged)
  exact bind_isOk (mapError_eq_ok.mpr applied) ⟨_, rfl⟩

/-- The layout of a block that only pays its reward, to the zero address. -/
def mintLayout (slot : BitVec 32) : BlockLayout := ⟨.primaryCoinbase 0 slot 45000000 0, none, []⟩

def firstBlock : Block SymbolicDigest :=
  sampleBlock (genesisHeader symbolicHasher) NodeState.genesisLedger (mintLayout 0)

variable (slot : BitVec 32)

theorem accepted_mintLayout : (mintLayout slot).Accepted where
  primary := TxBody.isPrimaryCoinbaseShape_primaryCoinbase _ _ _ _
  development := by simp [mintLayout]
  stream := ⟨rfl, by simp [mintLayout], Nat.zero_le _, Nat.zero_le _, nodup_nil,
    nodup_nil, by simp [mintLayout, BlockLayout.pages, groupInputSlots]⟩
  pageLimit := Nat.zero_le _

theorem touched_mintLayout :
    (mintLayout slot).records.flatMap TxBody.touched = [slot] := by
  change (TxBody.primaryCoinbase 0 slot 45000000 0).touched ++ [] = [slot]
  rw [TxBody.touched_primaryCoinbase, append_nil]

theorem spendsOccupied_mintLayout :
    ∀ body ∈ (mintLayout slot).records, body.SpendsOccupied := by
  refine forall_mem_singleton.mpr fun live mem => ?_
  rw [mintLayout, TxBody.liveInputs_primaryCoinbase] at mem
  cases mem

theorem applies_mintLayout {logSlots : Nat} {slot : BitVec 32}
    (inRange : slot.toNat < 2 ^ logSlots) :
    (NodeState.genesisLedger.atDepth logSlots).RecordsApply 1 (mintLayout slot).records := by
  have mints := TxBody.liveOutputs_primaryCoinbase 0 slot 45000000 0
  have spends := TxBody.liveInputs_primaryCoinbase 0 slot 45000000 0
  have touched := TxBody.touched_primaryCoinbase 0 slot 45000000 0
  refine ⟨⟨?_, ?_, ?_, fun _ _ => rfl, ?_, ?_, ?_⟩, trivial⟩
  · rw [mintLayout, touched]
    exact nodup_singleton _
  · rw [mintLayout, touched]
    exact forall_mem_singleton.mpr inRange
  · rw [mintLayout, spends]
    exact fun _ impossible => absurd impossible not_mem_nil
  all_goals
    simp only [mintLayout, TxBody.liveInputCount_eq, TxBody.liveOutputCount_eq, mints, spends]
    simp [Ledger.atDepth, NodeState.genesisLedger, u64Bound]

theorem firstBlock_run :
    ∃ node, NodeState.AcceptedRun sampleHashes sampleRules [firstBlock] node := by
  have bounded : ResourcesBounded (mintLayout 0).records := by
    refine ⟨?_, by decide, by decide, by decide⟩
    decide
  obtain ⟨node, accepted⟩ := @NodeState.Sound.accept_objectBlock _ _ _ (fun _ => 0)
    sampleRules.client sampleRules.batch [] ⟨[], none, none, 0⟩
    (NodeState.sound_genesis sampleHashes) (by decide) (accepted_mintLayout 0) bounded rfl
    (by decide) _ (show developmentAllocationWith 1 none =
      .ok ⟨true, false, 2500000, none, 45000000⟩ by decide)
    (systemRecordsValid_primaryCoinbase _ _ _ _ _) (by simp [FeesPaid, mintLayout])
    (by decide) (applies_mintLayout (show 0 < 2 ^ 24 by norm_num)) rfl
  exact ⟨node, NodeState.AcceptedRun.genesis.block accepted⟩

end Sample

end Jetsam
