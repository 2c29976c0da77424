import Jetsam.Client.Branch
import Jetsam.Consensus.Expansion
import Jetsam.Node.Identity
import Jetsam.Node.Rollback
import Jetsam.Storage.Serial

/-!
# Stored blocks

The node stores a header and an undo log per height. It finalises eight blocks below the tip, and
the logs sixteen blocks below go. A reorganisation undoes blocks with their logs, newest first, and
stages its replacement over the ancestor.
-/

namespace Jetsam

open Control List NodeState

/-- Newest heights whose undo logs stay in the store. -/
def undoRetentionDepth : Nat := 16

/-- A block that no reorganisation replaces. -/
structure FinalizedCheckpoint where
  height : Nat
  hash : Digest

/-- The tables that a reorganisation reads, by height. -/
structure MdbxStore (D : Type) where
  headers : Nat → Option (BlockHeader D)
  undoLogs : Nat → Option (List Wire.Byte)

/-- A node with its store. -/
structure MdbxChainContext (D : Type) where
  node : NodeState D
  store : MdbxStore D
  finalized : FinalizedCheckpoint

inductive MdbxContextError where
  | node (error : NodeError)
  | corrupt (reason : String)

structure ReorgResult where
  revertedHeights : List Nat
  appliedHeights : List Nat
  reclaimedTxHashes : List Digest

variable {D : Type}

namespace MdbxStore

section

variable (store : MdbxStore D)

def getUndoLog (height : Nat) : Option BlockUndoLog :=
  (store.undoLogs height).bind decodeUndoLog

/-- Store the rows of one block. -/
def putBlock (header : BlockHeader D) (undo : BlockUndoLog) : MdbxStore D where
  headers := Function.update store.headers header.height (some header)
  undoLogs := Function.update store.undoLogs header.height (some (encodeUndoLog undo))

/-- Delete the rows between an ancestor and the old tip. -/
def truncateReorgSuffix (ancestor oldTip : Nat) : MdbxStore D where
  headers height := if ancestor < height ∧ height ≤ oldTip then none else store.headers height
  undoLogs height := if ancestor < height ∧ height ≤ oldTip then none else store.undoLogs height

def pruneAfterCommit (currentHeight : Nat) : MdbxStore D :=
  if undoRetentionDepth < currentHeight then
    { store with undoLogs := fun height =>
        if height ≤ currentHeight - undoRetentionDepth then none else store.undoLogs height }
  else store

@[simp]
theorem headers_pruneAfterCommit (currentHeight : Nat) :
    (store.pruneAfterCommit currentHeight).headers = store.headers := by
  rw [pruneAfterCommit]
  split_ifs <;> rfl

theorem getUndoLog_pruneAfterCommit {height currentHeight : Nat}
    (recent : currentHeight < height + undoRetentionDepth) :
    (store.pruneAfterCommit currentHeight).getUndoLog height = store.getUndoLog height := by
  rw [pruneAfterCommit]
  split_ifs with long
  · have kept : ¬height ≤ currentHeight - undoRetentionDepth := by omega
    simp [getUndoLog, kept]
  · rfl

theorem isSome_undoLogs_pruneAfterCommit {height currentHeight : Nat}
    (kept : ((store.pruneAfterCommit currentHeight).undoLogs height).isSome) :
    (store.undoLogs height).isSome ∧
      currentHeight ≤ max undoRetentionDepth (height + undoRetentionDepth - 1) := by
  rw [pruneAfterCommit] at kept
  split_ifs at kept with long
  · dsimp only at kept
    split_ifs at kept with old
    · cases kept
    · exact ⟨kept, by omega⟩
  · exact ⟨kept, by omega⟩

end

end MdbxStore

/-- The heights between an ancestor and the tip, newest first. -/
def reorgHeights (ancestor tip : Nat) : List Nat := (range' (ancestor + 1) (tip - ancestor)).reverse

theorem reorgHeights_concat (prior suffix : List (Block D)) (block : Block D) :
    reorgHeights prior.length (prior ++ (suffix ++ [block])).length =
      ((prior ++ suffix).length + 1) :: reorgHeights prior.length (prior ++ suffix).length := by
  simp only [reorgHeights, length_append, length_singleton, Nat.add_sub_cancel_left]
  rw [range'_concat, reverse_append, reverse_singleton, singleton_append]
  congr 1
  omega

def FinalizedCheckpoint.forTip (hashes : ChainHashes D) (store : MdbxStore D)
    (finalized : FinalizedCheckpoint) (tipHeight : Nat) :
    Except MdbxContextError FinalizedCheckpoint :=
  let height := tipHeight - consensusFinalityDepth
  if height ≤ finalized.height then pure finalized
  else do
    let header ← okOr (store.headers height) (.corrupt "missing header for finalized checkpoint")
    pure ⟨height, hashes.blockId header⟩

namespace MdbxChainContext

section Operations

variable [DecidableEq D] (hashes : ChainHashes D) (rules : ConsensusRules D)

/-- Accept a block in memory and write its rows. -/
def stageBlock (staged : NodeState D × MdbxStore D) (next : Block D × List Nat) :
    Except MdbxContextError (NodeState D × MdbxStore D) := do
  let node ← mapError .node (staged.1.acceptBlock hashes rules next.1 next.2)
  let undo ← mapError
    (fun _ => .corrupt "accepted block has a non-canonical logical tx stream")
    (buildUndoLog hashes staged.1.chain next.1)
  pure (node, staged.2.putBlock next.1.header undo)

/-- Commit what is staged: the checkpoint follows the tip and old logs go. -/
def commitStaged (finalized : FinalizedCheckpoint) (staged : NodeState D × MdbxStore D) :
    Except MdbxContextError (MdbxChainContext D) := do
  let finalized ← finalized.forTip hashes staged.2 staged.1.tip.height
  pure ⟨staged.1, staged.2.pruneAfterCommit staged.1.tip.height, finalized⟩

def applyNextBlock (context : MdbxChainContext D) (block : Block D)
    (finalizedActiveCounts : List Nat) : Except MdbxContextError (MdbxChainContext D) := do
  let staged ← stageBlock hashes rules (context.node, context.store) (block, finalizedActiveCounts)
  commitStaged hashes context.finalized staged

/-- Undo the block at one height and compare with the header below it. -/
def revertHeight (store : MdbxStore D) (reverted : ChainState D × List Digest) (height : Nat) :
    Except MdbxContextError (ChainState D × List Digest) := do
  let undo ← okOr (store.getUndoLog height) (.corrupt "validated reorg undo disappeared")
  let chain ← mapError
    (fun
      | .apply _ => .corrupt "circulating supply reorg rollback failed"
      | .resize _ => .corrupt "state shrink after reorg failed")
    (reverted.1.rollback undo)
  let (chain, _) ← mapError (fun _ => .corrupt "exact root rebuild after reorg failed")
    (chain.tryStateRoot hashes.state)
  let parent ← okOr (store.headers (height - 1)) (.corrupt "reorg parent header missing")
  require (undo.logSlotsBefore = parent.logSlots ∧ chain.state.logSlots = parent.logSlots ∧
      chain.utxoRoot = parent.stateRoot ∧ chain.activeSlotCount = parent.activeSlotCount ∧
      chain.allocCounter = parent.allocCounter)
    (.corrupt "reorg undo does not restore parent header state")
  pure (chain, reverted.2 ++ undo.txHashes)

/-- The ancestor lies on the branch, not below the checkpoint. -/
def checkAncestor (context : MdbxChainContext D) (ancestor : Nat) :
    Except MdbxContextError Unit := do
  require (ancestor ≤ context.node.tip.height) (.node (.checks .badParentHash))
  require (context.finalized.height ≤ ancestor) (.node (.checks .badParentHash))
  if ancestor = context.finalized.height then
    let header ← okOr (context.store.headers ancestor)
      (.corrupt "finalized ancestor header missing")
    require (hashes.blockId header = context.finalized.hash) (.node (.checks .badParentHash))
  require (context.node.tip.height - ancestor ≤ consensusFinalityDepth)
    (.node (.checks .badParentHash))

/-- Undo the blocks above an ancestor, newest first, once all their logs are found. -/
def revertTo (context : MdbxChainContext D) (ancestor : Nat) :
    Except MdbxContextError (NodeState D × List Digest) := do
  let store := context.store
  let heights := reorgHeights ancestor context.node.tip.height
  let header ← okOr (store.headers ancestor) (.corrupt "ancestor header missing from store")
  require (ancestor = 0 ∨ (store.getUndoLog ancestor).isSome)
    (.corrupt "reorg ancestor undo log missing")
  heights.forM fun height => require (store.getUndoLog height).isSome
    (.corrupt "undo log missing: reorg aborted before any state modification")
  let (chain, reclaimed) ← heights.foldlM (revertHeight hashes store) (context.node.chain, [])
  pure (⟨chain, context.node.registry.truncateAbove ancestor, header⟩, reclaimed)

/-- Replace the blocks above an ancestor. -/
def applyReorg (context : MdbxChainContext D) (ancestor : Nat)
    (replacement : List (Block D × List Nat)) :
    Except MdbxContextError (MdbxChainContext D × ReorgResult) := do
  let tip := context.node.tip.height
  context.checkAncestor hashes ancestor
  if tip - ancestor = 0 then pure (context, ⟨[], [], []⟩)
  else
    let (node, reclaimed) ← context.revertTo hashes ancestor
    let staged ← replacement.foldlM (stageBlock hashes rules)
      (node, context.store.truncateReorgSuffix ancestor tip)
    let next ← commitStaged hashes context.finalized staged
    pure (next, ⟨reorgHeights ancestor tip, replacement.map (·.1.header.height), reclaimed⟩)

def genesis : MdbxChainContext D where
  node := .genesis hashes.state
  store := MdbxStore.putBlock ⟨fun _ => none, fun _ => none⟩ (genesisHeader hashes.state)
    ⟨0, stateLogSlots, 0, 0, [], []⟩
  finalized := ⟨0, hashes.blockId (genesisHeader hashes.state)⟩

/-- One commit or reorganisation of blocks whose heights fit their wire field. -/
inductive Step : MdbxChainContext D → MdbxChainContext D → Prop
  | commit {context next : MdbxChainContext D} {block : Block D}
      {finalizedActiveCounts : List Nat} :
      block.header.height < u64Bound →
      context.applyNextBlock hashes rules block finalizedActiveCounts = .ok next → Step context next
  | reorg {context next : MdbxChainContext D} {ancestor : Nat}
      {replacement : List (Block D × List Nat)} {result : ReorgResult} :
      (∀ block ∈ replacement, block.1.header.height < u64Bound) →
      context.applyReorg hashes rules ancestor replacement = .ok (next, result) → Step context next

end Operations

end MdbxChainContext

/-- The header of the last block of a chain. -/
def tipOf (hashes : ChainHashes D) (blocks : List (Block D)) : BlockHeader D :=
  (blocks.getLast?.map Block.header).getD (genesisHeader hashes.state)

/-- The logical transactions of blocks, newest block first. -/
def reclaimedFrom (hashes : ChainHashes D) (blocks : List (Block D)) : List Digest :=
  blocks.reverse.flatMap fun block =>
    (tryComputeLogicalTxids hashes.tx block.transactions).toOption.getD []

variable {hashes : ChainHashes D} {rules : ConsensusRules D}

@[simp]
theorem tipOf_concat (blocks : List (Block D)) (block : Block D) :
    tipOf hashes (blocks ++ [block]) = block.header := by
  simp [tipOf]

namespace NodeState

variable {node other next : NodeState D} {ledger : Ledger} {block : Block D}
  {blocks prior : List (Block D)} {finalizedActiveCounts : List Nat}

theorem BlockAccepted.branchStep {layout : BlockLayout} {effect : ClientObjectsEffect}
    (done : BlockAccepted hashes rules node next ledger block finalizedActiveCounts layout effect) :
    BranchStep hashes rules.client rules.batch ⟨node.tip, node.registry⟩
      ⟨next.tip, next.registry⟩ :=
  ⟨block, effect, done.checks.height, done.objects, by rw [done.tip, done.registry]⟩

theorem Sound.stands (sound : node.Sound hashes ledger) :
    node.chain.Stands hashes.state ledger [] := by
  rw [← sound.resident]
  exact sound.represents.stands fun _ _ => sound.resident ▸ not_mem_nil

variable [DecidableEq D]

/-- The header of a run's tip commits to its ledger, and its counters stay in range. -/
theorem AcceptedRun.commits (run : AcceptedRun hashes rules blocks node) :
    1 ≤ node.tip.logSlots ∧
      node.tip.stateRoot = hashes.state.slotRoot node.tip.logSlots (ledgerAfter blocks).slots := by
  have logSlots := run.sound.1.logSlots
  cases run with
  | genesis => exact ⟨show 1 ≤ 24 by norm_num, (StateHasher.slotRoot_empty _).symm⟩
  | block earlier accepted =>
    obtain ⟨layout, effect, done⟩ := earlier.sound.1.acceptBlock accepted
    rw [ledgerAfter, foldl_append] at logSlots ⊢
    refine ⟨done.tip ▸ done.checks.depth.1, ?_⟩
    rw [logSlots, done.tip, done.applied.stateRoot, done.applied.rooted,
      done.applied.represents.logSlots]
    rfl

theorem AcceptedRun.registryInvariant (run : AcceptedRun hashes rules blocks node) :
    RegistryInvariant rules.client rules.batch node.tip.height node.registry := by
  induction run with
  | genesis => exact registryInvariant_empty _ _ _
  | block earlier accepted ih =>
    obtain ⟨layout, effect, done⟩ := earlier.sound.1.acceptBlock accepted
    exact (ih.step done.branchStep).1

/-- A chain is accepted with each of its prefixes, and truncating the registry leads back to the
registry of the prefix. -/
theorem AcceptedRun.before (run : AcceptedRun hashes rules blocks node)
    (before : prior <+: blocks) : ∃ earlier, AcceptedRun hashes rules prior earlier ∧
      node.registry.truncateAbove prior.length = earlier.registry := by
  suffices ∃ earlier, AcceptedRun hashes rules prior earlier ∧ Branch hashes rules.client
      rules.batch ⟨earlier.tip, earlier.registry⟩ ⟨node.tip, node.registry⟩ by
    obtain ⟨earlier, reached, branch⟩ := this
    have truncated := (reached.registryInvariant.truncateAbove branch).2
    rw [reached.sound.2] at truncated
    exact ⟨earlier, reached, truncated⟩
  induction run with
  | genesis =>
    obtain rfl := prefix_nil.mp before
    exact ⟨_, .genesis, .refl⟩
  | block run accepted ih =>
    rcases prefix_concat_iff.mp before with rfl | shorter
    · exact ⟨_, run.block accepted, .refl⟩
    · obtain ⟨earlier, reached, branch⟩ := ih shorter
      obtain ⟨layout, effect, done⟩ := run.sound.1.acceptBlock accepted
      exact ⟨earlier, reached, branch.tail done.branchStep⟩

theorem AcceptedRun.eq_genesis (run : AcceptedRun hashes rules blocks node) (none : blocks = []) :
    node = .genesis hashes.state := by
  cases run with
  | genesis => rfl
  | block earlier accepted => simp at none

theorem AcceptedRun.last (run : AcceptedRun hashes rules blocks node)
    (last : blocks = prior ++ [block]) : ∃ earlier finalizedActiveCounts,
      AcceptedRun hashes rules prior earlier ∧
      earlier.acceptBlock hashes rules block finalizedActiveCounts = .ok node := by
  cases run with
  | genesis => simp at last
  | block earlier accepted =>
    obtain ⟨rfl, rfl⟩ := append_singleton_inj.mp last
    exact ⟨_, _, earlier, accepted⟩

/-- The last block is laid out by the rules, and its header commits to its identifiers. -/
theorem AcceptedRun.layout (run : AcceptedRun hashes rules (prior ++ [block]) node) :
    ∃ layout : BlockLayout, block.transactions = layout.records ∧ layout.Accepted ∧
      block.header.txRoot = rootFromHashes hashes.tree (layout.txids hashes.tx) := by
  obtain ⟨earlier, counts, before, accepted⟩ := run.last rfl
  obtain ⟨layout, effect, done⟩ := before.sound.1.acceptBlock accepted
  have root := done.applied.txRoot
  rw [tryComputeTxRoot, done.applied.records,
    bind_of_ok (done.applied.accepted.tryComputeLogicalTxids hashes.tx)] at root
  exact ⟨layout, done.applied.records, done.applied.accepted, (Except.ok.inj root).symm⟩

/-- Whether a block is accepted depends on the ledger, the registry and the tip alone. -/
theorem Sound.acceptBlock_congr (sound : node.Sound hashes ledger)
    (same : other.Sound hashes ledger) (registry : other.registry = node.registry)
    (tip : other.tip = node.tip)
    (accepted : node.acceptBlock hashes rules block finalizedActiveCounts = .ok next) :
    ∃ after, other.acceptBlock hashes rules block finalizedActiveCounts = .ok after ∧
      after.registry = next.registry ∧ after.tip = next.tip := by
  simp only [NodeState.acceptBlock, bind_eq_ok, mapError_eq_ok, pure_eq_ok, Prod.exists] at accepted
  obtain ⟨_, checks, effect, objects, chain, root, done, rfl⟩ := accepted
  obtain ⟨layout, applied⟩ := sound.represents.applyBlock done
  obtain ⟨expanded, expansion⟩ := @ChainState.Represents.expandTimes_isOk _ _ _ _ _
    same.represents (block.header.logSlots - ledger.logSlots) fun _ => same.resident
  obtain ⟨-, evicted, -⟩ := same.represents.expandTimes expansion
  have resident : expanded.Resident (block.transactions.flatMap TxBody.touched) := by
    intro slot _
    rw [evicted, same.resident]
    exact not_mem_nil
  obtain ⟨⟨after, root'⟩, done'⟩ := same.represents.applyBlock_isOk applied.records
    applied.accepted applied.canonical applied.distinct applied.grows expansion applied.applies
    resident
    (by rw [applied.stateRoot, applied.rooted, applied.represents.logSlots,
      ChainState.logSlots_afterBlock])
    applied.activeSlotCount applied.allocCounter applied.txRoot
  refine ⟨⟨after, node.registry.apply effect.registrations, block.header⟩, ?_, rfl, rfl⟩
  simp only [NodeState.acceptBlock, bind_eq_ok, mapError_eq_ok, pure_eq_ok, Prod.exists, registry,
    tip]
  exact ⟨_, checks, effect, objects, after, root', done', rfl⟩

end NodeState

/-- The log takes a state of the ledger after a block back to the ledger before it. -/
structure BlockUndoLog.Undoes (hashes : ChainHashes D) (undo : BlockUndoLog) (ledger : Ledger)
    (block : Block D) : Prop where
  logSlots : undo.logSlotsBefore = ledger.logSlots
  txHashes : tryComputeLogicalTxids hashes.tx block.transactions = .ok undo.txHashes
  rollback : ∀ current : ChainState D, current.Stands hashes.state (ledger.afterBlock block) [] →
    ∃ prior, current.rollback undo = .ok prior ∧ prior.Stands hashes.state ledger []

theorem Ledger.active_le_alloc {ledger : Ledger} {height : Nat} {records : List TxBody}
    (covered : ledger.activeSlotCount ≤ ledger.allocCounter) :
    (ledger.applyRecords height records).activeSlotCount ≤
      (ledger.applyRecords height records).allocCounter := by
  induction records generalizing ledger with
  | nil => exact covered
  | cons body records ih =>
    refine ih ?_
    simp only [Ledger.applyTx]
    omega

namespace NodeState

variable [DecidableEq D] {node other next : NodeState D} {block : Block D}
  {blocks : List (Block D)} {finalizedActiveCounts : List Nat}

theorem AcceptedRun.countersFit (run : AcceptedRun hashes rules blocks node) :
    (ledgerAfter blocks).logSlots < 2 ^ 32 ∧ (ledgerAfter blocks).activeSlotCount < 2 ^ 64 ∧
      (ledgerAfter blocks).allocCounter < 2 ^ 64 := by
  have depth := run.depth
  have alloc := run.identities.untagged
  have active : (ledgerAfter blocks).activeSlotCount ≤ (ledgerAfter blocks).allocCounter := by
    clear run depth alloc
    induction blocks using reverseRecOn with
    | nil => exact le_rfl
    | append_singleton blocks block ih =>
      rw [ledgerAfter, foldl_append]
      exact Ledger.active_le_alloc ih
  omega

/-- An accepted block has an undo log that is read back from the store and takes the block back. -/
theorem AcceptedRun.undoes (run : AcceptedRun hashes rules blocks other)
    (sound : node.Sound hashes (ledgerAfter blocks)) (tip : node.tip = other.tip)
    (accepted : node.acceptBlock hashes rules block finalizedActiveCounts = .ok next)
    (height : block.header.height < u64Bound) :
    ∃ undo, buildUndoLog hashes node.chain block = .ok undo ∧
      decodeUndoLog (encodeUndoLog undo) = some undo ∧
      undo.Undoes hashes (ledgerAfter blocks) block := by
  obtain ⟨layout, effect, done⟩ := sound.acceptBlock accepted
  obtain ⟨logSlots, active, alloc⟩ := run.countersFit
  have counters : node.chain.CountersFit :=
    ⟨sound.represents.logSlots ▸ logSlots, sound.represents.active ▸ active,
      sound.represents.alloc ▸ alloc⟩
  simp only [NodeState.acceptBlock, validateBlockChecksInner, bind_eq_ok, mapError_eq_ok]
    at accepted
  obtain ⟨-, ⟨facts, preflight, -⟩, -⟩ := accepted
  obtain ⟨undo, built, fits⟩ := buildUndoLog_fits hashes rules.client preflight height counters
  refine ⟨undo, built, fits.decode, ?_, ?_, fun current stands => ?_⟩
  · simp only [buildUndoLog, bind_eq_ok, pure_eq_ok] at built
    obtain ⟨txHashes, -, rfl⟩ := built
    exact sound.represents.logSlots
  · simp only [buildUndoLog, bind_eq_ok, pure_eq_ok] at built
    obtain ⟨txHashes, computed, rfl⟩ := built
    exact computed
  · have shallow : block.header.logSlots ≤ (ledgerAfter blocks).logSlots + 1 := by
      rw [done.checks.logSlots, sound.logSlots]
      rcases expectedChildLogSlots_cases node.tip.height (ledgerAfter blocks).logSlots
        finalizedActiveCounts with stays | grows
      · omega
      · rw [grows]
        exact min_le_left _ _
    rw [← sound.resident] at stands ⊢
    exact stands.rollback sound.represents (sound.logSlots ▸ tip ▸ run.commits.1) done.applied
      shallow built

/-- The node reads as the one that accepted the listed blocks from genesis. -/
def StandsFor (hashes : ChainHashes D) (rules : ConsensusRules D) (node : NodeState D)
    (blocks : List (Block D)) : Prop :=
  ∃ reference, AcceptedRun hashes rules blocks reference ∧
    node.chain.Restores hashes.state reference.chain ∧ node.registry = reference.registry ∧
    node.tip = reference.tip

end NodeState

end Jetsam
