import Jetsam.Block.Undo
import Jetsam.Node.ExactPath

/-!
# Rolling blocks back

A reorganisation undoes blocks newest first: the recorded slots are written back, the domain shrinks
and the counters return. On blocks that grow the domain by at most one level each, this leads back
to the state before the run.
-/

namespace Jetsam

open Control SegmentedFriState

inductive RollbackError where
  | apply (error : ApplyError)
  | resize (error : StateResizeError)
  deriving DecidableEq

namespace ChainState

variable {D : Type}

/-- Write back the recorded slots, with the supply they lead to. -/
def revertBlock (chain : ChainState D) (undo : BlockUndoLog) :
    Except ApplyError (ChainState D) := do
  let supply ← okOr (chain.supplyAfterSlotUpdates undo.writes) .circulatingSupplyInvariant
  let restored := undo.writes.reverse.filter fun write => write.1 < chain.state.numSlots
  let state ← mapError (fun _ => ApplyError.slotOutOfRange)
    (chain.state.applyDeltaUnrooted restored)
  pure { chain with state, circulatingSupply := supply }

def restoreStateCounters (chain : ChainState D) (undo : BlockUndoLog) : ChainState D :=
  { chain with
    activeSlotCount := undo.activeSlotCountBefore
    allocCounter := undo.allocCounterBefore }

def rollback (chain : ChainState D) (undo : BlockUndoLog) :
    Except RollbackError (ChainState D) := do
  let reverted ← mapError .apply (chain.revertBlock undo)
  let state ← mapError .resize (reverted.state.shrinkToLogSlots undo.logSlotsBefore)
  pure (restoreStateCounters { reverted with state } undo)

/-- The state stands for the ledger, with a possibly stale root and no evicted commitment to
recompute. -/
structure Stands (hasher : StateHasher D) (chain : ChainState D) (ledger : Ledger)
    (shelved : List Nat) : Prop where
  coherent : chain.Coherent hasher ledger.slots
  logSlots : chain.state.logSlots = ledger.logSlots
  active : chain.activeSlotCount = ledger.activeSlotCount
  alloc : chain.allocCounter = ledger.allocCounter
  supply : chain.circulatingSupply = totalAmount ledger.slots
  evicted : chain.state.evicted = shelved
  flushable : ∀ segId ∈ chain.state.dirty, segId ∉ shelved

variable {hashes : ChainHashes D} {chain after current : ChainState D} {ledger : Ledger}
  {block : Block D} {layout : BlockLayout} {undo : BlockUndoLog}

theorem Represents.stands (represents : chain.Represents hashes.state ledger)
    (flushable : ∀ segId ∈ chain.state.dirty, segId ∉ chain.state.evicted) :
    chain.Stands hashes.state ledger chain.state.evicted :=
  ⟨represents.coherent, represents.logSlots, represents.active, represents.alloc,
    represents.supply, rfl, flushable⟩

section

variable (applied : BlockApplied hashes chain after ledger block layout)

include applied

theorem BlockApplied.stands (flushable : ∀ segId ∈ chain.state.dirty, segId ∉ chain.state.evicted) :
    after.Stands hashes.state (ledger.afterBlock block) chain.state.evicted where
  coherent := applied.represents.coherent
  logSlots := applied.represents.logSlots
  active := applied.represents.active
  alloc := applied.represents.alloc
  supply := applied.represents.supply
  evicted := applied.evicted
  flushable := by
    intro segId marked
    rcases applied.dirty segId marked with earlier | free
    · exact flushable segId earlier
    · exact free

theorem BlockApplied.describes :
    layout.Describes hashes block :=
  ⟨applied.records, applied.accepted, applied.canonical, applied.txRoot⟩

theorem BlockApplied.residentFor :
    chain.ResidentFor block := by
  intro slot touched
  have resident := applied.resident slot touched
  rwa [segIdOf, segmentSlotCount, effectiveLogSegmentSize, applied.represents.logSlots,
    logSlots_afterBlock, applied.evicted] at resident

end

theorem Stands.revertBlock
    (stands : current.Stands hashes.state (ledger.afterBlock block) chain.state.evicted)
    (represents : chain.Represents hashes.state ledger)
    (applied : BlockApplied hashes chain after ledger block layout)
    (shallow : block.header.logSlots ≤ ledger.logSlots + 1)
    (built : buildUndoLog hashes chain block = .ok undo) :
    ∃ reverted, current.revertBlock undo = .ok reverted ∧
      reverted.Coherent hashes.state ledger.slots ∧
      reverted.state.logSlots = block.header.logSlots ∧
      reverted.circulatingSupply = totalAmount ledger.slots ∧
      reverted.state.evicted = chain.state.evicted ∧
      ∀ segId ∈ reverted.state.dirty, segId ∉ chain.state.evicted := by
  have inRange := ((Ledger.recordsApply_iff applied.distinct).mp applied.applies).1
  have depth : current.state.logSlots = block.header.logSlots :=
    stands.logSlots.trans logSlots_afterBlock
  have before := applied.residentFor.before represents applied.describes applied.grows shallow
    inRange
  have undone := fun writes => @overwrite_writes _ _ _ _ _ _ represents built
    ⟨applied.grows, shallow⟩ applied.distinct inRange (fun slot touched _ => before slot touched)
    writes
  have named : ∀ write ∈ undo.writes,
      ∃ slot ∈ block.transactions.flatMap TxBody.touched, slot.toNat = write.1 := by
    intro write mem
    obtain ⟨change, inChanges, rfl⟩ := List.mem_map.mp mem
    exact ⟨change.1, mem_slotChanges built inChanges, rfl⟩
  have inside : ∀ write ∈ undo.writes, write.1 < current.state.numSlots := by
    intro write mem
    obtain ⟨slot, touched, same⟩ := named write mem
    rw [← same, numSlots, depth]
    exact inRange slot touched
  have resident : ∀ write ∈ undo.writes, current.state.segIdOf write.1 ∉ current.state.evicted := by
    intro write mem
    obtain ⟨slot, touched, same⟩ := named write mem
    rw [← same, stands.evicted, segIdOf, segmentSlotCount, effectiveLogSegmentSize, depth]
    exact applied.residentFor slot touched
  have supply := (supplyAfterSlotUpdates_eq_some stands.coherent.holds stands.supply
    (fun write mem => by
      obtain ⟨slot, -, same⟩ := named write mem
      exact same ▸ toNat_lt_slotIndexBound slot)).mpr
    ⟨fun write mem _ => resident write mem, rfl⟩
  rw [undone undo.writes fun _ => Iff.rfl] at supply
  set restored := undo.writes.reverse.filter fun write => write.1 < current.state.numSlots
    with restoredDef
  have members : ∀ write, write ∈ restored ↔ write ∈ undo.writes := by
    intro write
    simp only [restoredDef, List.mem_filter, List.mem_reverse, decide_eq_true_eq]
    exact ⟨And.left, fun mem => ⟨mem, inside write mem⟩⟩
  obtain ⟨holds, rewritten⟩ := @Holds.foldl_writeSlot _ _ stands.coherent.holds restored
    (fun write mem => inside write ((members write).mp mem))
    (fun write mem => resident write ((members write).mp mem))
  rw [undone restored members] at holds rewritten
  refine ⟨_, bind_eq_ok.mpr ⟨_, okOr_eq_ok.mpr supply, bind_eq_ok.mpr ⟨_, mapError_eq_ok.mpr
    (applyDeltaUnrooted_eq_ok.mpr ⟨fun write mem => inside write ((members write).mp mem),
      rfl⟩), rfl⟩⟩, (stands.coherent.rewritten holds rewritten).of_same rfl rfl,
    rewritten.logSlots.trans depth, rfl, rewritten.evicted.trans stands.evicted,
    fun segId marked => ?_⟩
  rcases rewritten.dirty segId marked with earlier | free
  · exact stands.flushable segId earlier
  · rwa [stands.evicted] at free

theorem Stands.rollback
    (stands : current.Stands hashes.state (ledger.afterBlock block) chain.state.evicted)
    (represents : chain.Represents hashes.state ledger) (pos : 1 ≤ ledger.logSlots)
    (applied : BlockApplied hashes chain after ledger block layout)
    (shallow : block.header.logSlots ≤ ledger.logSlots + 1)
    (built : buildUndoLog hashes chain block = .ok undo) :
    ∃ prior, current.rollback undo = .ok prior ∧
      prior.Stands hashes.state ledger chain.state.evicted := by
  obtain ⟨reverted, done, coherent, depth, supply, evicted, flushable⟩ :=
    stands.revertBlock represents applied shallow built
  have inRange := ((Ledger.recordsApply_iff applied.distinct).mp applied.applies).1
  have grows := applied.grows
  have small : ledger.logSlots < logSegmentSize → reverted.state.evicted = [] := by
    intro shallower
    rw [evicted]
    exact applied.residentFor.small represents.coherent.holds applied.describes
      (by rw [represents.logSlots]; exact grows) inRange (by omega)
  have vacant : EmptyAbove ledger.slots ledger.logSlots := fun index above =>
    represents.coherent.holds.outside index (represents.numSlots.trans_le above)
  obtain ⟨state, shrunk⟩ := coherent.holds.shrinkToLogSlots_isOk pos
    (by rw [depth]; exact grows) (by rw [depth]; exact shallow) vacant
    (fun _ => by rw [evicted]; exact flushable) small
  obtain ⟨-, logSlots, sameEvicted, cleaned, unchanged, -⟩ := coherent.holds.shrinkToLogSlots shrunk
  simp only [buildUndoLog, bind_eq_ok, pure_eq_ok] at built
  obtain ⟨txHashes, -, rfl⟩ := built
  refine ⟨_, bind_eq_ok.mpr ⟨reverted, mapError_eq_ok.mpr done, bind_eq_ok.mpr ⟨state,
    mapError_eq_ok.mpr (represents.logSlots ▸ shrunk), rfl⟩⟩,
    (coherent.shrinkToLogSlots shrunk).of_same rfl rfl, logSlots, represents.active,
    represents.alloc, supply, sameEvicted.trans evicted, fun segId marked => ?_⟩
  rcases Nat.eq_or_lt_of_le (depth.symm ▸ grows : ledger.logSlots ≤ reverted.state.logSlots)
    with same | lower
  · exact flushable segId (unchanged same ▸ marked)
  · have none : state.dirty = [] := cleaned lower
    exact absurd (none ▸ marked) List.not_mem_nil

/-- The state reads as an earlier one: depth, slots, counters, supply and computed root. -/
structure Restores [DecidableEq D] (hasher : StateHasher D) (prior chain : ChainState D) :
    Prop where
  logSlots : prior.state.logSlots = chain.state.logSlots
  slots : ∀ index, prior.state.slot index = chain.state.slot index
  activeSlotCount : prior.activeSlotCount = chain.activeSlotCount
  allocCounter : prior.allocCounter = chain.allocCounter
  circulatingSupply : prior.circulatingSupply = chain.circulatingSupply
  stateRoot : ∃ rooted rooted' root, prior.tryStateRoot hasher = .ok (rooted, root) ∧
    chain.tryStateRoot hasher = .ok (rooted', root)

variable [DecidableEq D]

theorem Stands.restores {hasher : StateHasher D} {shelved : List Nat}
    (stands : current.Stands hasher ledger shelved)
    (stands' : chain.Stands hasher ledger shelved) : current.Restores hasher chain where
  logSlots := stands.logSlots.trans stands'.logSlots.symm
  slots := stands.coherent.holds.slot_congr stands'.coherent.holds
    (stands.logSlots.trans stands'.logSlots.symm) (stands.evicted.trans stands'.evicted.symm)
  activeSlotCount := stands.active.trans stands'.active.symm
  allocCounter := stands.alloc.trans stands'.alloc.symm
  circulatingSupply := stands.supply.trans stands'.supply.symm
  stateRoot := by
    obtain ⟨⟨rooted, root⟩, read⟩ := stands.coherent.tryStateRoot_isOk
    obtain ⟨⟨rooted', root'⟩, read'⟩ := stands'.coherent.tryStateRoot_isOk
    have same : root = root' := by
      rw [(stands.coherent.tryStateRoot read).1, (stands'.coherent.tryStateRoot read').1,
        stands.logSlots, stands'.logSlots]
    exact ⟨rooted, rooted', root, read, same ▸ read'⟩

/-- Blocks that grow the domain by at most one level each, with their undo logs newest first. -/
inductive UndoableRun (hashes : ChainHashes D) : ChainState D → List BlockUndoLog → ChainState D →
    Prop
  | refl (chain : ChainState D) : UndoableRun hashes chain [] chain
  | block {first chain after : ChainState D} {undos : List BlockUndoLog} {block : Block D}
      {undo : BlockUndoLog} {root : D} :
      UndoableRun hashes first undos chain →
      block.header.logSlots ≤ chain.state.logSlots + 1 →
      buildUndoLog hashes chain block = .ok undo →
      chain.applyBlock hashes block = .ok (after, root) →
      UndoableRun hashes first (undo :: undos) after

theorem UndoableRun.rollback {first last : ChainState D} {undos : List BlockUndoLog}
    (run : UndoableRun hashes first undos last) (represents : first.Represents hashes.state ledger)
    (pos : 1 ≤ ledger.logSlots)
    (flushable : ∀ segId ∈ first.state.dirty, segId ∉ first.state.evicted) :
    ∃ reached, last.Represents hashes.state reached ∧ 1 ≤ reached.logSlots ∧
      last.Stands hashes.state reached first.state.evicted ∧
      ∀ current : ChainState D, current.Stands hashes.state reached first.state.evicted →
        ∃ prior, undos.foldlM ChainState.rollback current = .ok prior ∧
          prior.Stands hashes.state ledger first.state.evicted := by
  induction run with
  | refl =>
    exact ⟨ledger, represents, pos, represents.stands flushable,
      fun current stands => ⟨current, rfl, stands⟩⟩
  | block earlier shallow built applied ih =>
    obtain ⟨reached, reps, deep, stands, back⟩ := ih
    obtain ⟨layout, done⟩ := reps.applyBlock applied
    rw [reps.logSlots] at shallow
    have evicted := stands.evicted
    have flush := stands.flushable
    rw [← evicted] at flush
    refine ⟨reached.afterBlock _, done.represents, ?_, evicted ▸ done.stands flush,
      fun current standing => ?_⟩
    · rw [logSlots_afterBlock]
      exact deep.trans done.grows
    · obtain ⟨middle, undone, standing⟩ := Stands.rollback (evicted.symm ▸ standing) reps deep done
        shallow built
      obtain ⟨prior, rest, final⟩ := back middle (evicted ▸ standing)
      refine ⟨prior, ?_, final⟩
      exact bind_eq_ok.mpr ⟨middle, undone, rest⟩

end ChainState

/-- The log of a two-level expansion skips a mint above the parent domain. -/
theorem slotChanges_mintBlock {undo : BlockUndoLog}
    (built : buildUndoLog sampleHashes (NodeState.genesis symbolicHasher).chain
      (mintBlock 26 (2 ^ 24)) = .ok undo) : undo.slotChanges = [] := by
  obtain ⟨txHashes, -, rfl⟩ := built
  change (noteUndone (NodeState.genesis symbolicHasher).chain.state 26 ⟨[], []⟩
    (TxBody.primaryCoinbase 0 (2 ^ 24) 45000000 0)).changes = []
  rfl

end Jetsam
