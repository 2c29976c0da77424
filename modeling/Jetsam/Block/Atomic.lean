import Jetsam.Block.Apply
import Jetsam.State.InPlace

/-!
# Failed applications leave the state alone

`apply_block` as it mutates: everything runs on a copy of the state, which is assigned at the end,
so that a returned error never leaves a partial change behind.
-/

namespace Jetsam

open Control

namespace ChainState

variable {D : Type}

def applyRecordInPlace (height : Nat) (system : Bool) (body : TxBody) :
    InPlace (ChainState D) BlockApplyError Unit := do
  .lift (mapError (fun _ => BlockApplyError.invalidTxBody)
    (if system then validateBodySemanticsNoHash body else .ok ()))
  (applyTxCheckedDeferredRootInPlace body (some height)).mapErr .tx

variable {chain after : ChainState D}

variable [DecidableEq D]

/-- The part of `apply_block` that works on the copy. -/
def applyBlockToSnapshot (hashes : ChainHashes D) (block : Block D) (userStartIndex : Nat) :
    InPlace (ChainState D) BlockApplyError Unit := do
  let start ← .get
  .times (expandOneInPlace hashes.state) (block.header.logSlots - start.state.logSlots)
  .each (applyRecordInPlace block.header.height true) (block.transactions.take userStartIndex)
  .each (applyRecordInPlace block.header.height false) (block.transactions.drop userStartIndex)
  let root ← (tryStateRootInPlace hashes.state).mapErr fun _ => .tx .exactStateUnavailable
  let rooted ← .get
  .lift (require (block.header.stateRoot = root) .headerStateRootMismatch)
  .lift (require (block.header.activeSlotCount = rooted.activeSlotCount)
    .headerActiveSlotCountMismatch)
  .lift (require (block.header.allocCounter = rooted.allocCounter) .headerAllocCounterMismatch)
  .lift (require (block.header.logSlots = rooted.state.logSlots) .headerLogSlotsMismatch)
  let txRoot ← .lift (mapError (fun _ => .invalidPagedSpend)
    (tryComputeTxRoot hashes.tx hashes.tree block.transactions))
  .lift (require (block.header.txRoot = txRoot) .headerTxRootMismatch)

def applyBlockInPlace (hashes : ChainHashes D) (block : Block D) :
    InPlace (ChainState D) BlockApplyError D := do
  .lift (require (block.transactions.length ≤ blockMaxTxs) .tooManyTransactions)
  let stream ← .lift (mapError (fun _ => .invalidPagedSpend)
    (validateBlockPageStream hashes.tx block.transactions))
  .lift (validateBlockSlotConflicts .slotConflict block.transactions)
  .lift (require
    (∀ system ∈ block.transactions.take stream.userStartIndex, system.liveInputCount = 0)
    .coinbaseHasInputs)
  .onClone do
    applyBlockToSnapshot hashes block stream.userStartIndex
    let snapshot ← .get
    return snapshot.utxoRoot

variable {hashes : ChainHashes D}

theorem applyBlockInPlace_atomic (block : Block D) : (applyBlockInPlace hashes block).Atomic := by
  intro chain
  apply InPlace.AtomicAt.lift_bind
  intro _ _
  apply InPlace.AtomicAt.lift_bind
  intro stream _
  apply InPlace.AtomicAt.lift_bind
  intro _ _
  apply InPlace.AtomicAt.lift_bind
  intro _ _
  exact InPlace.onClone_atomic _ chain

/-- Each of the four calls that returns an error leaves the whole chain state as it found it. -/
theorem failed_applications_unchanged (hashes : ChainHashes D) :
    (∀ body : TxBody, (applyTx hashes.state body).Atomic) ∧
      (∀ (body : TxBody) (height : Nat), (applyTxAt hashes.state body height).Atomic) ∧
      (∀ block : Block D, (applyBlockInPlace hashes block).Atomic) ∧
      ∀ (logSlots : Nat) (root : D) (updates : List (Nat × SlotValue)) (active alloc : Nat),
        (applyVerifiedExactTransitionInPlace hashes.state logSlots root updates active
          alloc).Atomic :=
  ⟨applyTx_atomic, applyTxAt_atomic, applyBlockInPlace_atomic,
    applyVerifiedExactTransitionInPlace_atomic⟩

end ChainState
end Jetsam
