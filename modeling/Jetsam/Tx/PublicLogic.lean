import Jetsam.Control.Checks
import Jetsam.Tx.Body

/-!
# Native semantics of a single body

The canonical-body checks shared by decoding, block application and template construction.
-/

namespace Jetsam

open Control

/-- Refusals of the body predicate, with the offending position, bitmap or slot. -/
inductive PublicLogicError where
  | coinbase
  | bitmapHighBits (bitmap : BitVec 16)
  | deadInputNotZero (index : Nat)
  | deadOutputNotZero (index : Nat)
  | noLiveInputs
  | coinbaseInputOwner
  | coinbaseBitmap (bitmap : BitVec 16)
  | duplicateInputSlot (slot : BitVec 32)
  | duplicateOutputSlot (slot : BitVec 32)
  | inputOutputSlotOverlap (slot : BitVec 32)
  | inputSumOverflow
  | outputSumOverflow
  | outputPlusFeeOverflow
  | balanceMismatch (inputSum outputSum : Nat) (fee : BitVec 64)
  deriving DecidableEq

def u128Bound : Nat := 2 ^ 128

namespace TxBody

/-- First bitmap-dead input position that is not the zero record. -/
def dirtyDeadInput (body : TxBody) : Option (Fin 8) :=
  (List.finRange 8).find? fun index =>
    !body.inputIsLive index && body.inputs index ≠ TxInput.dummy

/-- First bitmap-dead output position that is not the zero record. -/
def dirtyDeadOutput (body : TxBody) : Option (Fin 2) :=
  (List.finRange 2).find? fun index =>
    !body.outputIsLive index && body.outputs index ≠ TxOutput.dummy

theorem dirtyDeadInput_eq_none {body : TxBody} :
    body.dirtyDeadInput = none ↔
      ∀ index : Fin 8, body.inputIsLive index = false → body.inputs index = TxInput.dummy := by
  simp [dirtyDeadInput, List.find?_eq_none, List.mem_finRange]

theorem dirtyDeadOutput_eq_none {body : TxBody} :
    body.dirtyDeadOutput = none ↔
      ∀ index : Fin 2, body.outputIsLive index = false → body.outputs index = TxOutput.dummy := by
  simp [dirtyDeadOutput, List.find?_eq_none, List.mem_finRange]

end TxBody

/-- No slot of a body is named twice among its live inputs and outputs. -/
def uniqueSlots (body : TxBody) : Except PublicLogicError Unit := do
  requireNone (firstRepeat [] body.inputSlots) .duplicateInputSlot
  requireFresh .duplicateOutputSlot .inputOutputSlotOverlap body.inputSlots [] body.outputSlots

theorem uniqueSlots_eq_ok {body : TxBody} {done : Unit} :
    uniqueSlots body = .ok done ↔
      body.inputSlots.Nodup ∧ body.outputSlots.Nodup ∧
        ∀ slot ∈ body.outputSlots, slot ∉ body.inputSlots := by
  simp [uniqueSlots, requireNone_bind_eq_ok, requireFresh_eq_ok]

def validateBodySemanticsNoHash (body : TxBody) : Except PublicLogicError Unit := do
  require (body.validityBitmap &&& ~~~txValidityMask = 0) (.bitmapHighBits body.validityBitmap)
  requireNone body.dirtyDeadInput fun index => .deadInputNotZero index
  requireNone body.dirtyDeadOutput fun index => .deadOutputNotZero index
  if body.isCoinbase then do
    require (body.inputOwner = 0) .coinbaseInputOwner
    require ((body.validityBitmap = outputBitmapBit 0 ∨
        body.validityBitmap = outputBitmapBit 0 ||| outputBitmapBit 1) ∧ body.fee = 0)
      (.coinbaseBitmap body.validityBitmap)
    uniqueSlots body
  else do
    require (body.liveInputCount ≠ 0) .noLiveInputs
    uniqueSlots body
    let inputSum ← okOr
      (checkedSum u128Bound 0 (body.liveInputs.map fun live => live.2.amount.toNat))
      .inputSumOverflow
    let outputSum ← okOr
      (checkedSum u128Bound 0 (body.liveOutputs.map fun live => live.2.amount.toNat))
      .outputSumOverflow
    let expected ← okOr (checkedAdd u128Bound outputSum body.fee.toNat) .outputPlusFeeOverflow
    require (inputSum = expected) (.balanceMismatch inputSum outputSum body.fee)

end Jetsam
