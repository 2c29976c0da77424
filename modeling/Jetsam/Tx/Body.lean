import Mathlib.Data.Fintype.Pi
import Mathlib.Data.BitVec

/-!
# Transaction bodies

The fixed `Tx8x2` body: eight possible spends, two possible outputs, and a validity bitmap that is
the only source of liveness. An address or digest is the little-endian integer of its 32 bytes.
-/

namespace Jetsam

open BitVec

/-- A lane of the 128-bit tower field, as its bit pattern. -/
abbrev Block128 := BitVec 128

/-- A 32-byte value read as a little-endian integer. -/
abbrev Digest := BitVec 256

abbrev Address := BitVec 256

/-- The two 128-bit lanes of a 32-byte value, low bytes first. -/
def asFields (digest : BitVec 256) : Block128 × Block128 :=
  (digest.setWidth 128, (digest >>> 128).setWidth 128)

theorem asFields_injective : Function.Injective asFields := by
  intro left right equal
  simp only [asFields, Prod.mk.injEq] at equal
  obtain ⟨low, high⟩ := equal
  have low_nat := congrArg BitVec.toNat low
  have high_nat := congrArg BitVec.toNat high
  simp only [toNat_setWidth, toNat_ushiftRight, Nat.shiftRight_eq_div_pow]
    at low_nat high_nat
  apply eq_of_toNat_eq
  omega

def txInputs : Nat := 8

def txOutputs : Nat := 2

/-- The ten action bits of a canonical body. -/
def txValidityMask : BitVec 16 := 0x03ff

def outputBitmapBit (index : Nat) : BitVec 16 := 1 <<< (txInputs + index)

/-- Pack a transparent amount and a UTXO incarnation into one field lane. -/
def packAmountCreationId (amount creationId : BitVec 64) : Block128 :=
  (creationId.setWidth 128 <<< 64) ||| amount.setWidth 128

/-- Inverse of `packAmountCreationId`, returning the amount first. -/
def unpackAmountCreationId (packed : Block128) : BitVec 64 × BitVec 64 :=
  (packed.setWidth 64, (packed >>> 64).setWidth 64)

theorem packAmountCreationId_toNat (amount creationId : BitVec 64) :
    (packAmountCreationId amount creationId).toNat =
      creationId.toNat * 2 ^ 64 + amount.toNat := by
  have amount_lt := amount.isLt
  simp only [packAmountCreationId, toNat_or, toNat_shiftLeft, toNat_setWidth]
  rw [Nat.mod_eq_of_lt (a := creationId.toNat) (by omega),
    Nat.mod_eq_of_lt (a := amount.toNat) (by omega), Nat.shiftLeft_eq, Nat.mod_eq_of_lt (by omega),
    ← Nat.shiftLeft_eq, ← Nat.shiftLeft_add_eq_or_of_lt amount_lt, Nat.shiftLeft_eq]

@[simp]
theorem unpack_pack (amount creationId : BitVec 64) :
    unpackAmountCreationId (packAmountCreationId amount creationId) = (amount, creationId) := by
  simp only [unpackAmountCreationId, Prod.mk.injEq]
  constructor <;> apply eq_of_toNat_eq <;>
    simp only [toNat_setWidth, toNat_ushiftRight, Nat.shiftRight_eq_div_pow,
      packAmountCreationId_toNat] <;>
    omega

instance lawfulBEqSlot : LawfulBEq (BitVec 32) := inferInstance

/-- One possible spend; its owner is stated once by the body. -/
structure TxInput where
  slotIndex : BitVec 32
  amount : BitVec 64
  creationId : BitVec 64
  deriving DecidableEq

/-- One possible freshly allocated output. -/
structure TxOutput where
  slotIndex : BitVec 32
  amount : BitVec 64
  owner : Address
  deriving DecidableEq

def TxInput.dummy : TxInput := ⟨0, 0, 0⟩

def TxOutput.dummy : TxOutput := ⟨0, 0, 0⟩

structure TxBody where
  epochAnchor : Digest
  fee : BitVec 64
  /-- One owner shared by every live input. -/
  inputOwner : Address
  inputs : Fin 8 → TxInput
  outputs : Fin 2 → TxOutput
  validityBitmap : BitVec 16
  isCoinbase : Bool
  deriving DecidableEq

namespace TxBody

/-- The canonical primary block reward shape. -/
def isPrimaryCoinbaseShape (body : TxBody) : Bool :=
  body.isCoinbase && body.validityBitmap == outputBitmapBit 0

/-- The canonical two-output development payout shape. -/
def isDevelopmentPayoutShape (body : TxBody) : Bool :=
  body.isCoinbase && body.validityBitmap == (outputBitmapBit 0 ||| outputBitmapBit 1)

def inputIsLive (body : TxBody) (index : Nat) : Bool :=
  decide (index < txInputs) && body.validityBitmap.getLsbD index

def outputIsLive (body : TxBody) (index : Nat) : Bool :=
  decide (index < txOutputs) && body.validityBitmap.getLsbD (txInputs + index)

def liveInputs (body : TxBody) : List (Nat × TxInput) :=
  ((List.finRange 8).filter fun index : Fin 8 => body.inputIsLive index).map
    fun index => (index.val, body.inputs index)

def liveOutputs (body : TxBody) : List (Nat × TxOutput) :=
  ((List.finRange 2).filter fun index : Fin 2 => body.outputIsLive index).map
    fun index => (index.val, body.outputs index)

def liveInputCount (body : TxBody) : Nat :=
  (List.finRange 8).countP fun index : Fin 8 => body.validityBitmap.getLsbD index

def liveOutputCount (body : TxBody) : Nat :=
  (List.finRange 2).countP fun index : Fin 2 => body.validityBitmap.getLsbD (txInputs + index)

variable (body : TxBody)

@[simp]
theorem inputIsLive_fin (index : Fin 8) :
    body.inputIsLive index = body.validityBitmap.getLsbD index := by
  simp [inputIsLive, txInputs, index.isLt]

@[simp]
theorem outputIsLive_fin (index : Fin 2) :
    body.outputIsLive index = body.validityBitmap.getLsbD (txInputs + index) := by
  simp [outputIsLive, txOutputs, index.isLt]

theorem liveInputCount_eq : body.liveInputCount = body.liveInputs.length := by
  simp [liveInputCount, liveInputs, List.countP_eq_length_filter]

theorem liveOutputCount_eq : body.liveOutputCount = body.liveOutputs.length := by
  simp [liveOutputCount, liveOutputs, List.countP_eq_length_filter]

def inputSlots (body : TxBody) : List (BitVec 32) :=
  body.liveInputs.map fun live => live.2.slotIndex

def outputSlots (body : TxBody) : List (BitVec 32) :=
  body.liveOutputs.map fun live => live.2.slotIndex

def inputSum (body : TxBody) : Nat :=
  (body.liveInputs.map fun live => live.2.amount.toNat).sum

def outputSum (body : TxBody) : Nat :=
  (body.liveOutputs.map fun live => live.2.amount.toNat).sum

end TxBody
end Jetsam
