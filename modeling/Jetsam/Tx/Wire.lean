import Jetsam.Tx.PagedSpend
import Jetsam.Wire.Reader

/-!
# Wire format of a body

Every body is one fixed record of 323 bytes: system records are checked as whole bodies, user pages
only for their shape, because a page balances with its group.
-/

namespace Jetsam

open Control Wire

inductive WireError where
  | truncated
  | trailingBytes
  | invalidBool
  | badMarker
  | nonCanonicalBody
  | lengthOverflow
  deriving DecidableEq

def takeByte : Reader WireError Byte := readBits .truncated 8 1

def takeU16 : Reader WireError (BitVec 16) := readBits .truncated 16 2

def takeU32 : Reader WireError (BitVec 32) := readBits .truncated 32 4

def takeU64 : Reader WireError (BitVec 64) := readBits .truncated 64 8

def takeDigest : Reader WireError Digest := readBits .truncated 256 32

def digestBytes (digest : Digest) : List Byte := leBytes 32 digest.toNat

theorem digestBytes_injective : Function.Injective digestBytes := by
  intro left right same
  apply BitVec.eq_of_toNat_eq
  have fits : ∀ digest : Digest, digest.toNat < 256 ^ 32 := fun digest => by
    have := digest.isLt
    omega
  rw [← Wire.ofLeBytes_leBytes (fits left), ← Wire.ofLeBytes_leBytes (fits right)]
  exact congrArg Wire.ofLeBytes same

/-- Read a flag: exactly zero or one. -/
def takeBool : Reader WireError Bool := do
  let byte ← takeByte
  check (require (byte = 0 ∨ byte = 1) .invalidBool)
  pure (byte == 1)

def boolByte (flag : Bool) : Byte := if flag then 1 else 0

def TxInput.encode (input : TxInput) : List Byte :=
  leBytes 4 input.slotIndex.toNat ++ leBytes 8 input.amount.toNat ++
    leBytes 8 input.creationId.toNat

def TxInput.decode : Reader WireError TxInput := do
  let slotIndex ← takeU32
  let amount ← takeU64
  let creationId ← takeU64
  pure ⟨slotIndex, amount, creationId⟩

def TxOutput.encode (output : TxOutput) : List Byte :=
  leBytes 4 output.slotIndex.toNat ++ leBytes 8 output.amount.toNat ++ digestBytes output.owner

def TxOutput.decode : Reader WireError TxOutput := do
  let slotIndex ← takeU32
  let amount ← takeU64
  let owner ← takeDigest
  pure ⟨slotIndex, amount, owner⟩

/-- The fields of a body, in wire order. -/
def encodePageBody (body : TxBody) : List Byte :=
  digestBytes body.epochAnchor ++ leBytes 8 body.fee.toNat ++ digestBytes body.inputOwner ++
    (List.ofFn body.inputs).flatMap TxInput.encode ++
    (List.ofFn body.outputs).flatMap TxOutput.encode ++
    leBytes 2 body.validityBitmap.toNat ++ [boolByte body.isCoinbase]

def decodePageBody : Reader WireError TxBody := do
  let epochAnchor ← takeDigest
  let fee ← takeU64
  let inputOwner ← takeDigest
  let inputs ← readFin TxInput.decode 8
  let outputs ← readFin TxOutput.decode 2
  let validityBitmap ← takeU16
  let isCoinbase ← takeBool
  pure { epochAnchor, fee, inputOwner, inputs, outputs, validityBitmap, isCoinbase }

/-- Wire form of a whole body; a body that is not canonical is not written. -/
def TxBody.encode (body : TxBody) : Option (List Byte) :=
  if validateBodySemanticsNoHash body = .ok () then some (encodePageBody body) else none

def TxBody.decode : Reader WireError TxBody := do
  let body ← decodePageBody
  check (mapError (fun _ => .nonCanonicalBody) (validateBodySemanticsNoHash body))
  pure body

/-- Wire form of a user page; a page of another shape is not written. -/
def encodePage (page : TxBody) : Option (List Byte) :=
  if validatePageShape page 0 = .ok () then some (encodePageBody page) else none

def decodePage : Reader WireError TxBody := do
  let page ← decodePageBody
  check (mapError (fun _ => .nonCanonicalBody) (validatePageShape page 0))
  pure page

theorem reads_takeByte : Reads takeByte (fun _ => True) fun byte => [byte] := by
  intro input byte rest
  have law := reads_readBits WireError.truncated (show 8 = 8 * 1 from rfl) input byte rest
  simpa [takeByte, leBytes] using law

theorem reads_takeU16 : Reads takeU16 (fun _ => True) fun value => leBytes 2 value.toNat :=
  reads_readBits WireError.truncated (show 16 = 8 * 2 from rfl)

theorem reads_takeU32 : Reads takeU32 (fun _ => True) fun value => leBytes 4 value.toNat :=
  reads_readBits WireError.truncated (show 32 = 8 * 4 from rfl)

theorem reads_takeU64 : Reads takeU64 (fun _ => True) fun value => leBytes 8 value.toNat :=
  reads_readBits WireError.truncated (show 64 = 8 * 8 from rfl)

theorem reads_takeDigest : Reads takeDigest (fun _ => True) digestBytes :=
  reads_readBits WireError.truncated (show 256 = 8 * 32 from rfl)

theorem reads_takeBool : Reads takeBool (fun _ => True) fun flag => [boolByte flag] := by
  intro input flag rest
  simp only [takeBool, run_bind_eq_ok, reads_takeByte input, run_check_eq_ok, require_eq_ok,
    run_pure_eq_ok, true_and]
  constructor
  · rintro ⟨byte, middle, rfl, -, -, ⟨isFlag, rfl⟩, rfl, rfl⟩
    rcases isFlag with rfl | rfl <;> rfl
  · rintro rfl
    refine ⟨boolByte flag, rest, rfl, (), rest, ⟨?_, rfl⟩, ?_, rfl⟩ <;> cases flag <;> decide

theorem reads_txInput : Reads TxInput.decode (fun _ => True) TxInput.encode := by
  intro input value rest
  simp only [TxInput.decode, run_bind_eq_ok, reads_takeU32 input, reads_takeU64 _ _ _,
    run_pure_eq_ok, true_and, TxInput.encode, List.append_assoc]
  constructor
  · rintro ⟨slotIndex, _, rfl, amount, _, rfl, creationId, _, rfl, rfl, rfl⟩
    rfl
  · rintro rfl
    exact ⟨_, _, rfl, _, _, rfl, _, _, rfl, rfl, rfl⟩

theorem reads_txOutput : Reads TxOutput.decode (fun _ => True) TxOutput.encode := by
  intro input value rest
  simp only [TxOutput.decode, run_bind_eq_ok, reads_takeU32 input, reads_takeU64 _ _ _,
    reads_takeDigest _ _ _, run_pure_eq_ok, true_and, TxOutput.encode, List.append_assoc]
  constructor
  · rintro ⟨slotIndex, _, rfl, amount, _, rfl, owner, _, rfl, rfl, rfl⟩
    rfl
  · rintro rfl
    exact ⟨_, _, rfl, _, _, rfl, _, _, rfl, rfl, rfl⟩

theorem reads_pageBody : Reads decodePageBody (fun _ => True) encodePageBody := by
  intro input body rest
  simp only [decodePageBody, run_bind_eq_ok, reads_takeDigest _ _ _, reads_takeU64 _ _ _,
    reads_txInput.fin 8 _ _ _, reads_txOutput.fin 2 _ _ _, reads_takeU16 _ _ _,
    reads_takeBool _ _ _, run_pure_eq_ok, true_and, implies_true, encodePageBody, List.append_assoc]
  constructor
  · rintro ⟨epochAnchor, _, rfl, fee, _, rfl, inputOwner, _, rfl, inputs, _, rfl, outputs, _, rfl,
      validityBitmap, _, rfl, isCoinbase, _, rfl, rfl, rfl⟩
    rfl
  · rintro rfl
    exact ⟨_, _, rfl, _, _, rfl, _, _, rfl, _, _, rfl, _, _, rfl, _, _, rfl, _, _, rfl, rfl, rfl⟩

theorem reads_txBody :
    Reads TxBody.decode (fun body => validateBodySemanticsNoHash body = .ok ())
      encodePageBody := by
  intro input body rest
  simp only [TxBody.decode, run_bind_eq_ok, reads_pageBody _ _ _, run_check_eq_ok, mapError_eq_ok,
    run_pure_eq_ok, true_and]
  constructor
  · rintro ⟨body, _, rfl, ⟨⟩, _, ⟨canonical, rfl⟩, rfl, rfl⟩
    exact ⟨canonical, rfl⟩
  · rintro ⟨canonical, rfl⟩
    exact ⟨body, rest, rfl, (), rest, ⟨canonical, rfl⟩, rfl, rfl⟩

theorem reads_page : Reads decodePage PageShape encodePageBody := by
  intro input page rest
  simp only [decodePage, run_bind_eq_ok, reads_pageBody _ _ _, run_check_eq_ok, mapError_eq_ok,
    validatePageShape_eq_ok, run_pure_eq_ok, true_and]
  constructor
  · rintro ⟨page, _, rfl, ⟨⟩, _, ⟨shape, rfl⟩, rfl, rfl⟩
    exact ⟨shape, rfl⟩
  · rintro ⟨shape, rfl⟩
    exact ⟨page, rest, rfl, (), rest, ⟨shape, rfl⟩, rfl, rfl⟩

def txBodyWireSize : Nat := 323

theorem length_encodePageBody (body : TxBody) : (encodePageBody body).length = txBodyWireSize := by
  have inputs := length_flatMap_ofFn TxInput.encode 20 (by simp [TxInput.encode])
    body.inputs
  have outputs := length_flatMap_ofFn TxOutput.encode 44
    (by simp [TxOutput.encode, digestBytes]) body.outputs
  simp only [encodePageBody, List.length_append, length_leBytes, digestBytes, inputs, outputs,
    List.length_singleton]
  rfl

end Jetsam
