import Jetsam.Client.ObjectWire
import Jetsam.Client.Openings

/-!
# Wire format of blocks

A block is a marker, its header, the number of its records, the records and its object section.
While decoding, a record that is a canonical system mint is taken as one and every other record is
read as a page. Writing asserts what decoding checks.
-/

namespace Jetsam

open Control Wire List

def blockWireMarker : Byte := 0xB3

namespace BlockHeader

def encode (header : BlockHeader Digest) : List Byte :=
  digestBytes header.prevBlockHash ++ digestBytes header.stateRoot ++ digestBytes header.txRoot ++
    leBytes 8 header.timestamp ++ leBytes 8 header.height ++ digestBytes header.minerAddress ++
    leBytes 16 header.nonce.toNat ++ digestBytes header.difficultyTarget ++
    leBytes 4 header.logSlots ++ leBytes 8 header.activeSlotCount ++ leBytes 8 header.allocCounter

def decode : Reader WireError (BlockHeader Digest) := do
  let prevBlockHash ← takeDigest
  let stateRoot ← takeDigest
  let txRoot ← takeDigest
  let timestamp ← readNat .truncated 8
  let height ← readNat .truncated 8
  let minerAddress ← takeDigest
  let nonce ← readBits .truncated 128 16
  let difficultyTarget ← takeDigest
  let logSlots ← readNat .truncated 4
  let activeSlotCount ← readNat .truncated 8
  let allocCounter ← readNat .truncated 8
  pure
    { prevBlockHash, stateRoot, txRoot, timestamp, height, minerAddress, nonce, difficultyTarget
      logSlots, activeSlotCount, allocCounter }

structure Fits (header : BlockHeader Digest) : Prop where
  timestamp : header.timestamp < 256 ^ 8
  height : header.height < 256 ^ 8
  logSlots : header.logSlots < 256 ^ 4
  activeSlotCount : header.activeSlotCount < 256 ^ 8
  allocCounter : header.allocCounter < 256 ^ 8

end BlockHeader

theorem reads_blockHeader : Reads BlockHeader.decode BlockHeader.Fits BlockHeader.encode := by
  have reads_nonce : Reads (readBits WireError.truncated 128 16) (fun _ => True)
      fun value => leBytes 16 value.toNat := reads_readBits _ rfl
  intro input header rest
  simp only [BlockHeader.decode, run_bind_eq_ok, reads_takeDigest _ _ _, reads_readNat _ _ _ _ _,
    reads_nonce _ _ _, run_pure_eq_ok, true_and, BlockHeader.encode, append_assoc]
  constructor
  · rintro ⟨prev, _, rfl, state, _, rfl, tx, _, rfl, timestamp, _, ⟨timestampFits, rfl⟩, height, _,
      ⟨heightFits, rfl⟩, miner, _, rfl, nonce, _, rfl, target, _, rfl, logSlots, _,
      ⟨logSlotsFit, rfl⟩, active, _, ⟨activeFits, rfl⟩, alloc, _, ⟨allocFits, rfl⟩, rfl, rfl⟩
    exact ⟨⟨timestampFits, heightFits, logSlotsFit, activeFits, allocFits⟩, rfl⟩
  · rintro ⟨fits, rfl⟩
    exact ⟨_, _, rfl, _, _, rfl, _, _, rfl, _, _, ⟨fits.timestamp, rfl⟩, _, _, ⟨fits.height, rfl⟩,
      _, _, rfl, _, _, rfl, _, _, rfl, _, _, ⟨fits.logSlots, rfl⟩, _, _,
      ⟨fits.activeSlotCount, rfl⟩, _, _, ⟨fits.allocCounter, rfl⟩, rfl, rfl⟩

theorem length_encode_blockHeader (header : BlockHeader Digest) :
    header.encode.length = 212 := by
  simp [BlockHeader.encode, digestBytes]

/-- Wire form of a record: a system mint as a whole body, anything else as a page. -/
def encodeRecord (body : TxBody) : Option (List Byte) :=
  if body.isCoinbase then body.encode else encodePage body

def encodeRecords : List TxBody → Option (List Byte)
  | [] => some []
  | coinbase :: rest => do
    let first ← coinbase.encode
    let others ← rest.mapM encodeRecord
    some (first ++ others.flatten)

/-- Read a record after the first: probe it as a system mint, else read it as a page. -/
def decodeRecord : Reader WireError TxBody := fun input =>
  match TxBody.decode input with
  | .ok (body, rest) => if body.isCoinbase then .ok (body, rest) else decodePage input
  | .error _ => decodePage input

def decodeRecords : Nat → Reader WireError (List TxBody)
  | 0 => pure []
  | count + 1 => do
    let coinbase ← TxBody.decode
    check (require (coinbase.isCoinbase = true) .nonCanonicalBody)
    let rest ← readMany decodeRecord count
    pure (coinbase :: rest)

def RecordCanonical (body : TxBody) : Prop :=
  if body.isCoinbase then validateBodySemanticsNoHash body = .ok () else PageShape body

variable {bytes : List Byte}

theorem encodeRecord_eq_some {body : TxBody} :
    encodeRecord body = some bytes ↔ RecordCanonical body ∧ encodePageBody body = bytes := by
  rw [encodeRecord, RecordCanonical]
  split_ifs with coinbase
  · rw [TxBody.encode]
    split_ifs with canonical <;> simp [canonical]
  · have shaped : validatePageShape body 0 = .ok () ↔ PageShape body := validatePageShape_eq_ok
    rw [encodePage, ← shaped]
    split_ifs with shape <;> simp [shape]

/-- The probe never takes a page for a system mint. -/
theorem reads_record : Reads decodeRecord RecordCanonical encodePageBody := by
  intro input body rest
  rw [decodeRecord, RecordCanonical]
  cases probed : TxBody.decode input with
  | error error =>
    simp only [reads_page input body rest]
    constructor
    · rintro ⟨shape, rfl⟩
      rw [if_neg (by simp [shape.user])]
      exact ⟨shape, rfl⟩
    · rintro ⟨canonical, rfl⟩
      split_ifs at canonical with coinbase
      · rw [reads_txBody.inverts canonical rest] at probed
        cases probed
      · exact ⟨canonical, rfl⟩
  | ok pair =>
    obtain ⟨found, after⟩ := pair
    obtain ⟨foundCanonical, whole⟩ := (reads_txBody input found after).mp probed
    have fields : decodePageBody input = .ok (found, after) :=
      (reads_pageBody input found after).mpr ⟨trivial, whole⟩
    cases coinbase : found.isCoinbase with
    | true =>
      simp only [coinbase, if_true, Except.ok.injEq, Prod.mk.injEq]
      constructor
      · rintro ⟨rfl, rfl⟩
        exact ⟨by rwa [if_pos coinbase], whole⟩
      · rintro ⟨-, given⟩
        rw [(reads_pageBody input body rest).mpr ⟨trivial, given⟩, Except.ok.injEq,
          Prod.mk.injEq] at fields
        exact ⟨fields.1.symm, fields.2.symm⟩
    | false =>
      simp only [coinbase, Bool.false_eq_true, if_false, reads_page input body rest]
      constructor
      · rintro ⟨shape, given⟩
        rw [if_neg (by simp [shape.user])]
        exact ⟨shape, given⟩
      · rintro ⟨canonical, given⟩
        rw [(reads_pageBody input body rest).mpr ⟨trivial, given⟩, Except.ok.injEq,
          Prod.mk.injEq] at fields
        rw [fields.1, if_neg (by simp [coinbase])] at canonical
        exact ⟨fields.1 ▸ canonical, given⟩

/-- The records of a block as they are read, a system record first. -/
structure RecordsCanonical (records : List TxBody) : Prop where
  canonical : ∀ record ∈ records, RecordCanonical record
  coinbase : ∀ first ∈ records.head?, first.isCoinbase = true

theorem reads_records (count : Nat) :
    Reads (decodeRecords count)
      (fun records => records.length = count ∧ RecordsCanonical records)
      fun records => records.flatMap encodePageBody := by
  intro input records rest
  cases count with
  | zero =>
    simp only [decodeRecords, run_pure_eq_ok]
    constructor
    · rintro ⟨rfl, rfl⟩
      exact ⟨⟨rfl, by simp, by simp⟩, rfl⟩
    · rintro ⟨⟨size, -⟩, rfl⟩
      obtain rfl := eq_nil_of_length_eq_zero size
      exact ⟨rfl, rfl⟩
  | succ count =>
    simp only [decodeRecords, run_bind_eq_ok, reads_txBody _ _ _, run_check_eq_ok, require_eq_ok,
      reads_record.many count _ _ _, run_pure_eq_ok]
    constructor
    · rintro ⟨first, _, ⟨canonical, rfl⟩, ⟨⟩, _, ⟨coinbase, rfl⟩, others, _, ⟨⟨size, all⟩, rfl⟩,
        rfl, rfl⟩
      have whole : RecordCanonical first := by rwa [RecordCanonical, if_pos coinbase]
      exact ⟨⟨by simp [size], forall_mem_cons.mpr ⟨whole, all⟩, by simpa using coinbase⟩,
        by simp⟩
    · rintro ⟨⟨size, all, coinbase⟩, rfl⟩
      cases records with
      | nil => simp at size
      | cons first others =>
        have leads : first.isCoinbase = true := coinbase first rfl
        rw [forall_mem_cons, RecordCanonical, if_pos leads] at all
        exact ⟨first, others.flatMap encodePageBody ++ rest, ⟨all.1, by simp⟩, (), _,
          ⟨leads, rfl⟩, others, rest, ⟨⟨Nat.succ.inj size, all.2⟩, rfl⟩, rfl, rfl⟩

variable {records : List TxBody}

theorem encodeRecords_eq_some (coinbase : ∀ first ∈ records.head?, first.isCoinbase = true) :
    encodeRecords records = some bytes ↔
      RecordsCanonical records ∧ records.flatMap encodePageBody = bytes := by
  cases records with
  | nil =>
    simp only [encodeRecords, Option.some.injEq, flatMap_nil]
    exact ⟨fun same => ⟨⟨by simp, by simp⟩, same⟩, And.right⟩
  | cons first others =>
    have leads : first.isCoinbase = true := coinbase first rfl
    have whole : first.encode = encodeRecord first := by rw [encodeRecord, if_pos leads]
    simp only [encodeRecords, whole, Option.bind_eq_bind, Option.bind_eq_some_iff,
      encodeRecord_eq_some, mapM_eq_some fun _ _ => encodeRecord_eq_some, Option.some.injEq,
      flatMap_cons]
    constructor
    · rintro ⟨_, ⟨canonical, rfl⟩, _, ⟨all, rfl⟩, rfl⟩
      exact ⟨⟨forall_mem_cons.mpr ⟨canonical, all⟩, coinbase⟩, by rw [flatMap_def]⟩
    · rintro ⟨⟨all, -⟩, rfl⟩
      rw [forall_mem_cons] at all
      exact ⟨_, ⟨all.1, rfl⟩, _, ⟨all.2, rfl⟩, by rw [flatMap_def]⟩

/-- An empty block, or one whose records are a valid page stream. -/
def StreamCanonical (hasher : TxHasher) (records : List TxBody) : Prop :=
  records = [] ∨ (validateBlockPageStream hasher records).isOk = true

instance (hasher : TxHasher) (records : List TxBody) : Decidable (StreamCanonical hasher records) :=
  inferInstanceAs (Decidable (_ ∨ _))

namespace Block

/-- Bytes of a block; a block that fails an assertion of the encoder is not written. -/
def toBytes (hasher : TxHasher) (block : Block Digest) : Option (List Byte) := do
  guard (block.transactions.length ≤ blockMaxTxs)
  guard (StreamCanonical hasher block.transactions)
  let records ← encodeRecords block.transactions
  let objects ← encodeClientObjectsSection block.clientObjects
  some ([blockWireMarker] ++ block.header.encode ++ leBytes 4 block.transactions.length ++
    records ++ objects)

/-- Objects belong to a block from this height on. -/
def v1_5Active (activation : Option Nat) (height : Nat) : Bool :=
  activation.any fun first => decide (first ≤ height)

/-- Read the section that ends a block, where there is one. Any other byte is left unread. -/
def decodeObjects (active : Bool) : Reader WireError (List ClientObject) := fun input =>
  if active = true ∧ input.head? = some clientObjectsSectionMarker then
    decodeClientObjectsSection input
  else .ok ([], input)

/-- Read a block. Below the object height a section is not part of it. -/
def decodeWithV1_5Activation (hasher : TxHasher) (activation : Option Nat) :
    Reader WireError (Block Digest) := do
  let marker ← takeByte
  check (require (marker = blockWireMarker) .badMarker)
  let header ← BlockHeader.decode
  let count ← takeU32
  check (require (count.toNat ≤ blockMaxTxs) .lengthOverflow)
  let transactions ← decodeRecords count.toNat
  check (require (StreamCanonical hasher transactions) .nonCanonicalBody)
  let clientObjects ← decodeObjects (v1_5Active activation header.height)
  pure { header, transactions, clientObjects }

def fromBytes (hasher : TxHasher) (activation : Option Nat) (bytes : List Byte) :
    Except WireError (Block Digest) := do
  let (block, rest) ← decodeWithV1_5Activation hasher activation bytes
  require (rest = []) .trailingBytes
  pure block

end Block

/-- The blocks the format is for: canonical bodies, counts within the caps, and no objects below the
object height. -/
structure WireCanonical (hasher : TxHasher) (activation : Option Nat) (block : Block Digest) :
    Prop where
  header : block.header.Fits
  count : block.transactions.length ≤ blockMaxTxs
  stream : StreamCanonical hasher block.transactions
  records : ∀ record ∈ block.transactions, RecordCanonical record
  objects : block.clientObjects.length ≤ maxBlockClientObjects
  timely : Block.v1_5Active activation block.header.height = false → block.clientObjects = []

variable {hasher : TxHasher}

theorem StreamCanonical.coinbase (stream : StreamCanonical hasher records) :
    ∀ first ∈ records.head?, first.isCoinbase = true := by
  intro first leads
  rcases stream with rfl | streamed
  · cases leads
  · obtain ⟨rest, rfl⟩ := head?_eq_some_iff.mp leads
    obtain ⟨facts, judged⟩ := isOk_eq_true.mp streamed
    simp only [validateBlockPageStream, validateBlockPageStreamIn, bind_eq_ok,
      require_eq_ok] at judged
    exact judged.choose_spec.1

variable {block : Block Digest}

theorem toBytes_eq_some :
    block.toBytes hasher = some bytes ↔
      block.transactions.length ≤ blockMaxTxs ∧ StreamCanonical hasher block.transactions ∧
        (∀ record ∈ block.transactions, RecordCanonical record) ∧
        ∃ objects, encodeClientObjectsSection block.clientObjects = some objects ∧
          bytes = [blockWireMarker] ++ block.header.encode ++
            leBytes 4 block.transactions.length ++ block.transactions.flatMap encodePageBody ++
            objects := by
  by_cases stream : StreamCanonical hasher block.transactions
  · simp only [Block.toBytes, guard, Option.bind_eq_bind, stream, if_true,
      encodeRecords_eq_some stream.coinbase, Option.bind_eq_some_iff]
    constructor
    · rintro ⟨_, few, _, -, _, ⟨canonical, rfl⟩, objects, encoded, same⟩
      split_ifs at few with count
      exact ⟨count, trivial, canonical.canonical, objects, encoded, (Option.some.inj same).symm⟩
    · rintro ⟨count, -, canonical, objects, encoded, rfl⟩
      exact ⟨(), by rw [if_pos count]; rfl, (), rfl, _, ⟨⟨canonical, stream.coinbase⟩, rfl⟩,
        objects, encoded, rfl⟩
  · simp only [Block.toBytes, guard, Option.bind_eq_bind, stream, if_false, Option.bind_eq_some_iff,
      false_and, and_false, iff_false]
    rintro ⟨_, -, _, failed, -⟩
    cases failed

theorem decodeObjects_eq_ok {active : Bool} {input : List Byte} {objects : List ClientObject} :
    Block.decodeObjects active input = .ok (objects, []) ↔
      encodeClientObjectsSection objects = some input ∧ (active = false → objects = []) := by
  rw [Block.decodeObjects]
  split_ifs with carries
  · rw [decodeClientObjectsSection_eq_ok, carries.1]
    simp
  · rw [Except.ok.injEq, Prod.mk.injEq]
    constructor
    · rintro ⟨rfl, rfl⟩
      exact ⟨rfl, fun _ => rfl⟩
    · rintro ⟨encoded, timely⟩
      have none : objects = [] := by
        by_contra some
        have marked := head_encodeClientObjectsSection encoded
        rw [if_neg some] at marked
        cases active with
        | false => exact some (timely rfl)
        | true => exact carries ⟨rfl, marked⟩
      subst none
      exact ⟨rfl, (Option.some.inj encoded).symm⟩

variable {activation : Option Nat}

theorem fromBytes_eq_ok :
    Block.fromBytes hasher activation bytes = .ok block ↔
      WireCanonical hasher activation block ∧ block.toBytes hasher = some bytes := by
  simp only [Block.fromBytes, Block.decodeWithV1_5Activation, bind_eq_ok, Prod.exists,
    run_bind_eq_ok, reads_takeByte _ _ _, run_check_eq_ok, require_eq_ok, reads_blockHeader _ _ _,
    reads_takeU32 _ _ _, reads_records _ _ _ _, run_pure_eq_ok, pure_eq_ok, true_and,
    toBytes_eq_some]
  constructor
  · rintro ⟨_, _, ⟨_, _, rfl, ⟨⟩, _, ⟨rfl, rfl⟩, header, _, ⟨fits, rfl⟩, count, _, rfl, ⟨⟩, _,
      ⟨few, rfl⟩, records, rest, ⟨⟨size, canonical⟩, rfl⟩, ⟨⟩, _, ⟨stream, rfl⟩, objects, _, read,
      rfl, rfl⟩, ⟨⟩, rfl, rfl⟩
    rw [← size] at few
    obtain ⟨encoded, timely⟩ := decodeObjects_eq_ok.mp read
    refine ⟨⟨fits, few, stream, canonical.canonical,
      (length_encodeClientObjectsSection encoded).1, timely⟩, few, stream, canonical.canonical,
      rest, encoded, ?_⟩
    simp [size]
  · rintro ⟨canonical, -, -, -, objects, encoded, rfl⟩
    have counted : (BitVec.ofNat 32 block.transactions.length).toNat =
        block.transactions.length := by
      rw [BitVec.toNat_ofNat, Nat.mod_eq_of_lt]
      exact canonical.count.trans_lt (by decide)
    simp only [append_assoc]
    refine ⟨block, [], ⟨_, _, rfl, (), _, ⟨rfl, rfl⟩, block.header, _,
      ⟨canonical.header, rfl⟩, BitVec.ofNat 32 block.transactions.length, _, ?_, (), _,
      ⟨counted.trans_le canonical.count, rfl⟩, block.transactions, objects, ⟨⟨counted.symm,
      canonical.records, canonical.stream.coinbase⟩, rfl⟩, (), _, ⟨canonical.stream, rfl⟩, _, [],
      decodeObjects_eq_ok.mpr ⟨encoded, canonical.timely⟩, rfl, rfl⟩, (), rfl, rfl⟩
    rw [counted]

theorem WireCanonical.toBytes_isSome (canonical : WireCanonical hasher activation block) :
    ∃ bytes, block.toBytes hasher = some bytes := by
  obtain ⟨objects, encoded⟩ := encodeClientObjectsSection_isSome canonical.objects
  exact ⟨_, toBytes_eq_some.mpr
    ⟨canonical.count, canonical.stream, canonical.records, objects, encoded, rfl⟩⟩

theorem length_toBytes (written : block.toBytes hasher = some bytes) :
    block.canonicalWireLen = some bytes.length := by
  obtain ⟨few, -, -, objects, encoded, rfl⟩ := toBytes_eq_some.mp written
  obtain ⟨fewObjects, size⟩ := length_encodeClientObjectsSection encoded
  have records : (block.transactions.flatMap encodePageBody).length =
      block.transactions.length * transactionWireSize := by
    simp [length_encodePageBody, txBodyWireSize, transactionWireSize]
  rw [Block.canonicalWireLen, if_pos ⟨fewObjects, few⟩]
  simp only [length_append, length_singleton, length_encode_blockHeader, length_leBytes,
    records, size, blockWireFixedOverhead]

/-- A block of the format is read back from its bytes, whose number is known in advance, and bytes
that are read as a block are the bytes it is written as. -/
theorem block_wire_canonical (hasher : TxHasher) (activation : Option Nat) :
    (∀ block, WireCanonical hasher activation block →
      ∃ bytes, block.toBytes hasher = some bytes ∧
        Block.fromBytes hasher activation bytes = .ok block ∧
        block.canonicalWireLen = some bytes.length) ∧
      (∀ bytes block, Block.fromBytes hasher activation bytes = .ok block →
        block.toBytes hasher = some bytes) ∧
      ∀ left right block, Block.fromBytes hasher activation left = .ok block →
        Block.fromBytes hasher activation right = .ok block → left = right := by
  refine ⟨fun block canonical => ?_, fun bytes block read => (fromBytes_eq_ok.mp read).2, ?_⟩
  · obtain ⟨bytes, written⟩ := canonical.toBytes_isSome
    exact ⟨bytes, written, fromBytes_eq_ok.mpr ⟨canonical, written⟩, length_toBytes written⟩
  · intro left right block readLeft readRight
    have written := (fromBytes_eq_ok.mp readLeft).2
    rw [(fromBytes_eq_ok.mp readRight).2] at written
    exact (Option.some.inj written).symm

section Sample

/-- A block with a system record, one page and one object. -/
def wireBlock : Block Digest :=
  ⟨⟨1, 2, 3, 4, 5, 6, 7, 8, 24, 9, 10⟩, [emptyCoinbase, markerPage], [openRegistration 1]⟩

theorem block_wire_canonical_object :
    ∃ bytes, wireBlock.toBytes openHashes.tx = some bytes ∧
      Block.fromBytes openHashes.tx (some 0) bytes = .ok wireBlock ∧
      wireBlock.canonicalWireLen = some bytes.length := by
  have written : (wireBlock.toBytes openHashes.tx).isSome = true := by decide +kernel
  obtain ⟨bytes, written⟩ := Option.isSome_iff_exists.mp written
  obtain ⟨count, stream, records, -⟩ := toBytes_eq_some.mp written
  apply (block_wire_canonical openHashes.tx (some 0)).1
  exact ⟨⟨by decide, by decide, by decide, by decide, by decide⟩, count, stream, records,
    by decide, by decide⟩

end Sample

end Jetsam
