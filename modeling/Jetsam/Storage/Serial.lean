import Jetsam.Block.Undo
import Jetsam.Client.Openings
import Jetsam.Consensus.Admission
import Jetsam.Control.SparseLists
import Jetsam.Tx.Wire

/-!
# Storage formats

A segment is stored as its live slots with their positions, in increasing order; an undo log as its
four counters, its slot changes and its identifiers. Both decoders check the length of the whole
value first.
-/

namespace Jetsam

open Control Wire List

def encodeSlotValue (slot : SlotValue) : List Byte :=
  leBytes 16 slot.value.toNat ++ leBytes 16 slot.ownerHi.toNat ++ leBytes 16 slot.ownerLo.toNat

def decodeSlotValue : Reader Unit SlotValue := do
  let value ← readBits () 128 16
  let ownerHi ← readBits () 128 16
  let ownerLo ← readBits () 128 16
  pure ⟨value, ownerHi, ownerLo⟩

/-- First bytes of a stored segment: "SGS1". -/
def segmentEncodingMagic : List Byte := [0x53, 0x47, 0x53, 0x31]

def encodedSegmentHeaderBytes : Nat := 4 + 1 + 4

def encodedSegmentEntryBytes : Nat := 2 + 48

/-- Bytes of a segment with some live slots; no segment has more live slots than slots. -/
def encodedSegmentLenForLiveCount (effectiveLogSeg liveCount : Nat) : Option Nat :=
  if 16 < effectiveLogSeg then none
  else if 2 ^ effectiveLogSeg < liveCount then none
  else some (encodedSegmentHeaderBytes + liveCount * encodedSegmentEntryBytes)

/-- Live slots of a segment, from its number of bytes. -/
def encodedSegmentLiveCountFromLen (effectiveLogSeg encodedLen : Nat) : Option Nat := do
  let payloadLen ← checkedSub encodedLen encodedSegmentHeaderBytes
  guard (payloadLen % encodedSegmentEntryBytes = 0)
  let liveCount := payloadLen / encodedSegmentEntryBytes
  guard (liveCount < 2 ^ 32)
  let expectedLen ← encodedSegmentLenForLiveCount effectiveLogSeg liveCount
  guard (expectedLen = encodedLen)
  return liveCount

def encodeSegmentEntry (entry : Nat × SlotValue) : List Byte :=
  leBytes 2 entry.1 ++ encodeSlotValue entry.2

def decodeSegmentEntry : Reader Unit (Nat × SlotValue) := do
  let localIndex ← readNat () 2
  let slot ← decodeSlotValue
  pure (localIndex, slot)

/-- Every position is in the segment and above the one before, and no slot is empty. -/
def entriesInOrder (capacity : Nat) : Option Nat → List (Nat × SlotValue) → Bool
  | _, [] => true
  | previous, (localIndex, slot) :: rest =>
    decide (localIndex < capacity) && previous.all (· < localIndex) && !slot.isEmpty &&
      entriesInOrder capacity (some localIndex) rest

def encodeSegmentHeader (effectiveLogSeg liveCount : Nat) : List Byte :=
  segmentEncodingMagic ++ leBytes 1 effectiveLogSeg ++ leBytes 4 liveCount

def encodeSparseSegmentEntries (effectiveLogSeg : Nat) (entries : List (Nat × SlotValue)) :
    Option (List Byte) := do
  guard (entries.length < 2 ^ 32)
  let _ ← encodedSegmentLenForLiveCount effectiveLogSeg entries.length
  guard (entriesInOrder (2 ^ effectiveLogSeg) none entries = true)
  return encodeSegmentHeader effectiveLogSeg entries.length ++ entries.flatMap encodeSegmentEntry

def encodeSegment (columns : SegmentColumns) (effectiveLogSeg : Nat) : List Byte :=
  encodeSegmentHeader effectiveLogSeg (SegmentedFriState.countLive columns) ++
    (support .empty 0 columns).flatMap encodeSegmentEntry

/-- A stored segment that is not expanded. -/
structure SparseSegmentView where
  effectiveLogSeg : Nat
  liveCount : Nat
  entries : List (Nat × SlotValue)

def readSparseSegment (length : Nat) : Reader Unit SparseSegmentView := do
  let magic ← take () 4
  check (require (magic = segmentEncodingMagic) ())
  let effectiveLogSeg ← readNat () 1
  check (require (effectiveLogSeg ≤ 16) ())
  let liveCount ← readNat () 4
  let expectedLen ← check (okOr (encodedSegmentLenForLiveCount effectiveLogSeg liveCount) ())
  check (require (length = expectedLen) ())
  let entries ← readMany decodeSegmentEntry liveCount
  check (require (entriesInOrder (2 ^ effectiveLogSeg) none entries = true) ())
  pure ⟨effectiveLogSeg, liveCount, entries⟩

def decodeSparseSegment (bytes : List Byte) : Option SparseSegmentView :=
  (readSparseSegment bytes.length).value bytes

def decodeSegment (bytes : List Byte) : Option (Nat × SegmentColumns) := do
  let sparse ← decodeSparseSegment bytes
  return (sparse.effectiveLogSeg, spread .empty (2 ^ sparse.effectiveLogSeg) sparse.entries)

def encodeSlotChange (change : BitVec 32 × SlotValue) : List Byte :=
  leBytes 4 change.1.toNat ++ encodeSlotValue change.2

def decodeSlotChange : Reader Unit (BitVec 32 × SlotValue) := do
  let index ← readBits () 32 4
  let slot ← decodeSlotValue
  pure (index, slot)

def encodeUndoLog (undo : BlockUndoLog) : List Byte :=
  leBytes 8 undo.blockHeight ++ leBytes 4 undo.logSlotsBefore ++
    leBytes 8 undo.activeSlotCountBefore ++ leBytes 8 undo.allocCounterBefore ++
    leBytes 4 undo.slotChanges.length ++ leBytes 4 undo.txHashes.length ++
    undo.slotChanges.flatMap encodeSlotChange ++ undo.txHashes.flatMap digestBytes

/-- Read an undo log of some length; counts that no block can reach are refused first. -/
def readUndoLog (length : Nat) : Reader Unit BlockUndoLog := do
  let blockHeight ← readNat () 8
  let logSlotsBefore ← readNat () 4
  let activeSlotCountBefore ← readNat () 8
  let allocCounterBefore ← readNat () 8
  let changeCount ← readNat () 4
  let hashCount ← readNat () 4
  check (require (changeCount ≤ blockMaxActions ∧ hashCount ≤ blockMaxTxs) ())
  check (require (length = 36 + changeCount * 52 + hashCount * 32) ())
  let slotChanges ← readMany decodeSlotChange changeCount
  let txHashes ← readMany (readBits () 256 32) hashCount
  pure ⟨blockHeight, logSlotsBefore, activeSlotCountBefore, allocCounterBefore, slotChanges,
    txHashes⟩

def decodeUndoLog (bytes : List Byte) : Option BlockUndoLog :=
  (readUndoLog bytes.length).value bytes

theorem reads_slotValue : Reads decodeSlotValue (fun _ => True) encodeSlotValue := by
  have lane := reads_readBits () (show 128 = 8 * 16 from rfl)
  intro input slot rest
  simp only [decodeSlotValue, run_bind_eq_ok, lane _ _ _, run_pure_eq_ok, true_and, encodeSlotValue,
    append_assoc]
  constructor
  · rintro ⟨value, _, rfl, ownerHi, _, rfl, ownerLo, _, rfl, rfl, rfl⟩
    rfl
  · rintro rfl
    exact ⟨_, _, rfl, _, _, rfl, _, _, rfl, rfl, rfl⟩

theorem reads_segmentEntry :
    Reads decodeSegmentEntry (fun entry => entry.1 < 256 ^ 2) encodeSegmentEntry := by
  intro input entry rest
  simp only [decodeSegmentEntry, run_bind_eq_ok, reads_readNat _ _ _ _ _, reads_slotValue _ _ _,
    run_pure_eq_ok, true_and, encodeSegmentEntry, append_assoc]
  constructor
  · rintro ⟨localIndex, _, ⟨fits, rfl⟩, slot, _, rfl, rfl, rfl⟩
    exact ⟨fits, rfl⟩
  · rintro ⟨fits, rfl⟩
    exact ⟨_, _, ⟨fits, rfl⟩, _, _, rfl, rfl, rfl⟩

@[simp]
theorem length_encodeSlotValue (slot : SlotValue) : (encodeSlotValue slot).length = 48 := by
  simp [encodeSlotValue]

@[simp]
theorem length_encodeSegmentEntry (entry : Nat × SlotValue) :
    (encodeSegmentEntry entry).length = encodedSegmentEntryBytes := by
  simp [encodeSegmentEntry, encodedSegmentEntryBytes]

variable {entries : List (Nat × SlotValue)}

/-- The order check accepts the sparse forms of segments. -/
theorem entriesInOrder_iff {capacity : Nat} {previous : Option Nat} :
    entriesInOrder capacity previous entries = true ↔
      (∀ entry ∈ entries, entry.1 < capacity ∧ entry.2 ≠ .empty ∧
        ∀ last ∈ previous, last < entry.1) ∧
        entries.Pairwise fun left right => left.1 < right.1 := by
  induction entries generalizing previous with
  | nil => simp [entriesInOrder]
  | cons entry entries ih =>
    obtain ⟨localIndex, slot⟩ := entry
    have above : (previous.all (· < localIndex)) = true ↔ ∀ last ∈ previous, last < localIndex := by
      cases previous <;> simp
    simp only [entriesInOrder, Bool.and_eq_true, decide_eq_true_eq, above, Bool.not_eq_true',
      SlotValue.isEmpty_eq_false_iff, ih, forall_mem_cons, pairwise_cons,
      Option.mem_def, Option.some.injEq, forall_eq']
    constructor
    · rintro ⟨⟨⟨inside, higher⟩, solid⟩, rest, sorted⟩
      refine ⟨⟨⟨inside, solid, higher⟩, fun entry mem => ?_⟩, fun entry mem => ?_, sorted⟩
      · obtain ⟨bounded, live, later⟩ := rest entry mem
        exact ⟨bounded, live, fun last seen => (higher last seen).trans later⟩
      · exact (rest entry mem).2.2
    · rintro ⟨⟨⟨inside, solid, higher⟩, rest⟩, later, sorted⟩
      exact ⟨⟨⟨inside, higher⟩, solid⟩,
        fun entry mem => ⟨(rest entry mem).1, (rest entry mem).2.1, later entry mem⟩,
        sorted⟩

/-- The sparse form of a segment with some slots. -/
structure SparseForm (effectiveLogSeg : Nat) (entries : List (Nat × SlotValue)) : Prop where
  size : effectiveLogSeg ≤ 16
  inside : ∀ entry ∈ entries, entry.1 < 2 ^ effectiveLogSeg
  solid : ∀ entry ∈ entries, entry.2 ≠ .empty
  sorted : entries.Pairwise fun left right => left.1 < right.1

namespace SparseForm

variable {effectiveLogSeg : Nat} {entries : List (Nat × SlotValue)} {columns : SegmentColumns}

section

variable (form : SparseForm effectiveLogSeg entries)

include form

theorem capacity_le : 2 ^ effectiveLogSeg ≤ 2 ^ 16 :=
  Nat.pow_le_pow_right (by norm_num) form.size

theorem inOrder :
    entriesInOrder (2 ^ effectiveLogSeg) none entries = true := by
  rw [entriesInOrder_iff]
  exact ⟨fun entry mem => ⟨form.inside entry mem, form.solid entry mem, by simp⟩,
    form.sorted⟩

/-- Distinct positions of a segment are at most as many as its slots. -/
theorem length_le :
    entries.length ≤ 2 ^ effectiveLogSeg := by
  have distinct : (entries.map Prod.fst).Nodup :=
    pairwise_map.mpr (form.sorted.imp fun below => ne_of_lt below)
  have bounded : entries.map Prod.fst ⊆ List.range (2 ^ effectiveLogSeg) := by
    intro position mem
    obtain ⟨entry, found, rfl⟩ := mem_map.mp mem
    exact mem_range.mpr (form.inside entry found)
  have count := (subperm_of_subset distinct bounded).length_le
  rwa [length_map, length_range] at count

theorem encodedLen :
    encodedSegmentLenForLiveCount effectiveLogSeg entries.length =
      some (encodedSegmentHeaderBytes + entries.length * encodedSegmentEntryBytes) := by
  rw [encodedSegmentLenForLiveCount, if_neg (not_lt.mpr form.size),
    if_neg (not_lt.mpr form.length_le)]

end

theorem support (size : effectiveLogSeg ≤ 16) (whole : columns.length = 2 ^ effectiveLogSeg) :
    SparseForm effectiveLogSeg (Control.support .empty 0 columns) where
  size := size
  inside := by
    intro entry mem
    have found := ((mem_support_zero SlotValue.empty).mp mem).1
    exact whole ▸ (List.getElem?_eq_some_iff.mp found).1
  solid := fun entry mem => ((mem_support_zero SlotValue.empty).mp mem).2
  sorted := sorted_support SlotValue.empty 0 columns

end SparseForm

theorem length_support_columns (columns : SegmentColumns) :
    (support .empty 0 columns).length = SegmentedFriState.countLive columns := by
  rw [length_support, SegmentedFriState.countLive]
  congr 1
  funext slot
  cases empty : slot.isEmpty <;> simp_all

def sparseBytes (effectiveLogSeg : Nat) (entries : List (Nat × SlotValue)) : List Byte :=
  encodeSegmentHeader effectiveLogSeg entries.length ++ entries.flatMap encodeSegmentEntry

theorem length_sparseBytes (effectiveLogSeg : Nat) (entries : List (Nat × SlotValue)) :
    (sparseBytes effectiveLogSeg entries).length =
      encodedSegmentHeaderBytes + entries.length * encodedSegmentEntryBytes := by
  have entryBytes : (entries.flatMap encodeSegmentEntry).length =
      entries.length * encodedSegmentEntryBytes := by
    simp [length_flatMap]
  simp only [sparseBytes, encodeSegmentHeader, length_append, length_leBytes, entryBytes]
  rfl

theorem encodeSegment_eq (columns : SegmentColumns) (effectiveLogSeg : Nat) :
    encodeSegment columns effectiveLogSeg =
      sparseBytes effectiveLogSeg (support .empty 0 columns) := by
  rw [encodeSegment, sparseBytes, length_support_columns]

variable {effectiveLogSeg : Nat}

theorem encodeSparseSegmentEntries_of_form (form : SparseForm effectiveLogSeg entries) :
    encodeSparseSegmentEntries effectiveLogSeg entries =
      some (sparseBytes effectiveLogSeg entries) := by
  have short : entries.length < 2 ^ 32 := by
    have count := form.length_le.trans form.capacity_le
    omega
  simp only [encodeSparseSegmentEntries, guard, if_pos short, form.encodedLen, if_pos form.inOrder]
  rfl

variable {bytes : List Byte}

theorem decodeSparseSegment_eq_some {view : SparseSegmentView} :
    decodeSparseSegment bytes = some view ↔
      SparseForm view.effectiveLogSeg view.entries ∧ view.liveCount = view.entries.length ∧
        sparseBytes view.effectiveLogSeg view.entries = bytes := by
  simp only [decodeSparseSegment, value_eq_some, readSparseSegment, run_bind_eq_ok,
    reads_take _ _ _ _ _, reads_readNat _ _ _ _ _, reads_segmentEntry.many _ _ _ _, run_check_eq_ok,
    require_eq_ok, okOr_eq_ok, run_pure_eq_ok, id_eq, entriesInOrder_iff]
  constructor
  · rintro ⟨_, _, _, ⟨-, rfl⟩, ⟨⟩, _, ⟨rfl, rfl⟩, effectiveLogSeg, _, ⟨-, rfl⟩, ⟨⟩, _, ⟨size, rfl⟩,
      liveCount, _, ⟨-, rfl⟩, expectedLen, _, ⟨expected, rfl⟩, ⟨⟩, _, ⟨whole, rfl⟩, entries, rest,
      ⟨⟨rfl, -⟩, rfl⟩, ⟨⟩, _, ⟨⟨each, sorted⟩, rfl⟩, rfl, rfl⟩
    have form : SparseForm effectiveLogSeg entries :=
      ⟨size, fun entry mem => (each entry mem).1, fun entry mem => (each entry mem).2.1,
        sorted⟩
    refine ⟨form, rfl, ?_⟩
    obtain rfl := Option.some.inj (form.encodedLen.symm.trans expected)
    -- the announced length leaves no room behind the entries
    have all : rest = [] := by
      have length := length_sparseBytes effectiveLogSeg entries
      simp only [sparseBytes, encodeSegmentHeader, length_append] at length whole
      exact length_eq_zero_iff.mp (by omega)
    rw [all, sparseBytes, encodeSegmentHeader]
    simp
  · rintro ⟨form, counted, rfl⟩
    obtain ⟨effectiveLogSeg, liveCount, entries⟩ := view
    dsimp only at form counted
    subst counted
    have small : effectiveLogSeg < 256 ^ 1 := by
      have size := form.size
      omega
    have capacity := form.capacity_le
    have short : entries.length < 256 ^ 4 := by
      have count := form.length_le
      omega
    have fits : ∀ entry ∈ entries, entry.1 < 256 ^ 2 := by
      intro entry mem
      have inside := form.inside entry mem
      omega
    refine ⟨[], _, _, ⟨rfl, ?_⟩, (), _, ⟨rfl, rfl⟩, _, _, ⟨small, rfl⟩, (), _, ⟨form.size, rfl⟩,
      _, _, ⟨short, rfl⟩, _, _, ⟨form.encodedLen, rfl⟩, (), _, ⟨length_sparseBytes _ _, rfl⟩,
      entries, [], ⟨⟨rfl, fits⟩, rfl⟩, (), _, ⟨⟨?_, form.sorted⟩, rfl⟩, rfl, rfl⟩
    · rw [sparseBytes, encodeSegmentHeader]
      simp
    · exact fun entry mem => ⟨form.inside entry mem, form.solid entry mem, by simp⟩

variable {columns : SegmentColumns}

theorem decodeSegment_eq_some :
    decodeSegment bytes = some (effectiveLogSeg, columns) ↔
      (effectiveLogSeg ≤ 16 ∧ columns.length = 2 ^ effectiveLogSeg) ∧
        encodeSegment columns effectiveLogSeg = bytes := by
  rw [encodeSegment_eq]
  simp only [decodeSegment, Option.bind_eq_bind, Option.bind_eq_some_iff,
    decodeSparseSegment_eq_some, Option.pure_def, Option.some.injEq, Prod.mk.injEq]
  constructor
  · rintro ⟨view, ⟨form, -, rfl⟩, rfl, rfl⟩
    rw [support_spread form.sorted form.inside form.solid]
    exact ⟨⟨form.size, length_spread _ _ _⟩, rfl⟩
  · rintro ⟨⟨size, whole⟩, rfl⟩
    refine ⟨⟨effectiveLogSeg, (support SlotValue.empty 0 columns).length,
      support .empty 0 columns⟩, ⟨.support size whole, rfl, rfl⟩, rfl, ?_⟩
    rw [← whole, spread_support]

theorem liveCountFromLen_encodeSegment (size : effectiveLogSeg ≤ 16)
    (whole : columns.length = 2 ^ effectiveLogSeg) :
    encodedSegmentLiveCountFromLen effectiveLogSeg (encodeSegment columns effectiveLogSeg).length =
      some (SegmentedFriState.countLive columns) := by
  have form := SparseForm.support size whole
  have expected := form.encodedLen
  have short : SegmentedFriState.countLive columns < 2 ^ 32 := by
    have count := form.length_le.trans form.capacity_le
    rw [length_support_columns] at count
    omega
  rw [encodeSegment_eq, length_sparseBytes, encodedSegmentLiveCountFromLen]
  rw [length_support_columns] at expected ⊢
  have payload : checkedSub (encodedSegmentHeaderBytes +
      SegmentedFriState.countLive columns * encodedSegmentEntryBytes) encodedSegmentHeaderBytes =
        some (SegmentedFriState.countLive columns * encodedSegmentEntryBytes) := by
    rw [checkedSub_eq_some]
    omega
  have pos : 0 < encodedSegmentEntryBytes := by decide
  simp only [payload, Option.bind_eq_bind, Option.bind_some, Nat.mul_mod_left, guard,
    Nat.mul_div_cancel _ pos, if_pos short, expected, if_true]
  rfl

theorem reads_slotChange : Reads decodeSlotChange (fun _ => True) encodeSlotChange := by
  have index := reads_readBits () (show 32 = 8 * 4 from rfl)
  intro input change rest
  simp only [decodeSlotChange, run_bind_eq_ok, index _ _ _, reads_slotValue _ _ _, run_pure_eq_ok,
    true_and, encodeSlotChange, append_assoc]
  constructor
  · rintro ⟨index, _, rfl, slot, _, rfl, rfl, rfl⟩
    rfl
  · rintro rfl
    exact ⟨_, _, rfl, _, _, rfl, rfl, rfl⟩

/-- The counters fit their fields, and the lists the limits of a block. -/
structure BlockUndoLog.Fits (undo : BlockUndoLog) : Prop where
  blockHeight : undo.blockHeight < 256 ^ 8
  logSlotsBefore : undo.logSlotsBefore < 256 ^ 4
  activeSlotCountBefore : undo.activeSlotCountBefore < 256 ^ 8
  allocCounterBefore : undo.allocCounterBefore < 256 ^ 8
  changes : undo.slotChanges.length ≤ blockMaxActions
  hashes : undo.txHashes.length ≤ blockMaxTxs

theorem length_encodeUndoLog (undo : BlockUndoLog) :
    (encodeUndoLog undo).length =
      36 + undo.slotChanges.length * 52 + undo.txHashes.length * 32 := by
  have changes : (undo.slotChanges.flatMap encodeSlotChange).length =
      undo.slotChanges.length * 52 := by
    simp [length_flatMap, encodeSlotChange]
  have hashes : (undo.txHashes.flatMap digestBytes).length = undo.txHashes.length * 32 := by
    simp [length_flatMap, digestBytes]
  simp only [encodeUndoLog, length_append, length_leBytes, changes, hashes]

theorem BlockUndoLog.Fits.decode {undo : BlockUndoLog} (fits : undo.Fits) :
    decodeUndoLog (encodeUndoLog undo) = some undo := by
  have digest := reads_readBits () (show 256 = 8 * 32 from rfl)
  simp only [decodeUndoLog, value_eq_some, readUndoLog, run_bind_eq_ok, reads_readNat _ _ _ _ _,
    reads_slotChange.many _ _ _ _, digest.many _ _ _ _, run_check_eq_ok, require_eq_ok,
    run_pure_eq_ok]
  have changes : undo.slotChanges.length < 256 ^ 4 := fits.changes.trans_lt (by decide)
  have hashes : undo.txHashes.length < 256 ^ 4 := fits.hashes.trans_lt (by decide)
  refine ⟨[], _, _, ⟨fits.blockHeight, ?_⟩, _, _, ⟨fits.logSlotsBefore, rfl⟩, _, _,
    ⟨fits.activeSlotCountBefore, rfl⟩, _, _, ⟨fits.allocCounterBefore, rfl⟩, _, _,
    ⟨changes, rfl⟩, _, _, ⟨hashes, rfl⟩, (), _, ⟨⟨fits.changes, fits.hashes⟩, rfl⟩, (), _,
    ⟨length_encodeUndoLog undo, rfl⟩, undo.slotChanges, _, ⟨⟨rfl, fun _ _ => trivial⟩, rfl⟩,
    undo.txHashes, _, ⟨⟨rfl, fun _ _ => trivial⟩, rfl⟩, rfl, rfl⟩
  simp only [encodeUndoLog, append_assoc, append_nil]
  rfl

variable {D : Type}

/-- The counters before a block are those of a running node: they fit their fields. -/
structure ChainState.CountersFit (chain : ChainState D) : Prop where
  logSlots : chain.state.logSlots < 2 ^ 32
  activeSlotCount : chain.activeSlotCount < 2 ^ 64
  allocCounter : chain.allocCounter < 2 ^ 64

/-- The log of a block that passes the preflight is built, and is within the limits. -/
theorem buildUndoLog_fits (hashes : ChainHashes D) (rules : ClientObjectRules) {block : Block D}
    {chain : ChainState D} {facts : BlockResourcePreflight}
    (preflight : validateBlockResourcePreflight hashes.tx rules block = .ok facts)
    (height : block.header.height < 2 ^ 64) (counters : chain.CountersFit) :
    ∃ undo, buildUndoLog hashes chain block = .ok undo ∧ undo.Fits := by
  obtain ⟨⟨stream, laidOut⟩, actions⟩ := validateBlockResourcePreflight_bounds preflight
  obtain ⟨layout, records, accepted, -⟩ := validateBlockPageStreamIn_eq_ok.mp laidOut
  obtain ⟨undo, built⟩ := @buildUndoLog_isOk _ hashes chain block layout records accepted
  have changes := (length_slotChanges_le built).trans actions
  refine ⟨undo, built, ?_⟩
  simp only [buildUndoLog, bind_eq_ok, pure_eq_ok, records,
    accepted.tryComputeLogicalTxids hashes.tx] at built
  obtain ⟨txHashes, named, rfl⟩ := built
  obtain rfl := Except.ok.inj named
  exact ⟨height, counters.logSlots, counters.activeSlotCount, counters.allocCounter, changes,
    (layout.length_txids_le hashes.tx).trans accepted.length_records⟩

/-- A segment is read back from its bytes, which its sorted live slots give as well, and the undo
log of a block that passes the resource preflight is read back from its bytes. -/
theorem storageFormats_exact (hashes : ChainHashes D) (rules : ClientObjectRules) :
    (∀ (effectiveLogSeg : Nat) (columns : SegmentColumns),
      effectiveLogSeg ≤ 16 → columns.length = 2 ^ effectiveLogSeg →
        decodeSegment (encodeSegment columns effectiveLogSeg) = some (effectiveLogSeg, columns) ∧
        ∀ entries : List (Nat × SlotValue),
          (entries.Pairwise fun left right => left.1 < right.1) →
          (∀ entry, entry ∈ entries ↔ columns[entry.1]? = some entry.2 ∧ entry.2 ≠ .empty) →
          encodeSparseSegmentEntries effectiveLogSeg entries =
            some (encodeSegment columns effectiveLogSeg)) ∧
      (∀ bytes effectiveLogSeg columns,
        decodeSegment bytes = some (effectiveLogSeg, columns) →
          encodeSegment columns effectiveLogSeg = bytes ∧
          encodedSegmentLiveCountFromLen effectiveLogSeg bytes.length =
            some (SegmentedFriState.countLive columns)) ∧
      ∀ (chain : ChainState D) (block : Block D) facts,
        validateBlockResourcePreflight hashes.tx rules block = .ok facts →
        block.header.height < 2 ^ 64 → chain.CountersFit →
          ∃ undo, buildUndoLog hashes chain block = .ok undo ∧
            decodeUndoLog (encodeUndoLog undo) = some undo := by
  refine ⟨?_, ?_, ?_⟩
  · intro effectiveLogSeg columns size whole
    refine ⟨decodeSegment_eq_some.mpr ⟨⟨size, whole⟩, rfl⟩, fun entries sorted members => ?_⟩
    have same : entries = support .empty 0 columns := by
      apply eq_of_sorted_of_mem sorted (sorted_support _ 0 columns)
      intro entry
      rw [members, mem_support_zero]
    rw [same, encodeSegment_eq]
    exact encodeSparseSegmentEntries_of_form (.support size whole)
  · intro bytes effectiveLogSeg columns read
    obtain ⟨⟨size, whole⟩, rfl⟩ := decodeSegment_eq_some.mp read
    exact ⟨rfl, liveCountFromLen_encodeSegment size whole⟩
  · intro chain block facts preflight height counters
    obtain ⟨undo, built, fits⟩ := buildUndoLog_fits hashes rules preflight height counters
    exact ⟨undo, built, fits.decode⟩

/-- A block of one record that pays nothing. -/
def emptyBlock : Block Unit := ⟨⟨0, (), 0, 0, 1, 0, 0, 0, 4, 0, 0⟩, [emptyCoinbase], []⟩

theorem storageFormats_exact_small :
    decodeSegment (encodeSegment [.empty, ⟨1, 0, 0⟩] 1) = some (1, [.empty, ⟨1, 0, 0⟩]) ∧
      encodeSparseSegmentEntries 1 [(1, ⟨1, 0, 0⟩)] =
        some (encodeSegment [.empty, ⟨1, 0, 0⟩] 1) ∧
      encodedSegmentLiveCountFromLen 1 (encodeSegment [.empty, ⟨1, 0, 0⟩] 1).length = some 1 ∧
      ∃ undo, buildUndoLog openHashes (.withLogSlots openHashes.state 4) emptyBlock = .ok undo ∧
        decodeUndoLog (encodeUndoLog undo) = some undo := by
  obtain ⟨segments, readable, logs⟩ :=
    storageFormats_exact openHashes ⟨none, 0, .burn, 0, 0, none, 0, 0, 0, 0, []⟩
  obtain ⟨read, sparse⟩ := segments 1 [.empty, ⟨1, 0, 0⟩] (by decide) rfl
  refine ⟨read, sparse _ (List.pairwise_singleton _ _) ?_, (readable _ _ _ read).2, ?_⟩
  · rintro ⟨position, slot⟩
    rcases position with _ | _ | position <;> simp [SlotValue.empty, eq_comm]
    rintro rfl
    decide
  · have accepted : BlockLayout.Accepted ⟨emptyCoinbase, none, []⟩ :=
      ⟨by decide, by simp, ⟨rfl, by simp, Nat.zero_le _, Nat.zero_le _, List.nodup_nil,
        List.nodup_nil, fun _ impossible => absurd impossible List.not_mem_nil⟩, Nat.zero_le _⟩
    have touched : emptyBlock.transactions.flatMap TxBody.touched = [0] := by decide
    obtain ⟨facts, preflight⟩ := @validateBlockResourcePreflight_isOk _ openHashes.tx
      ⟨none, 0, .burn, 0, 0, none, 0, 0, 0, 0, []⟩ emptyBlock ⟨emptyCoinbase, none, []⟩ rfl accepted
      rfl (by decide) (touched ▸ List.forall_mem_singleton.mpr (by decide))
      ⟨by decide, by decide, by decide, by decide⟩
    have height : 1 < 2 ^ 64 := by norm_num
    have depth : 4 < 2 ^ 32 := by norm_num
    have zero : 0 < 2 ^ 64 := by norm_num
    exact logs _ emptyBlock facts preflight height ⟨depth, zero, zero⟩

end Jetsam
