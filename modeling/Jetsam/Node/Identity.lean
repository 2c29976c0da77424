import Jetsam.Node.Issuance

/-!
# Identities of minted outputs

Every output of a run gets a creation identifier: the tagged height for the primary coinbase, the
allocator's serial number otherwise. Neither namespace repeats, so an input names one incarnation of
its slot only.
-/

namespace Jetsam

open Control Finset

/-- One output of a run: how it was minted, its serial number and what was written where. -/
structure MintedOutput where
  primary : Bool
  height : Nat
  serial : Nat
  slot : Nat
  value : SlotValue

namespace MintedOutput

def creationId (mint : MintedOutput) : BitVec 64 := mint.value.creationId

end MintedOutput

/-- Outputs of one body, `cursor` outputs having been minted before. -/
def TxBody.mintedOutputs (body : TxBody) (height : Nat) :
    Nat → List (Nat × TxOutput) → List MintedOutput
  | _, [] => []
  | cursor, live :: rest =>
    { primary := body.isPrimaryCoinbaseShape
      height
      serial := cursor + 1
      slot := live.2.slotIndex.toNat
      value := body.minted height (cursor + 1) live.2 } ::
      body.mintedOutputs height (cursor + 1) rest

def recordMints (height : Nat) : Nat → List TxBody → List MintedOutput
  | _, [] => []
  | cursor, body :: rest =>
    body.mintedOutputs height cursor body.liveOutputs ++
      recordMints height (cursor + body.liveOutputCount) rest

def mintedOver {D : Type} : Nat → List (Block D) → List MintedOutput
  | _, [] => []
  | cursor, block :: rest =>
    recordMints block.header.height cursor block.transactions ++
      mintedOver (cursor + groupLiveOutputs block.transactions) rest

/-- The outputs are numbered from `cursor + 1` on, and carry the identifiers of the rules. -/
structure Identified (cursor : Nat) (mints : List MintedOutput) : Prop where
  serials : mints.map MintedOutput.serial = List.range' (cursor + 1) mints.length
  ids : ∀ mint ∈ mints, mint.creationId =
    if mint.primary then coinbaseCreationId mint.height else BitVec.ofNat 64 mint.serial

variable {mint : MintedOutput}

namespace Identified

variable {cursor : Nat} {mints later : List MintedOutput}

theorem nil (cursor : Nat) : Identified cursor [] := ⟨rfl, by simp⟩

theorem append (first : Identified cursor mints)
    (second : Identified (cursor + mints.length) later) :
    Identified cursor (mints ++ later) where
  serials := by
    rw [List.map_append, first.serials, second.serials, List.length_append,
      ← List.range'_append_1, add_right_comm]
  ids := List.forall_mem_append.mpr ⟨first.ids, second.ids⟩

theorem serial_bounds (identified : Identified cursor mints) (mem : mint ∈ mints) :
    cursor < mint.serial ∧ mint.serial ≤ cursor + mints.length := by
  have listed := List.mem_map_of_mem (f := MintedOutput.serial) mem
  rw [identified.serials, List.mem_range'_1] at listed
  omega

theorem serial_lt (identified : Identified cursor mints) :
    mints.Pairwise fun left right => left.serial < right.serial := by
  have increasing : (mints.map MintedOutput.serial).Pairwise (· < ·) := by
    rw [identified.serials]
    exact List.pairwise_lt_range'
  exact List.pairwise_map.mp increasing

theorem mintedOutputs (body : TxBody) (height cursor : Nat) (outputs : List (Nat × TxOutput)) :
    (body.mintedOutputs height cursor outputs).length = outputs.length ∧
      Identified cursor (body.mintedOutputs height cursor outputs) := by
  induction outputs generalizing cursor with
  | nil => exact ⟨rfl, nil cursor⟩
  | cons live rest ih =>
    obtain ⟨length, serials, ids⟩ := ih (cursor + 1)
    refine ⟨congrArg (· + 1) length, ?_, List.forall_mem_cons.mpr ⟨?_, ids⟩⟩
    · rw [TxBody.mintedOutputs, List.map_cons, serials, List.length_cons, List.range'_succ]
    · simp only [MintedOutput.creationId, TxBody.minted, SlotValue.creationId_withOwnerFields,
        TxBody.mintedId]

theorem recordMints (height cursor : Nat) (records : List TxBody) :
    (recordMints height cursor records).length = groupLiveOutputs records ∧
      Identified cursor (recordMints height cursor records) := by
  induction records generalizing cursor with
  | nil => exact ⟨rfl, nil cursor⟩
  | cons body rest ih =>
    obtain ⟨length, identified⟩ := mintedOutputs body height cursor body.liveOutputs
    obtain ⟨restLength, restIdentified⟩ := ih (cursor + body.liveOutputCount)
    rw [← body.liveOutputCount_eq] at length
    refine ⟨?_, identified.append (length ▸ restIdentified)⟩
    rw [Jetsam.recordMints, List.length_append, length, restLength]
    rfl

/-- Primary mints of increasing heights make all identifiers different. -/
theorem creationId_nodup (identified : Identified 0 mints) (few : mints.length < 2 ^ 63)
    (heights : ∀ mint ∈ mints, mint.height < 2 ^ 63)
    (primaries : mints.Pairwise fun left right =>
      left.primary = true → right.primary = true → left.height < right.height) :
    (mints.map MintedOutput.creationId).Nodup := by
  rw [List.Nodup, List.pairwise_map]
  refine (primaries.and identified.serial_lt).imp_of_mem ?_
  rintro left right leftIn rightIn ⟨ordered, serials⟩ equal
  have leftBound := identified.serial_bounds leftIn
  have rightBound := identified.serial_bounds rightIn
  have same := congrArg BitVec.toNat equal
  rw [identified.ids left leftIn, identified.ids right rightIn] at same
  cases leftPrimary : left.primary <;> cases rightPrimary : right.primary <;>
    simp only [leftPrimary, rightPrimary, if_true, Bool.false_eq_true, if_false,
      coinbaseCreationId_toNat (heights left leftIn),
      coinbaseCreationId_toNat (heights right rightIn), BitVec.toNat_ofNat] at same
  · omega
  · omega
  · omega
  · have := ordered leftPrimary rightPrimary
    omega

end Identified

theorem TxBody.map_mintedOutputs (body : TxBody) (height cursor : Nat)
    (outputs : List (Nat × TxOutput)) :
    (body.mintedOutputs height cursor outputs).map (fun mint => (mint.slot, mint.value)) =
      body.mintsFrom height cursor outputs := by
  induction outputs generalizing cursor with
  | nil => rfl
  | cons live rest ih => rw [mintedOutputs, List.map_cons, ih, mintsFrom]

variable {records : List TxBody}

namespace Ledger

variable {ledger : Ledger} {height : Nat} {mints : List MintedOutput}

def Occupied (mints : List MintedOutput) (ledger : Ledger) : Prop :=
  ∀ index, ledger.slots index ≠ .empty →
    ∃ mint ∈ mints, mint.slot = index ∧ mint.value = ledger.slots index

theorem Occupied.applyTx {body : TxBody} (occupied : ledger.Occupied mints)
    (applies : ledger.TxApplies body) :
    (ledger.applyTx body height).Occupied
      (mints ++ body.mintedOutputs height ledger.allocCounter body.liveOutputs) := by
  have distinct : ((body.deltas height ledger.allocCounter).map Prod.fst).Nodup := by
    rw [TxBody.keys_deltas]
    exact applies.distinct.map fun _ _ => BitVec.eq_of_toNat_eq
  intro index live
  by_cases written : index ∈ (body.deltas height ledger.allocCounter).map Prod.fst
  · obtain ⟨⟨key, value⟩, inDeltas, rfl⟩ := List.mem_map.mp written
    have holds : (ledger.applyTx body height).slots key = value :=
      overwrite_of_mem distinct inDeltas
    rw [holds] at live ⊢
    rcases List.mem_append.mp inDeltas with spent | minted
    · -- A spent slot is left empty.
      obtain ⟨_, -, same⟩ := List.mem_map.mp spent
      exact absurd (Prod.mk.inj same).2.symm live
    · rw [← body.map_mintedOutputs] at minted
      obtain ⟨mint, mem, same⟩ := List.mem_map.mp minted
      obtain ⟨slot, value⟩ := Prod.mk.inj same
      exact ⟨mint, List.mem_append_right _ mem, slot, value⟩
  · have same : (ledger.applyTx body height).slots index = ledger.slots index :=
      overwrite_of_notMem written
    rw [same] at live ⊢
    obtain ⟨mint, mem, found⟩ := occupied index live
    exact ⟨mint, List.mem_append_left _ mem, found⟩

theorem Occupied.applyRecords (occupied : ledger.Occupied mints)
    (applies : ledger.RecordsApply height records) :
    (ledger.applyRecords height records).Occupied
      (mints ++ recordMints height ledger.allocCounter records) := by
  induction records generalizing ledger mints with
  | nil =>
    rw [recordMints, List.append_nil]
    exact occupied
  | cons body rest ih =>
    obtain ⟨firstApplies, restApplies⟩ := applies
    rw [recordMints, ← List.append_assoc]
    exact ih (occupied.applyTx firstApplies) restApplies

end Ledger

theorem TxBody.primary_mintedOutputs (body : TxBody) (height cursor : Nat)
    (outputs : List (Nat × TxOutput)) :
    ∀ mint ∈ body.mintedOutputs height cursor outputs,
      mint.primary = body.isPrimaryCoinbaseShape ∧ mint.height = height := by
  induction outputs generalizing cursor with
  | nil => simp [mintedOutputs]
  | cons live rest ih => exact List.forall_mem_cons.mpr ⟨⟨rfl, rfl⟩, ih (cursor + 1)⟩

theorem mem_recordMints {height cursor : Nat} (mem : mint ∈ recordMints height cursor records) :
    mint.height = height ∧ ∃ body ∈ records, mint.primary = body.isPrimaryCoinbaseShape := by
  induction records generalizing cursor with
  | nil => cases mem
  | cons body rest ih =>
    rcases List.mem_append.mp mem with first | later
    · obtain ⟨primary, sameHeight⟩ := body.primary_mintedOutputs _ _ _ mint first
      exact ⟨sameHeight, body, List.mem_cons_self, primary⟩
    · obtain ⟨sameHeight, other, inRest, primary⟩ := ih later
      exact ⟨sameHeight, other, List.mem_cons_of_mem _ inRest, primary⟩

variable {layout : BlockLayout}

theorem BlockLayout.Accepted.not_primary (accepted : layout.Accepted) :
    ∀ body ∈ layout.payout.toList ++ layout.pages, body.isPrimaryCoinbaseShape = false := by
  refine List.forall_mem_append.mpr ⟨fun body mem => ?_, fun body mem => ?_⟩
  · have development := accepted.development body (Option.mem_toList.mp mem)
    rw [TxBody.isDevelopmentPayoutShape, Bool.and_eq_true, beq_iff_eq] at development
    rw [TxBody.isPrimaryCoinbaseShape, development.2]
    simp [outputBitmapBit, txInputs]
  · rw [TxBody.isPrimaryCoinbaseShape, accepted.stream.user body mem]
    rfl

/-- A block mints one output with a tagged identifier, its first one. -/
theorem BlockLayout.Accepted.recordMints_eq (accepted : layout.Accepted) (height cursor : Nat) :
    ∃ first rest, recordMints height cursor layout.records = first :: rest ∧
      ∀ mint ∈ rest, mint.primary = false := by
  rw [records, system, List.cons_append, recordMints, TxBody.liveOutputs_primary accepted.primary]
  refine ⟨_, _, rfl, fun mint mem => ?_⟩
  obtain ⟨-, body, inRest, primary⟩ := mem_recordMints mem
  rw [primary, accepted.not_primary body inRest]

variable {D : Type} {hashes : ChainHashes D} {rules : ConsensusRules D}

theorem mintedOver_concat (cursor : Nat) (blocks : List (Block D)) (block : Block D) :
    mintedOver cursor (blocks ++ [block]) = mintedOver cursor blocks ++
      recordMints block.header.height (cursor + (mintedOver cursor blocks).length)
        block.transactions := by
  induction blocks generalizing cursor with
  | nil => simp [mintedOver]
  | cons first rest ih =>
    have length := (Identified.recordMints first.header.height cursor first.transactions).1
    rw [List.cons_append, mintedOver, mintedOver, ih, List.append_assoc, List.length_append,
      length, add_assoc]

/-- The outputs of a run against the ledger it reaches. -/
structure Ledger.Identities (blocks : List (Block D)) (ledger : Ledger) : Prop where
  identified : Identified 0 (mintedOver 0 blocks)
  alloc : ledger.allocCounter = (mintedOver 0 blocks).length
  untagged : ledger.allocCounter < 2 ^ 63
  tall : blocks.length ≤ ledger.allocCounter
  heights : ∀ mint ∈ mintedOver 0 blocks, mint.height ≤ blocks.length
  primaries : (mintedOver 0 blocks).Pairwise fun left right =>
    left.primary = true → right.primary = true → left.height < right.height
  occupied : ledger.Occupied (mintedOver 0 blocks)

namespace NodeState

variable {node next : NodeState D} {ledger : Ledger} {blocks : List (Block D)} {block : Block D}
  {layout : BlockLayout} {effect : ClientObjectsEffect} {finalizedActiveCounts : List Nat}

theorem BlockAccepted.identities
    (accepted : BlockAccepted hashes rules node next ledger block finalizedActiveCounts layout
      effect)
    (height : node.tip.height = blocks.length) (identities : ledger.Identities blocks) :
    (ledger.afterBlock block).Identities (blocks ++ [block]) := by
  have applied := accepted.applied
  have blockHeight : block.header.height = blocks.length + 1 := by
    rw [accepted.checks.height, height]
  have minted : mintedOver 0 (blocks ++ [block]) = mintedOver 0 blocks ++
      recordMints block.header.height ledger.allocCounter block.transactions := by
    rw [mintedOver_concat, zero_add, identities.alloc]
  obtain ⟨length, identified⟩ := Identified.recordMints block.header.height ledger.allocCounter
    block.transactions
  obtain ⟨first, rest, shape, plain⟩ :=
    applied.accepted.recordMints_eq block.header.height ledger.allocCounter
  rw [← applied.records] at shape
  have alloc : (ledger.afterBlock block).allocCounter =
      ledger.allocCounter + groupLiveOutputs block.transactions :=
    Ledger.applyRecords_allocCounter _
  have some : 1 ≤ groupLiveOutputs block.transactions := by
    rw [← length, shape, List.length_cons]
    exact Nat.le_add_left 1 _
  have occupied : (ledger.atDepth block.header.logSlots).Occupied (mintedOver 0 blocks) :=
    identities.occupied
  have oldAlloc := identities.alloc
  have oldTall := identities.tall
  refine ⟨?_, ?_, ?_, ?_, ?_, ?_, ?_⟩
  · rw [minted]
    refine identities.identified.append ?_
    rw [zero_add, ← oldAlloc]
    exact identified
  · rw [minted, List.length_append, length, alloc, oldAlloc]
  · exact Ledger.allocCounter_applyRecords_lt identities.untagged applied.applies
  · rw [alloc, List.length_append, List.length_singleton]
    omega
  · rw [minted, List.length_append, List.length_singleton]
    refine List.forall_mem_append.mpr ⟨fun mint mem => ?_, fun mint mem => ?_⟩
    · exact (identities.heights mint mem).trans (Nat.le_succ _)
    · rw [(mem_recordMints mem).1, blockHeight]
  · rw [minted, List.pairwise_append]
    refine ⟨identities.primaries, ?_, fun left leftIn right rightIn _ _ => ?_⟩
    · rw [shape]
      refine List.pairwise_cons.mpr ⟨fun mint mem _ primary => ?_, ?_⟩
      · rw [plain mint mem] at primary
        cases primary
      · refine List.pairwise_of_forall_mem_list fun left _ right rightIn _ primary => ?_
        rw [plain right rightIn] at primary
        cases primary
    · rw [(mem_recordMints rightIn).1, blockHeight]
      exact Nat.lt_succ_of_le (identities.heights left leftIn)
  · rw [minted]
    exact occupied.applyRecords applied.applies

theorem identities_genesis : genesisLedger.Identities ([] : List (Block D)) where
  identified := Identified.nil 0
  alloc := rfl
  untagged := by decide
  tall := le_rfl
  heights := by simp [mintedOver]
  primaries := List.Pairwise.nil
  occupied := fun _ live => absurd rfl live

theorem AcceptedRun.identities [DecidableEq D] (run : AcceptedRun hashes rules blocks node) :
    (ledgerAfter blocks).Identities blocks := by
  induction run with
  | genesis => exact identities_genesis
  | block earlier accepted ih =>
    obtain ⟨sound, height⟩ := earlier.sound
    obtain ⟨layout, effect, done⟩ := sound.acceptBlock accepted
    rw [ledgerAfter, List.foldl_append]
    exact done.identities height ih

theorem AcceptedRun.counted [DecidableEq D] (run : AcceptedRun hashes rules blocks node)
    (spends : ∀ block ∈ blocks, ∀ body ∈ block.transactions, body.SpendsOccupied) :
    (ledgerAfter blocks).Counted := by
  induction run with
  | genesis => exact slotSum_empty rfl
  | block earlier accepted ih =>
    obtain ⟨earlierSpends, blockSpends⟩ := List.forall_mem_append.mp spends
    obtain ⟨layout, effect, done⟩ := earlier.sound.1.acceptBlock accepted
    rw [ledgerAfter, List.foldl_append]
    have counted : ∀ logSlots, ((ledgerAfter _).atDepth logSlots).Counted :=
      fun _ => ih earlierSpends
    exact (counted _).applyRecords (List.forall_mem_singleton.mp blockSpends) done.applied.applies

def liveSlots (state : SegmentedFriState) : Nat :=
  #{index ∈ range state.numSlots | state.slot index ≠ .empty}

theorem Sound.liveSlots_eq (sound : node.Sound hashes ledger) (depth : ledger.logSlots ≤ 32) :
    liveSlots node.chain.state = slotSum liveWeight ledger.slots := by
  rw [liveSlots, card_filter, sound.slot_eq, sound.represents.numSlots,
    slotSum_eq_range rfl depth fun index outside => sound.represents.coherent.holds.outside index
      (sound.represents.numSlots.trans_le outside)]
  exact sum_congr rfl fun index _ => by simp [liveWeight]

/-- The identity rules in the state reached by a run of blocks. -/
structure SlotIdentities (blocks : List (Block D)) (node : NodeState D) : Prop where
  /-- The occupancy counter counts the occupied slots. -/
  active : node.chain.activeSlotCount = liveSlots node.chain.state
  /-- The allocator counts the outputs ever minted. -/
  alloc : node.chain.allocCounter = (mintedOver 0 blocks).length
  untagged : node.chain.allocCounter < 2 ^ 63
  /-- A live slot holds an output of the run, with the tagged mint height of a primary coinbase or
  an untagged number of the allocator. -/
  tagged : ∀ index, node.chain.state.slot index ≠ .empty →
    ∃ mint ∈ mintedOver 0 blocks, mint.slot = index ∧ mint.value = node.chain.state.slot index ∧
      if mint.primary then
        isCoinbaseCreationId mint.creationId = true ∧
          coinbaseCreationHeight mint.creationId = mint.height ∧ mint.height ≤ node.tip.height
      else
        isCoinbaseCreationId mint.creationId = false ∧ 1 ≤ mint.creationId.toNat ∧
          mint.creationId.toNat ≤ node.chain.allocCounter
  /-- No identifier is used twice. -/
  unique : ((mintedOver 0 blocks).map MintedOutput.creationId).Nodup
  /-- An input that names an earlier occupant is refused against a later one. -/
  replay : ∀ earlier later, [earlier, later].Sublist (mintedOver 0 blocks) →
    earlier.slot = later.slot → node.chain.state.slot later.slot = later.value →
    ∀ (body : TxBody) (live : Nat × TxInput), live ∈ body.liveInputs →
      live.2.slotIndex.toNat = earlier.slot → body.claim live.2 = earlier.value →
        node.chain.spendDelta body live = .error .unknownOrSpentInput ∧
          ∀ mintHeight after, node.chain.applyTxCheckedDeferredRoot body mintHeight ≠ .ok after

end NodeState

namespace Ledger.Identities

variable {ledger : Ledger} {blocks : List (Block D)}

section

variable (identities : ledger.Identities blocks)

include identities

theorem heights_lt :
    ∀ mint ∈ mintedOver 0 blocks, mint.height < 2 ^ 63 := fun mint mem =>
  (identities.heights mint mem).trans_lt (identities.tall.trans_lt identities.untagged)

variable {mint : MintedOutput}

theorem creationId_cases (mem : mint ∈ mintedOver 0 blocks) :
    if mint.primary then
      isCoinbaseCreationId mint.creationId = true ∧
        coinbaseCreationHeight mint.creationId = mint.height ∧ mint.height ≤ blocks.length
    else
      isCoinbaseCreationId mint.creationId = false ∧ 1 ≤ mint.creationId.toNat ∧
        mint.creationId.toNat ≤ ledger.allocCounter := by
  have small := identities.heights_lt mint mem
  have serial := identities.identified.serial_bounds mem
  have untagged := identities.untagged
  rw [zero_add, ← identities.alloc] at serial
  rw [identities.identified.ids mint mem]
  cases mint.primary with
  | true =>
    simp only [if_true]
    refine ⟨?_, coinbaseCreationHeight_tagged small, identities.heights mint mem⟩
    rw [isCoinbaseCreationId_iff, coinbaseCreationId_toNat small]
    exact Nat.le_add_right _ _
  | false =>
    have value : (BitVec.ofNat 64 mint.serial).toNat = mint.serial := by
      rw [BitVec.toNat_ofNat, Nat.mod_eq_of_lt (by omega)]
    simp only [Bool.false_eq_true, if_false, value]
    rw [← Bool.not_eq_true, isCoinbaseCreationId_iff, value]
    omega

theorem value_ne_empty (mem : mint ∈ mintedOver 0 blocks) :
    mint.value ≠ .empty := by
  intro equal
  have zero : mint.creationId = 0 := by
    rw [MintedOutput.creationId, equal, SlotValue.creationId_empty]
  have kind := identities.creationId_cases mem
  rw [zero] at kind
  split_ifs at kind with primary
  · exact absurd kind.1 (by decide)
  · exact absurd kind.2.1 (by decide)

theorem creationId_nodup :
    ((mintedOver 0 blocks).map MintedOutput.creationId).Nodup :=
  identities.identified.creationId_nodup (identities.alloc ▸ identities.untagged)
    identities.heights_lt identities.primaries

end

end Ledger.Identities

namespace NodeState

variable {node : NodeState D} {blocks : List (Block D)}

/-- In every run whose blocks spend occupied slots only, every state reached satisfies the identity
rules. -/
theorem AcceptedRun.slotIdentities [DecidableEq D] (run : AcceptedRun hashes rules blocks node)
    (spends : ∀ block ∈ blocks, ∀ body ∈ block.transactions, body.SpendsOccupied) :
    SlotIdentities blocks node := by
  obtain ⟨sound, height⟩ := run.sound
  have identities := run.identities
  have alloc := sound.represents.alloc
  refine ⟨?_, ?_, ?_, ?_, identities.creationId_nodup, ?_⟩
  · rw [sound.liveSlots_eq run.depth, run.counted spends, sound.represents.active]
  · rw [alloc, identities.alloc]
  · rw [alloc]
    exact identities.untagged
  · intro index live
    rw [sound.slot_eq] at live ⊢
    obtain ⟨mint, member, slot, value⟩ := identities.occupied index live
    refine ⟨mint, member, slot, value, ?_⟩
    rw [height, alloc]
    exact identities.creationId_cases member
  · intro earlier later inOrder sameSlot occupant body live member named claims
    have different : earlier.creationId ≠ later.creationId := by
      have pair := (inOrder.map MintedOutput.creationId).nodup identities.creationId_nodup
      simpa using pair
    have refuses : node.chain.state.slot live.2.slotIndex.toNat ≠ body.claim live.2 := by
      rw [named, sameSlot, occupant, claims]
      exact fun equal => different (congrArg SlotValue.creationId equal.symm)
    have inRange : live.2.slotIndex.toNat < node.chain.state.numSlots := by
      by_contra outside
      have vacant := sound.represents.coherent.holds.outside _ (not_lt.mp outside)
      rw [named, sameSlot, ← sound.slot_eq, occupant] at vacant
      exact identities.value_ne_empty (inOrder.mem (by simp)) vacant
    constructor
    · simp only [ChainState.spendDelta, require, inRange, sound.resident, refuses, if_true,
        if_false, List.not_mem_nil, not_false_eq_true]
      rfl
    · intro mintHeight after applied
      obtain ⟨applies, -, -, -⟩ := sound.represents.applyTx applied
      exact refuses (by rw [sound.slot_eq, applies.claims live member])

theorem slotIdentities_firstBlock :
    ∃ node, AcceptedRun sampleHashes sampleRules [firstBlock] node ∧
      SlotIdentities [firstBlock] node := by
  obtain ⟨node, run⟩ := firstBlock_run
  refine ⟨node, run, AcceptedRun.slotIdentities run ?_⟩
  exact List.forall_mem_singleton.mpr (spendsOccupied_mintLayout 0)

end NodeState

section Ghost

/-- A page of the zero address that spends the first reward together with an empty slot. -/
def ghostPage : TxBody where
  epochAnchor := 1
  fee := 45000000
  inputOwner := 0
  inputs :=
    ![⟨0, 45000000, coinbaseCreationId 1⟩, ⟨1, 0, 0⟩, .dummy, .dummy, .dummy, .dummy, .dummy,
      .dummy]
  outputs := fun _ => .dummy
  validityBitmap := 3 ||| pagedSpendStartBit ||| pagedSpendEndBit
  isCoinbase := false

def ghostLayout : BlockLayout := ⟨.primaryCoinbase 0 2 45000000 0, none, [(ghostPage, [])]⟩

def ghostBlock : Block SymbolicDigest :=
  sampleBlock firstBlock.header (NodeState.ledgerAfter [firstBlock]) ghostLayout

theorem accepted_ghostPage : PageGroup.Accepted (ghostPage, []) where
  pageCount := by decide
  shape := List.forall_mem_singleton.mpr ⟨by decide, rfl, by decide, by decide⟩
  start := by decide
  ending := by decide
  interior := by simp
  continuation := by simp
  denseInputs := by decide
  denseOutputs := by decide
  inputCap := by decide
  outputCap := by decide
  distinct := fun _ => ⟨by decide, by decide, by
    rw [show groupOutputSlots ((ghostPage, []).1 :: (ghostPage, []).2) = [] by decide]
    simp⟩
  live := by decide
  minimal := by decide
  balance := by decide

theorem accepted_ghostLayout : ghostLayout.Accepted where
  primary := TxBody.isPrimaryCoinbaseShape_primaryCoinbase _ _ _ _
  development := by simp [ghostLayout]
  stream := ⟨rfl, List.forall_mem_singleton.mpr accepted_ghostPage, by decide, by decide, by decide,
    by decide, by
      rw [show groupOutputSlots ghostLayout.pages = [] by decide]
      simp⟩
  pageLimit := by decide

theorem applies_ghostLayout :
    (NodeState.ledgerAfter [firstBlock]).RecordsApply 2 ghostLayout.records := by
  refine (Ledger.recordsApply_iff (by decide)).mpr ⟨?_, ?_, ?_⟩
  · simp only [show ghostLayout.records.flatMap TxBody.touched = [2, 0, 1] by decide]
    simp [NodeState.ledgerAfter, firstBlock, sampleBlock, Ledger.afterBlock, Ledger.atDepth,
      genesisHeader, stateLogSlots]
  · refine List.forall_mem_cons.mpr ⟨⟨?_, ?_⟩, List.forall_mem_singleton.mpr ⟨?_, ?_⟩⟩
    all_goals decide
  · exact ⟨by decide, by decide, by decide, by decide, by decide, by decide, trivial⟩

/-- A run whose second block spends an empty slot leaves the occupancy counter behind. -/
theorem ghost_spend_undercounts :
    ∃ node, NodeState.AcceptedRun sampleHashes sampleRules [firstBlock, ghostBlock] node ∧
      node.chain.activeSlotCount ≠ NodeState.liveSlots node.chain.state := by
  obtain ⟨first, run⟩ := firstBlock_run
  obtain ⟨sound, height⟩ := run.sound
  have tip : first.tip = firstBlock.header := run.tip
  have bounded : ResourcesBounded ghostLayout.records :=
    ⟨by decide, by decide, by decide, by decide⟩
  have allocated : developmentAllocationWith (first.tip.height + 1) none =
      .ok ⟨true, false, 2500000, none, 45000000⟩ := by
    rw [height]
    decide
  have paid : FeesPaid first.tip ghostLayout.groups := by
    rw [tip]
    exact List.forall_mem_singleton.mpr (by decide)
  have ceiling : (ghostLayout.coinbase.outputs 0).amount.toNat ≤
      minerSubsidyWith (first.tip.height + 1) none +
        claimableFees first.tip ghostLayout.groups := by
    rw [height]
    exact Nat.le_add_right 45000000 _
  have applies : (NodeState.ledgerAfter [firstBlock]).RecordsApply (first.tip.height + 1)
      ghostLayout.records := by
    rw [height]
    exact applies_ghostLayout
  obtain ⟨node, accepted⟩ := @NodeState.Sound.accept_objectBlock _ _ _ (fun _ => 0)
    sampleRules.client sampleRules.batch [] ⟨[], none, none, 0⟩ sound (by decide)
    accepted_ghostLayout bounded rfl (by decide) _ allocated
    (systemRecordsValid_primaryCoinbase _ _ _ _ _) paid ceiling applies rfl
  rw [tip] at accepted
  have ghostRun : NodeState.AcceptedRun sampleHashes sampleRules [firstBlock, ghostBlock] node :=
    run.block accepted
  refine ⟨node, ghostRun, ?_⟩
  have final := ghostRun.sound.1
  -- Slot 2 is occupied, but the counter is back at zero.
  have active : node.chain.activeSlotCount = 0 := by
    rw [final.represents.active]
    decide
  have occupied : 0 < NodeState.liveSlots node.chain.state := by
    refine card_pos.mpr ⟨2, mem_filter.mpr ⟨mem_range.mpr ?_, ?_⟩⟩
    · rw [final.represents.numSlots,
        show (NodeState.ledgerAfter [firstBlock, ghostBlock]).logSlots = 24 by decide]
      norm_num
    · rw [final.slot_eq]
      decide
  rw [active]
  exact occupied.ne

end Ghost

end Jetsam
