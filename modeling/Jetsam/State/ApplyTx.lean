import Jetsam.State.Supply
import Jetsam.Tx.PublicLogic

/-!
# Applying one body to the state

`apply_tx_checked_deferred_root` reads every claimed and minted slot, moves the two counters and the
supply, and writes the slots. Its effect is stated on a `Ledger`: the slot map with its depth and
counters.
-/

namespace Jetsam

open Control SegmentedFriState List

inductive ApplyError where
  | slotOutOfRange
  | unknownOrSpentInput
  | outputSlotNotEmpty
  | duplicateOutputSlot
  | inputOutputSlotOverlap
  | activeSlotCountUnderflow
  | activeSlotCountOverflow
  | allocCounterOverflow
  | coinbaseMintHeightMissing
  | exactStateUnavailable
  | circulatingSupplyInvariant
  deriving DecidableEq

def TxBody.claim (body : TxBody) (input : TxInput) : SlotValue :=
  .withOwnerFields input.amount input.creationId (asFields body.inputOwner)

/-- Identifier of a mint: the tagged height for the primary coinbase, the allocator otherwise. -/
def TxBody.mintedId (body : TxBody) (height cursor : Nat) : BitVec 64 :=
  if body.isPrimaryCoinbaseShape then coinbaseCreationId height else BitVec.ofNat 64 cursor

def TxBody.minted (body : TxBody) (height cursor : Nat) (output : TxOutput) : SlotValue :=
  .withOwnerFields output.amount (body.mintedId height cursor) (asFields output.owner)

namespace ChainState

variable {D : Type} (chain : ChainState D)

/-- Check one spend against the state and return its slot update. -/
def spendDelta (body : TxBody) (live : Nat × TxInput) :
    Except ApplyError (Nat × SlotValue) := do
  let index := live.2.slotIndex.toNat
  require (index < chain.state.numSlots) .slotOutOfRange
  require (chain.state.segIdOf index ∉ chain.state.evicted) .exactStateUnavailable
  require (chain.state.slot index = body.claim live.2) .unknownOrSpentInput
  pure (index, .empty)

/-- Check the mints in order and return their slot updates; `cursor` is the last used identifier. -/
def mintDeltas (body : TxBody) (mintHeight : Option Nat) :
    Nat → List (Nat × TxOutput) → Except ApplyError (List (Nat × SlotValue))
  | _, [] => pure []
  | cursor, live :: rest => do
    let index := live.2.slotIndex.toNat
    require (index < chain.state.numSlots) .slotOutOfRange
    require (chain.state.segIdOf index ∉ chain.state.evicted) .exactStateUnavailable
    require (chain.state.slot index = .empty) .outputSlotNotEmpty
    let next ← okOr (checkedAdd u64Bound cursor 1) .allocCounterOverflow
    let height ← okOr
      (if body.isPrimaryCoinbaseShape then mintHeight else some (mintHeight.getD 0))
      .coinbaseMintHeightMissing
    let tail ← mintDeltas body mintHeight next rest
    pure ((index, body.minted height next live.2) :: tail)

def applyTxCheckedDeferredRoot (body : TxBody) (mintHeight : Option Nat) :
    Except ApplyError (ChainState D) := do
  require (body.isCoinbase = true → mintHeight.isSome) .coinbaseMintHeightMissing
  requireNone (firstRepeat [] body.inputSlots) fun _ => .unknownOrSpentInput
  requireFresh (fun _ => .duplicateOutputSlot) (fun _ => .inputOutputSlotOverlap)
    body.inputSlots [] body.outputSlots
  let spends ← body.liveInputs.mapM (chain.spendDelta body)
  let activeAfterSpends ← okOr (checkedSub chain.activeSlotCount body.liveInputCount)
    .activeSlotCountUnderflow
  let activeAfter ← okOr (checkedAdd u64Bound activeAfterSpends body.liveOutputCount)
    .activeSlotCountOverflow
  let finalAllocCounter ← okOr (checkedAdd u64Bound chain.allocCounter body.liveOutputCount)
    .allocCounterOverflow
  require (isCoinbaseCreationId (BitVec.ofNat 64 finalAllocCounter) = false) .allocCounterOverflow
  let mints ← chain.mintDeltas body mintHeight chain.allocCounter body.liveOutputs
  let deltas := spends ++ mints
  let supply ← okOr (chain.supplyAfterSlotUpdates deltas) .circulatingSupplyInvariant
  let state ← mapError (fun _ => ApplyError.slotOutOfRange) (chain.state.applyDeltaUnrooted deltas)
  pure { chain with
    state
    activeSlotCount := activeAfter
    allocCounter := finalAllocCounter
    circulatingSupply := supply }

end ChainState

/-- What the state means: the slot map, its depth and the two counters. -/
structure Ledger where
  logSlots : Nat
  slots : Nat → SlotValue
  activeSlotCount : Nat
  allocCounter : Nat

def Ledger.atDepth (ledger : Ledger) (logSlots : Nat) : Ledger := { ledger with logSlots }

def TxBody.spends (body : TxBody) : List (Nat × SlotValue) :=
  body.liveInputs.map fun live => (live.2.slotIndex.toNat, .empty)

def TxBody.mintsFrom (body : TxBody) (height : Nat) :
    Nat → List (Nat × TxOutput) → List (Nat × SlotValue)
  | _, [] => []
  | cursor, live :: rest =>
    (live.2.slotIndex.toNat, body.minted height (cursor + 1) live.2) ::
      body.mintsFrom height (cursor + 1) rest

/-- Slot updates of a body applied when `cursor` outputs were minted before. -/
def TxBody.deltas (body : TxBody) (height cursor : Nat) : List (Nat × SlotValue) :=
  body.spends ++ body.mintsFrom height cursor body.liveOutputs

def TxBody.touched (body : TxBody) : List (BitVec 32) := body.inputSlots ++ body.outputSlots

theorem TxBody.keys_mintsFrom (body : TxBody) (height cursor : Nat)
    (outputs : List (Nat × TxOutput)) :
    (body.mintsFrom height cursor outputs).map Prod.fst =
      outputs.map fun live => live.2.slotIndex.toNat := by
  induction outputs generalizing cursor with
  | nil => rfl
  | cons live rest ih => simp [mintsFrom, ih]

theorem TxBody.keys_deltas (body : TxBody) (height cursor : Nat) :
    (body.deltas height cursor).map Prod.fst = body.touched.map BitVec.toNat := by
  simp [deltas, spends, touched, inputSlots, outputSlots, keys_mintsFrom, Function.comp_def]

variable {cursor : Nat}

theorem TxBody.mem_deltas {body : TxBody} {height : Nat} {delta : Nat × SlotValue}
    (mem : delta ∈ body.deltas height cursor) : ∃ slot ∈ body.touched, slot.toNat = delta.1 := by
  have key := mem_map_of_mem (f := Prod.fst) mem
  rw [keys_deltas] at key
  exact mem_map.mp key

namespace Ledger

structure TxApplies (ledger : Ledger) (body : TxBody) : Prop where
  distinct : body.touched.Nodup
  inRange : ∀ slot ∈ body.touched, slot.toNat < 2 ^ ledger.logSlots
  claims : ∀ live ∈ body.liveInputs, ledger.slots live.2.slotIndex.toNat = body.claim live.2
  vacant : ∀ live ∈ body.liveOutputs, ledger.slots live.2.slotIndex.toNat = .empty
  covered : body.liveInputCount ≤ ledger.activeSlotCount
  activeBound : ledger.activeSlotCount - body.liveInputCount + body.liveOutputCount < u64Bound
  allocBound : ledger.allocCounter + body.liveOutputCount < 2 ^ 63

def applyTx (ledger : Ledger) (body : TxBody) (height : Nat) : Ledger where
  logSlots := ledger.logSlots
  slots := overwrite ledger.slots (body.deltas height ledger.allocCounter)
  activeSlotCount := ledger.activeSlotCount - body.liveInputCount + body.liveOutputCount
  allocCounter := ledger.allocCounter + body.liveOutputCount

end Ledger

namespace ChainState

variable {D : Type} {hasher : StateHasher D} {chain after : ChainState D} {ledger : Ledger}

/-- The state stands for the ledger, with a current cache and an exact supply. -/
structure Represents (hasher : StateHasher D) (chain : ChainState D) (ledger : Ledger) : Prop where
  coherent : chain.Coherent hasher ledger.slots
  synced : chain.Synced
  logSlots : chain.state.logSlots = ledger.logSlots
  active : chain.activeSlotCount = ledger.activeSlotCount
  alloc : chain.allocCounter = ledger.allocCounter
  supply : chain.circulatingSupply = totalAmount ledger.slots

/-- The segments of all the given slots are in memory or empty. -/
def Resident (chain : ChainState D) (slots : List (BitVec 32)) : Prop :=
  ∀ slot ∈ slots, chain.state.segIdOf slot.toNat ∉ chain.state.evicted

theorem Represents.numSlots (represents : chain.Represents hasher ledger) :
    chain.state.numSlots = 2 ^ ledger.logSlots := by
  rw [SegmentedFriState.numSlots, represents.logSlots]

/-- Two states that read the same: depth, slots, counters, supply and root. -/
structure Agrees (left right : ChainState D) : Prop where
  logSlots : left.state.logSlots = right.state.logSlots
  slots : ∀ index, left.state.slot index = right.state.slot index
  activeSlotCount : left.activeSlotCount = right.activeSlotCount
  allocCounter : left.allocCounter = right.allocCounter
  circulatingSupply : left.circulatingSupply = right.circulatingSupply
  utxoRoot : left.utxoRoot = right.utxoRoot

/-- States of one ledger with one set of evicted segments read the same. -/
theorem Represents.agrees {other : ChainState D} (represents : chain.Represents hasher ledger)
    (represents' : other.Represents hasher ledger)
    (evicted : chain.state.evicted = other.state.evicted)
    (root : chain.utxoRoot = other.utxoRoot) : chain.Agrees other where
  logSlots := represents.logSlots.trans represents'.logSlots.symm
  slots := represents.coherent.holds.slot_congr represents'.coherent.holds
    (represents.logSlots.trans represents'.logSlots.symm) evicted
  activeSlotCount := represents.active.trans represents'.active.symm
  allocCounter := represents.alloc.trans represents'.alloc.symm
  circulatingSupply := represents.supply.trans represents'.supply.symm
  utxoRoot := root

theorem Represents.expandOne [DecidableEq D] (represents : chain.Represents hasher ledger)
    (expanded : chain.expandOne hasher = .ok after) :
    after.Represents hasher (ledger.atDepth (ledger.logSlots + 1)) ∧
      after.state.evicted = chain.state.evicted ∧
      ∀ segId ∈ after.state.dirty, segId ∈ chain.state.dirty := by
  obtain ⟨coherent, synced, logSlots, evicted, dirty, -, active, alloc, supply⟩ :=
    represents.coherent.expandOne represents.synced expanded
  exact ⟨⟨coherent, synced, logSlots.trans (congrArg (· + 1) represents.logSlots),
    active.trans represents.active, alloc.trans represents.alloc,
    supply.trans represents.supply⟩, evicted, dirty⟩

variable {body : TxBody}

theorem spendDelta_reads (live : Nat × TxInput) (delta : Nat × SlotValue) :
    chain.spendDelta body live = .ok delta ↔
      (live.2.slotIndex.toNat < chain.state.numSlots ∧
        chain.state.segIdOf live.2.slotIndex.toNat ∉ chain.state.evicted ∧
        chain.state.slot live.2.slotIndex.toNat = body.claim live.2) ∧
      (live.2.slotIndex.toNat, SlotValue.empty) = delta := by
  simp only [spendDelta, bind_eq_ok, require_eq_ok, exists_const, pure_eq_ok, and_assoc]

variable {mintHeight : Option Nat}

theorem mintDeltas_inRange {outputs : List (Nat × TxOutput)} {deltas : List (Nat × SlotValue)}
    (minted : chain.mintDeltas body mintHeight cursor outputs = .ok deltas) :
    ∀ live ∈ outputs, live.2.slotIndex.toNat < chain.state.numSlots := by
  induction outputs generalizing cursor deltas with
  | nil => simp
  | cons live rest ih =>
    simp only [mintDeltas, bind_eq_ok, require_eq_ok, exists_const] at minted
    obtain ⟨inRange, -, -, next, -, height, -, tail, later, -⟩ := minted
    exact forall_mem_cons.mpr ⟨inRange, ih later⟩

/-- A body applies within the domain, and keeps its depth. -/
theorem applyTxCheckedDeferredRoot_domain
    (applied : chain.applyTxCheckedDeferredRoot body mintHeight = .ok after) :
    (∀ slot ∈ body.touched, slot.toNat < 2 ^ chain.state.logSlots) ∧
      after.state.logSlots = chain.state.logSlots := by
  simp only [applyTxCheckedDeferredRoot, bind_eq_ok, require_eq_ok, requireNone_eq_ok,
    exists_const, mapError_eq_ok, pure_eq_ok] at applied
  obtain ⟨-, -, _, -, spends, spent, _, -, _, -, _, -, -, mints, minted, _, -, state, written,
    rfl⟩ := applied
  refine ⟨?_, SegmentedFriState.applyDeltaUnrooted_logSlots written⟩
  rw [TxBody.touched, forall_mem_append, TxBody.inputSlots, TxBody.outputSlots]
  constructor
  · intro slot mem
    obtain ⟨live, inInputs, rfl⟩ := mem_map.mp mem
    exact ((mapM_eq_ok spendDelta_reads).mp spent).1 live inInputs |>.1
  · intro slot mem
    obtain ⟨live, inOutputs, rfl⟩ := mem_map.mp mem
    exact mintDeltas_inRange minted live inOutputs

theorem mintDeltas_of_user (user : body.isPrimaryCoinbaseShape = false) (left right : Option Nat)
    (cursor : Nat) (outputs : List (Nat × TxOutput)) :
    chain.mintDeltas body left cursor outputs = chain.mintDeltas body right cursor outputs := by
  induction outputs generalizing cursor with
  | nil => rfl
  | cons live rest ih =>
    simp only [mintDeltas, ih, TxBody.minted, TxBody.mintedId, user, Bool.false_eq_true, if_false]
    rfl

/-- The mint height is only read by system mints. -/
theorem applyTxCheckedDeferredRoot_of_user (user : body.isCoinbase = false)
    (left right : Option Nat) :
    chain.applyTxCheckedDeferredRoot body left = chain.applyTxCheckedDeferredRoot body right := by
  have plain : body.isPrimaryCoinbaseShape = false := by
    rw [TxBody.isPrimaryCoinbaseShape, user, Bool.false_and]
  simp only [applyTxCheckedDeferredRoot, user, mintDeltas_of_user plain left right,
    Bool.false_eq_true, false_implies]

theorem spendDelta_eq_ok (represents : chain.Represents hasher ledger) (live : Nat × TxInput)
    (delta : Nat × SlotValue) :
    chain.spendDelta body live = .ok delta ↔
      (live.2.slotIndex.toNat < 2 ^ ledger.logSlots ∧
        chain.state.segIdOf live.2.slotIndex.toNat ∉ chain.state.evicted ∧
        ledger.slots live.2.slotIndex.toNat = body.claim live.2) ∧
      (live.2.slotIndex.toNat, SlotValue.empty) = delta := by
  rw [spendDelta_reads, represents.numSlots]
  refine and_congr_left fun _ => and_congr_right fun _ => and_congr_right fun resident => ?_
  rw [represents.coherent.holds.slot_eq resident]

theorem mintDeltas_eq_ok (represents : chain.Represents hasher ledger)
    (known : body.isCoinbase = true → mintHeight.isSome) {outputs : List (Nat × TxOutput)}
    (bounded : cursor + outputs.length < u64Bound) {deltas : List (Nat × SlotValue)} :
    chain.mintDeltas body mintHeight cursor outputs = .ok deltas ↔
      (∀ live ∈ outputs, live.2.slotIndex.toNat < 2 ^ ledger.logSlots ∧
        chain.state.segIdOf live.2.slotIndex.toNat ∉ chain.state.evicted ∧
        ledger.slots live.2.slotIndex.toNat = .empty) ∧
      body.mintsFrom (mintHeight.getD 0) cursor outputs = deltas := by
  have height : (if body.isPrimaryCoinbaseShape then mintHeight else some (mintHeight.getD 0)) =
      some (mintHeight.getD 0) := by
    split_ifs with primary
    · have coinbase : body.isCoinbase = true := by
        rw [TxBody.isPrimaryCoinbaseShape, Bool.and_eq_true] at primary
        exact primary.1
      obtain ⟨value, rfl⟩ := Option.isSome_iff_exists.mp (known coinbase)
      rfl
    · rfl
  induction outputs generalizing cursor deltas with
  | nil => simp [mintDeltas, TxBody.mintsFrom]
  | cons live rest ih =>
    simp only [length_cons] at bounded
    have tail := fun deltas => @ih (cursor + 1) (by omega) deltas
    simp only [mintDeltas, bind_eq_ok, require_eq_ok, exists_const, pure_eq_ok, okOr_eq_ok,
      checkedAdd_eq_some, represents.numSlots, height, Option.some.injEq, TxBody.mintsFrom,
      forall_mem_cons, and_assoc]
    constructor
    · rintro ⟨inRange, resident, vacant, _, -, rfl, _, rfl, _, done, rfl⟩
      obtain ⟨each, rfl⟩ := (tail _).mp done
      rw [represents.coherent.holds.slot_eq resident] at vacant
      exact ⟨inRange, resident, vacant, each, rfl⟩
    · rintro ⟨inRange, resident, vacant, each, rfl⟩
      rw [← represents.coherent.holds.slot_eq resident] at vacant
      exact ⟨inRange, resident, vacant, _, by omega, rfl, _, rfl, _, (tail _).mpr ⟨each, rfl⟩, rfl⟩

theorem forall_touched (Q : Nat → Prop) :
    (∀ slot ∈ body.touched, Q slot.toNat) ↔
      (∀ live ∈ body.liveInputs, Q live.2.slotIndex.toNat) ∧
        ∀ live ∈ body.liveOutputs, Q live.2.slotIndex.toNat := by
  simp only [TxBody.touched, TxBody.inputSlots, TxBody.outputSlots, forall_mem_append,
    forall_mem_map]

theorem touched_nodup_iff :
    body.touched.Nodup ↔ body.inputSlots.Nodup ∧ body.outputSlots.Nodup ∧
      ∀ slot ∈ body.outputSlots, slot ∉ body.inputSlots := by
  rw [TxBody.touched, nodup_append', disjoint_right]

theorem allocBound_iff {counter : Nat} :
    (counter < u64Bound ∧ isCoinbaseCreationId (BitVec.ofNat 64 counter) = false) ↔
      counter < 2 ^ 63 := by
  rw [← Bool.not_eq_true, isCoinbaseCreationId_iff, BitVec.toNat_ofNat, u64Bound]
  constructor
  · rintro ⟨small, untagged⟩
    omega
  · intro small
    omega

section

variable (represents : chain.Represents hasher ledger)

include represents

theorem Represents.applyTx_eq_ok :
    chain.applyTxCheckedDeferredRoot body mintHeight = .ok after ↔
      (body.isCoinbase = true → mintHeight.isSome) ∧ ledger.TxApplies body ∧
        chain.Resident body.touched ∧
        after = { chain with
          state := (body.deltas (mintHeight.getD 0) ledger.allocCounter).foldl
            (fun state delta => state.writeSlot delta.1 delta.2) chain.state
          activeSlotCount := (ledger.applyTx body (mintHeight.getD 0)).activeSlotCount
          allocCounter := (ledger.applyTx body (mintHeight.getD 0)).allocCounter
          circulatingSupply :=
            totalAmount (ledger.applyTx body (mintHeight.getD 0)).slots } := by
  set height := mintHeight.getD 0 with heightDef
  have bounded : ∀ delta ∈ body.deltas height ledger.allocCounter, delta.1 < slotIndexBound := by
    intro delta mem
    obtain ⟨slot, -, same⟩ := TxBody.mem_deltas mem
    exact same ▸ toNat_lt_slotIndexBound slot
  have outputs := body.liveOutputCount_eq
  simp only [applyTxCheckedDeferredRoot, bind_eq_ok, require_eq_ok, requireNone_eq_ok,
    exists_const, requireFresh_eq_ok, firstRepeat_eq_none, okOr_eq_ok, mapError_eq_ok,
    checkedSub_eq_some, checkedAdd_eq_some, applyDeltaUnrooted_eq_ok, pure_eq_ok,
    mapM_eq_ok (spendDelta_eq_ok represents), represents.active, represents.alloc]
  constructor
  · rintro ⟨known, ⟨inputsOnce, -⟩, ⟨outputsOnce, -, apart⟩, _, ⟨spends, rfl⟩, _, ⟨covered, rfl⟩,
      _, ⟨activeBound, rfl⟩, _, ⟨allocSmall, rfl⟩, untagged, _, minted, _, supplied, _,
      ⟨inRange, rfl⟩, rfl⟩
    have allocBound := allocBound_iff.mp ⟨allocSmall, untagged⟩
    obtain ⟨mints, rfl⟩ := (mintDeltas_eq_ok represents known
      (by rw [← outputs]; exact allocSmall)).mp minted
    obtain ⟨-, rfl⟩ := (supplyAfterSlotUpdates_eq_some represents.coherent.holds represents.supply
      bounded).mp supplied
    refine ⟨known, ⟨touched_nodup_iff.mpr ⟨inputsOnce, outputsOnce, apart⟩, ?_, ?_, ?_, covered,
      activeBound, allocBound⟩, ?_, rfl⟩
    · exact (forall_touched (· < 2 ^ ledger.logSlots)).mpr ⟨fun live mem => (spends live mem).1,
        fun live mem => (mints live mem).1⟩
    · exact fun live mem => (spends live mem).2.2
    · exact fun live mem => (mints live mem).2.2
    · exact (forall_touched fun index => chain.state.segIdOf index ∉ chain.state.evicted).mpr
        ⟨fun live mem => (spends live mem).2.1, fun live mem => (mints live mem).2.1⟩
  · rintro ⟨known, applies, resident, rfl⟩
    obtain ⟨inputsOnce, outputsOnce, apart⟩ := touched_nodup_iff.mp applies.distinct
    obtain ⟨allocSmall, untagged⟩ := allocBound_iff.mpr applies.allocBound
    obtain ⟨spendRange, mintRange⟩ :=
      (forall_touched (· < 2 ^ ledger.logSlots)).mp applies.inRange
    obtain ⟨spendResident, mintResident⟩ :=
      (forall_touched fun index => chain.state.segIdOf index ∉ chain.state.evicted).mp resident
    refine ⟨known, ⟨inputsOnce, by simp⟩, ⟨outputsOnce, by simp, apart⟩, _,
      ⟨fun live mem => ⟨spendRange live mem, spendResident live mem,
        applies.claims live mem⟩, rfl⟩, _, ⟨applies.covered, rfl⟩, _,
      ⟨applies.activeBound, rfl⟩, _, ⟨allocSmall, rfl⟩, untagged, _,
      (mintDeltas_eq_ok represents known (by rw [← outputs]; exact allocSmall)).mpr
        ⟨fun live mem => ⟨mintRange live mem, mintResident live mem,
          applies.vacant live mem⟩, rfl⟩, _,
      (supplyAfterSlotUpdates_eq_some represents.coherent.holds represents.supply
        bounded).mpr ⟨fun delta mem _ => ?_, rfl⟩, _, ⟨fun delta mem => ?_, rfl⟩, rfl⟩
    all_goals
      obtain ⟨slot, touched, same⟩ := TxBody.mem_deltas mem
      rw [← same]
    · exact resident slot touched
    · rw [represents.numSlots]
      exact applies.inRange slot touched

theorem Represents.applyTx
    (applied : chain.applyTxCheckedDeferredRoot body mintHeight = .ok after) :
    ledger.TxApplies body ∧ chain.Resident body.touched ∧
      after.Represents hasher (ledger.applyTx body (mintHeight.getD 0)) ∧
      Rewritten chain.state after.state ledger.slots
        (ledger.applyTx body (mintHeight.getD 0)).slots := by
  obtain ⟨-, applies, resident, rfl⟩ := represents.applyTx_eq_ok.mp applied
  obtain ⟨holds, rewritten⟩ := @Holds.foldl_writeSlot _ _ represents.coherent.holds
    (body.deltas (mintHeight.getD 0) ledger.allocCounter)
    (fun delta mem => by
      obtain ⟨slot, touched, same⟩ := TxBody.mem_deltas mem
      rw [← same, represents.numSlots]
      exact applies.inRange slot touched)
    (fun delta mem => by
      obtain ⟨slot, touched, same⟩ := TxBody.mem_deltas mem
      exact same ▸ resident slot touched)
  refine ⟨applies, resident, ⟨(represents.coherent.rewritten holds rewritten).of_same rfl rfl,
    ?_, ?_, rfl, rfl, rfl⟩, rewritten⟩
  · exact represents.synced.trans rewritten.logSlots.symm
  · exact rewritten.logSlots.trans represents.logSlots

theorem Represents.applyTx_isOk (known : body.isCoinbase = true → mintHeight.isSome)
    (applies : ledger.TxApplies body) (resident : chain.Resident body.touched) :
    ∃ after, chain.applyTxCheckedDeferredRoot body mintHeight = .ok after :=
  ⟨_, represents.applyTx_eq_ok.mpr ⟨known, applies, resident, rfl⟩⟩

end

end ChainState
end Jetsam
