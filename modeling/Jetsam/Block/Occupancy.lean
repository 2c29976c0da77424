import Jetsam.Block.Accounting

/-!
# Occupied slots

While bodies spend occupied slots only, the occupancy counter counts the occupied slots, and its
checks never fail.
-/

namespace Jetsam

open Control Finset

def liveWeight (slot : SlotValue) : Nat := if slot = .empty then 0 else 1

/-- No live input claims the value of an empty slot. -/
def TxBody.SpendsOccupied (body : TxBody) : Prop :=
  ∀ live ∈ body.liveInputs, body.claim live.2 ≠ .empty

theorem coinbaseCreationId_ne_zero (height : Nat) : coinbaseCreationId height ≠ 0 := by
  intro equal
  have top := congrArg (fun id => BitVec.getLsbD id 63) equal
  simp [coinbaseCreationId, coinbaseCreationTag] at top

variable (body : TxBody)

variable {cursor : Nat}

theorem TxBody.minted_ne_empty (height : Nat) (small : cursor + 1 < 2 ^ 63) (output : TxOutput) :
    body.minted height (cursor + 1) output ≠ .empty := by
  refine SlotValue.withOwnerFields_ne_empty ?_
  rw [mintedId]
  split_ifs
  · exact coinbaseCreationId_ne_zero height
  · intro zero
    have same := congrArg BitVec.toNat zero
    rw [BitVec.toNat_ofNat, Nat.mod_eq_of_lt (by omega)] at same
    exact absurd same (Nat.succ_ne_zero cursor)

theorem TxBody.mintsFrom_ne_empty (height : Nat) {outputs : List (Nat × TxOutput)}
    (small : cursor + outputs.length < 2 ^ 63) :
    ∀ mint ∈ body.mintsFrom height cursor outputs, mint.2 ≠ .empty := by
  induction outputs generalizing cursor with
  | nil => simp [mintsFrom]
  | cons live rest ih =>
    rw [List.length_cons] at small
    exact List.forall_mem_cons.mpr
      ⟨body.minted_ne_empty height (by omega) live.2, ih (by omega)⟩

theorem sum_liveWeight {α : Type} {items : List α} {value : α → SlotValue}
    (occupied : ∀ item ∈ items, value item ≠ .empty) :
    (items.map fun item => liveWeight (value item)).sum = items.length := by
  induction items with
  | nil => rfl
  | cons item items ih =>
    obtain ⟨first, rest⟩ := List.forall_mem_cons.mp occupied
    rw [List.map_cons, List.sum_cons, ih rest, liveWeight, if_neg first, List.length_cons,
      add_comm]

theorem TxBody.length_mintsFrom (height cursor : Nat) (outputs : List (Nat × TxOutput)) :
    (body.mintsFrom height cursor outputs).length = outputs.length := by
  have keys := congrArg List.length (body.keys_mintsFrom height cursor outputs)
  rwa [List.length_map, List.length_map] at keys

namespace Ledger

variable {ledger : Ledger} {height : Nat}

/-- The occupancy counter counts the occupied slots. -/
def Counted (ledger : Ledger) : Prop :=
  slotSum liveWeight ledger.slots = ledger.activeSlotCount

theorem Counted.applyTx {body : TxBody} (counted : ledger.Counted) (spends : body.SpendsOccupied)
    (applies : ledger.TxApplies body) : (ledger.applyTx body height).Counted := by
  have exchange := @slotSum_applyTx liveWeight ledger body height rfl applies
  have claimed : (body.liveInputs.map fun live => liveWeight (body.claim live.2)).sum =
      body.liveInputCount := by
    rw [sum_liveWeight spends, body.liveInputCount_eq]
  have small : ledger.allocCounter + body.liveOutputs.length < 2 ^ 63 := by
    rw [← body.liveOutputCount_eq]
    exact applies.allocBound
  have minted : ((body.mintsFrom height ledger.allocCounter body.liveOutputs).map fun mint =>
      liveWeight mint.2).sum = body.liveOutputCount := by
    rw [sum_liveWeight (body.mintsFrom_ne_empty height small), body.length_mintsFrom,
      body.liveOutputCount_eq]
  have covered := applies.covered
  rw [Counted] at counted ⊢
  simp only [Ledger.applyTx] at exchange ⊢
  omega

variable {records : List TxBody}

theorem Counted.applyRecords (counted : ledger.Counted)
    (spends : ∀ body ∈ records, body.SpendsOccupied)
    (applies : ledger.RecordsApply height records) :
    (ledger.applyRecords height records).Counted := by
  induction records generalizing ledger with
  | nil => exact counted
  | cons body rest ih =>
    obtain ⟨first, restSpends⟩ := List.forall_mem_cons.mp spends
    obtain ⟨firstApplies, restApplies⟩ := applies
    exact ih (counted.applyTx first firstApplies) restSpends restApplies

theorem allocCounter_applyRecords_lt (small : ledger.allocCounter < 2 ^ 63)
    (applies : ledger.RecordsApply height records) :
    (ledger.applyRecords height records).allocCounter < 2 ^ 63 := by
  induction records generalizing ledger with
  | nil => exact small
  | cons body rest ih =>
    obtain ⟨firstApplies, restApplies⟩ := applies
    exact ih firstApplies.allocBound restApplies

theorem Counted.length_le (counted : ledger.Counted) {indices : List (BitVec 32)}
    (distinct : indices.Nodup) (occupied : ∀ index ∈ indices, ledger.slots index.toNat ≠ .empty) :
    indices.length ≤ ledger.activeSlotCount := by
  set writes := indices.map fun index => (index.toNat, SlotValue.empty) with writesDef
  have keys : writes.map Prod.fst = indices.map BitVec.toNat := by
    simp [writesDef, Function.comp_def]
  have exchange := @slotSum_overwrite liveWeight ledger.slots writes
    (by rw [keys]; exact distinct.map fun _ _ => BitVec.eq_of_toNat_eq)
    (by
      intro write mem
      obtain ⟨index, -, rfl⟩ := List.mem_map.mp mem
      exact toNat_lt_slotIndexBound index)
  have cleared : (writes.map fun write => liveWeight write.2).sum = 0 := by
    simp [writesDef, Function.comp_def, liveWeight]
  have full : (writes.map fun write => liveWeight (ledger.slots write.1)).sum = indices.length := by
    rw [writesDef, List.map_map]
    exact sum_liveWeight occupied
  rw [cleared, full, counted] at exchange
  omega

theorem Counted.le_slotIndexBound (counted : ledger.Counted) :
    ledger.activeSlotCount ≤ slotIndexBound := by
  have each : ∀ index ∈ range slotIndexBound, liveWeight (ledger.slots index) ≤ 1 := by
    intro index _
    rw [liveWeight]
    split_ifs <;> omega
  have total := sum_le_card_nsmul _ _ _ each
  rw [card_range, smul_eq_mul, mul_one] at total
  exact counted.ge.trans total

theorem Counted.covered {records : List TxBody} (counted : ledger.Counted)
    (spends : ∀ body ∈ records, body.SpendsOccupied)
    (distinct : (records.flatMap TxBody.touched).Nodup)
    (hits : ∀ body ∈ records, Matches ledger.slots body) :
    groupLiveInputs records ≤ ledger.activeSlotCount := by
  have length : (records.flatMap TxBody.inputSlots).length = groupLiveInputs records := by
    rw [List.length_flatMap, groupLiveInputs]
    exact congrArg List.sum (List.map_congr_left fun body _ => by
      rw [body.liveInputCount_eq, TxBody.inputSlots, List.length_map])
  rw [← length]
  refine counted.length_le (distinct.sublist ?_) fun index member => ?_
  · exact List.Sublist.flatMap_right records fun body _ => List.sublist_append_left _ _
  · obtain ⟨body, inRecords, inBody⟩ := List.mem_flatMap.mp member
    obtain ⟨live, inLive, rfl⟩ := List.mem_map.mp inBody
    rw [(hits body inRecords).1 live inLive]
    exact spends body inRecords live inLive

theorem Counted.recordsApply {records : List TxBody} (counted : ledger.Counted)
    (spends : ∀ body ∈ records, body.SpendsOccupied)
    (distinct : (records.flatMap TxBody.touched).Nodup)
    (inRange : ∀ slot ∈ records.flatMap TxBody.touched, slot.toNat < 2 ^ ledger.logSlots)
    (hits : ∀ body ∈ records, Matches ledger.slots body)
    (untagged : ledger.allocCounter + groupLiveOutputs records < 2 ^ 63) :
    ledger.RecordsApply height records := by
  induction records generalizing ledger with
  | nil => trivial
  | cons body rest ih =>
    have single := @Counted.covered ledger [body] counted
    simp only [groupLiveOutputs, List.map_cons, List.sum_cons] at untagged
    rw [List.flatMap_cons, List.nodup_append'] at distinct
    rw [List.flatMap_cons, List.forall_mem_append] at inRange
    obtain ⟨once, restOnce, apart⟩ := distinct
    obtain ⟨firstSpends, restSpends⟩ := List.forall_mem_cons.mp spends
    obtain ⟨firstHits, restHits⟩ := List.forall_mem_cons.mp hits
    have covered : body.liveInputCount ≤ ledger.activeSlotCount := by
      simpa [groupLiveInputs] using single (by simpa using firstSpends) (by simpa using once)
        (by simpa using firstHits)
    have few := body.liveOutputCount_le
    have bound := counted.le_slotIndexBound
    rw [slotIndexBound_eq] at bound
    have first : ledger.TxApplies body := ⟨once, inRange.1, firstHits.1, firstHits.2, covered,
      by simp only [txOutputs] at few; rw [u64Bound]; omega, by omega⟩
    refine ⟨first, ih (counted.applyTx firstSpends first) restSpends restOnce inRange.2
      (fun other member => (matches_applyTx apart member).mpr (restHits other member)) ?_⟩
    simp only [Ledger.applyTx, groupLiveOutputs]
    omega

end Ledger

end Jetsam
