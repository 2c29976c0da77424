import Jetsam.Client.Block

/-!
# Accounting of a block

What a run of records adds to and takes from a weighted sum over all slots.
-/

namespace Jetsam

open Control List

/-- Slot amounts, counted for some owners only. -/
def ownerWeight (counts : Block128 × Block128 → Bool) (slot : SlotValue) : Nat :=
  if counts slot.owner then slot.amount.toNat else 0

def TxBody.spentBy (counts : Block128 × Block128 → Bool) (body : TxBody) : Nat :=
  if counts (asFields body.inputOwner) then body.inputSum else 0

def TxBody.mintedTo (counts : Block128 × Block128 → Bool) (body : TxBody) : Nat :=
  (body.liveOutputs.map fun live =>
    if counts (asFields live.2.owner) then live.2.amount.toNat else 0).sum

namespace Ledger

variable {weight : SlotValue → Nat} {ledger : Ledger} {body : TxBody} {height : Nat}

/-- A body exchanges the weight of what it claims for the weight of what it mints. -/
theorem slotSum_applyTx (vanishes : weight .empty = 0) (applies : ledger.TxApplies body) :
    slotSum weight (ledger.applyTx body height).slots +
        (body.liveInputs.map fun live => weight (body.claim live.2)).sum =
      slotSum weight ledger.slots +
        ((body.mintsFrom height ledger.allocCounter body.liveOutputs).map fun mint =>
          weight mint.2).sum := by
  have distinct : ((body.deltas height ledger.allocCounter).map Prod.fst).Nodup := by
    rw [TxBody.keys_deltas]
    exact applies.distinct.map fun _ _ => BitVec.eq_of_toNat_eq
  have exchange := @slotSum_overwrite weight ledger.slots _ distinct fun write member => by
    obtain ⟨slot, -, same⟩ := TxBody.mem_deltas member
    exact same ▸ toNat_lt_slotIndexBound slot
  have claimed : (body.spends.map fun write => weight (ledger.slots write.1)) =
      body.liveInputs.map fun live => weight (body.claim live.2) := by
    rw [TxBody.spends, map_map]
    exact map_congr_left fun live member => by
      simp only [Function.comp_apply, applies.claims live member]
  have cleared : (body.spends.map fun write => weight write.2).sum = 0 := by
    rw [TxBody.spends, map_map]
    simp [Function.comp_def, vanishes]
  have vacant : ((body.mintsFrom height ledger.allocCounter body.liveOutputs).map fun write =>
      weight (ledger.slots write.1)).sum = 0 := by
    refine sum_eq_zero fun value member => ?_
    obtain ⟨write, inMints, rfl⟩ := mem_map.mp member
    have key := mem_map_of_mem (f := Prod.fst) inMints
    rw [TxBody.keys_mintsFrom] at key
    obtain ⟨live, inOutputs, same⟩ := mem_map.mp key
    rw [← same, applies.vacant live inOutputs, vanishes]
  simp only [TxBody.deltas, map_append, sum_append, claimed, cleared, vacant] at exchange
  simp only [applyTx, TxBody.deltas]
  omega

section

variable (counts : Block128 × Block128 → Bool)

include counts

theorem ownerWeight_mints (cursor : Nat) :
    ((body.mintsFrom height cursor body.liveOutputs).map fun mint =>
      ownerWeight counts mint.2).sum = body.mintedTo counts := by
  unfold TxBody.mintedTo
  generalize body.liveOutputs = outputs
  induction outputs generalizing cursor with
  | nil => rfl
  | cons live outputs ih =>
    simp only [TxBody.mintsFrom, map_cons, sum_cons, ih]
    simp [ownerWeight, TxBody.minted]

theorem ownerWeight_claims (body : TxBody) :
    (body.liveInputs.map fun live => ownerWeight counts (body.claim live.2)).sum =
      body.spentBy counts := by
  simp only [ownerWeight, TxBody.claim, SlotValue.owner_withOwnerFields,
    SlotValue.amount_withOwnerFields, TxBody.spentBy, TxBody.inputSum]
  split <;> simp

theorem slotSum_applyRecords {records : List TxBody}
    (applies : ledger.RecordsApply height records) :
    slotSum (ownerWeight counts) (ledger.applyRecords height records).slots +
        (records.map (TxBody.spentBy counts)).sum =
      slotSum (ownerWeight counts) ledger.slots + (records.map (TxBody.mintedTo counts)).sum := by
  have vanishes : ownerWeight counts .empty = 0 := by simp [ownerWeight]
  induction records generalizing ledger with
  | nil => rfl
  | cons body rest ih =>
    obtain ⟨first, restApplies⟩ := applies
    have step := @slotSum_applyTx _ ledger body height vanishes first
    rw [ownerWeight_mints, ownerWeight_claims] at step
    have later := ih restApplies
    simp only [map_cons, sum_cons]
    change slotSum _ (applyRecords height (ledger.applyTx body height) rest).slots + _ = _
    omega

end

end Ledger

def everyOwner : Block128 × Block128 → Bool := fun _ => true

def outsidePool : Block128 × Block128 → Bool :=
  fun owner => !(owner == asFields clientLicensePoolAddress)

theorem TxBody.mintedTo_everyOwner (body : TxBody) : body.mintedTo everyOwner = body.outputSum := by
  simp [mintedTo, everyOwner, outputSum]

theorem TxBody.spentBy_everyOwner (body : TxBody) : body.spentBy everyOwner = body.inputSum := by
  simp [spentBy, everyOwner]

theorem TxBody.mintedTo_le (counts : Block128 × Block128 → Bool) (body : TxBody) :
    body.mintedTo counts ≤ body.outputSum := by
  refine sum_le_sum fun live _ => ?_
  split <;> omega

theorem mintedTo_outsidePool (pages : List TxBody) :
    (pages.map (TxBody.mintedTo outsidePool)).sum + paidTo clientLicensePoolAddress pages =
      groupOutputSum pages := by
  have one : ∀ outputs : List (Nat × TxOutput),
      (outputs.map fun live =>
          if outsidePool (asFields live.2.owner) then live.2.amount.toNat else 0).sum +
        (((outputs.map Prod.snd).filter (·.owner == clientLicensePoolAddress)).map
          fun output => output.amount.toNat).sum =
        (outputs.map fun live => live.2.amount.toNat).sum := by
    intro outputs
    induction outputs with
    | nil => rfl
    | cons live outputs ih =>
      by_cases pool : live.2.owner = clientLicensePoolAddress
      · simp [outsidePool, pool] at ih ⊢
        omega
      · have apart : outsidePool (asFields live.2.owner) = true := by
          simpa [outsidePool] using fun same => pool (asFields_injective same)
        simp [apart, pool] at ih ⊢
        omega
  induction pages with
  | nil => rfl
  | cons page pages ih =>
    have first := one page.liveOutputs
    simp only [paidTo, liveOutputsOf, groupOutputSum, map_cons, sum_cons,
      flatMap_cons, filter_append, map_append, sum_append] at ih ⊢
    rw [TxBody.outputSum, TxBody.mintedTo]
    omega

variable {group : PageGroup}

theorem PageGroup.Accepted.inputOwner_eq (accepted : group.Accepted) :
    ∀ page ∈ group.pages, page.inputOwner = group.1.inputOwner := by
  intro page mem
  rcases mem_cons.mp mem with rfl | mem
  · rfl
  · exact (accepted.continuation page mem).owner

theorem PageGroup.Accepted.spentBy (accepted : group.Accepted) {counts : Block128 × Block128 → Bool}
    (counted : counts (asFields group.1.inputOwner) = true) :
    (group.pages.map (TxBody.spentBy counts)).sum = groupInputSum group.pages := by
  congr 1
  refine map_congr_left fun page mem => ?_
  rw [TxBody.spentBy, accepted.inputOwner_eq page mem, if_pos counted]

def groupFees (groups : List PageGroup) : Nat := (groups.map fun group => group.1.fee.toNat).sum

variable {layout : BlockLayout}

theorem BlockLayout.Accepted.balance (accepted : layout.Accepted) :
    groupInputSum layout.pages = groupOutputSum layout.pages + groupFees layout.groups := by
  have balanced : ∀ groups : List PageGroup, (∀ group ∈ groups, group.Accepted) →
      groupInputSum (groups.flatMap PageGroup.pages) =
        groupOutputSum (groups.flatMap PageGroup.pages) + groupFees groups := by
    intro groups each
    induction groups with
    | nil => rfl
    | cons group groups ih =>
      have first := (each group mem_cons_self).balance
      have rest := ih fun other mem => each other (mem_cons_of_mem _ mem)
      simp only [groupInputSum, groupOutputSum, groupFees, flatMap_cons, map_append,
        sum_append, map_cons, sum_cons, PageGroup.pages] at first rest ⊢
      omega
  exact balanced layout.groups accepted.stream.accepted

/-- When no group is owned by the pool, the whole stream is spent outside it. -/
theorem BlockLayout.Accepted.spentBy_outsidePool (accepted : layout.Accepted)
    (unlocked : ∀ group ∈ layout.groups, group.1.inputOwner ≠ clientLicensePoolAddress) :
    (layout.pages.map (TxBody.spentBy outsidePool)).sum = groupInputSum layout.pages := by
  rw [groupInputSum, BlockLayout.pages, ← sum_flatMap_pages, ← sum_flatMap_pages]
  congr 1
  refine map_congr_left fun group mem => ?_
  refine (accepted.stream.accepted group mem).spentBy ?_
  simpa [outsidePool] using fun same => unlocked group mem (asFields_injective same)

theorem paidTo_append (owner : Address) (left right : List TxBody) :
    paidTo owner (left ++ right) = paidTo owner left + paidTo owner right := by
  simp [paidTo, liveOutputsOf]

theorem paidTo_pages (owner : Address) (groups : List PageGroup) :
    paidTo owner (groups.flatMap PageGroup.pages) =
      (groups.map fun group => paidTo owner group.pages).sum := by
  induction groups with
  | nil => rfl
  | cons group groups ih => rw [flatMap_cons, paidTo_append, ih, map_cons, sum_cons]

theorem BlockLayout.Accepted.spentBy_system (accepted : layout.Accepted)
    (counts : Block128 × Block128 → Bool) :
    (layout.system.map (TxBody.spentBy counts)).sum = 0 := by
  refine sum_eq_zero fun value mem => ?_
  obtain ⟨body, inSystem, rfl⟩ := mem_map.mp mem
  have none := accepted.liveInputCount_system body inSystem
  rw [TxBody.liveInputCount_eq, length_eq_zero_iff] at none
  simp [TxBody.spentBy, TxBody.inputSum, none]

def BlockLayout.systemSum (layout : BlockLayout) : Nat := (layout.system.map TxBody.outputSum).sum

namespace Ledger

variable {layout : BlockLayout} {ledger : Ledger} {height : Nat}

theorem totalAmount_applyRecords (accepted : layout.Accepted)
    (applies : ledger.RecordsApply height layout.records) :
    totalAmount (ledger.applyRecords height layout.records).slots + groupFees layout.groups =
      totalAmount ledger.slots + layout.systemSum := by
  have change := slotSum_applyRecords everyOwner applies
  have balance := accepted.balance
  have system := accepted.spentBy_system everyOwner
  simp only [BlockLayout.records, map_append, sum_append,
    funext TxBody.spentBy_everyOwner, funext TxBody.mintedTo_everyOwner] at change system
  have same : ownerWeight everyOwner = fun slot => slot.amount.toNat := by
    funext slot
    simp [ownerWeight, everyOwner]
  rw [same] at change
  simp only [groupInputSum, groupOutputSum] at balance
  unfold totalAmount BlockLayout.systemSum
  simp only [BlockLayout.records]
  omega

theorem outsidePool_applyRecords (accepted : layout.Accepted)
    (unlocked : ∀ group ∈ layout.groups, group.1.inputOwner ≠ clientLicensePoolAddress)
    (applies : ledger.RecordsApply height layout.records) :
    slotSum (ownerWeight outsidePool) (ledger.applyRecords height layout.records).slots +
        groupFees layout.groups +
        (layout.groups.map fun group => paidTo clientLicensePoolAddress group.pages).sum ≤
      slotSum (ownerWeight outsidePool) ledger.slots + layout.systemSum := by
  have change := slotSum_applyRecords outsidePool applies
  have balance := accepted.balance
  have minted := mintedTo_outsidePool layout.pages
  have system : (layout.system.map (TxBody.mintedTo outsidePool)).sum ≤ layout.systemSum :=
    sum_le_sum fun body _ => body.mintedTo_le outsidePool
  rw [BlockLayout.pages, paidTo_pages, ← BlockLayout.pages] at minted
  simp only [BlockLayout.records, map_append, sum_append,
    accepted.spentBy_system outsidePool, accepted.spentBy_outsidePool unlocked] at change
  simp only [BlockLayout.records]
  omega

theorem outsidePool_le_totalAmount (slots : Nat → SlotValue) :
    slotSum (ownerWeight outsidePool) slots ≤ totalAmount slots := by
  refine Finset.sum_le_sum fun index _ => ?_
  simp only [ownerWeight]
  split <;> omega

end Ledger

end Jetsam
