import Jetsam.Block.Partition
import Jetsam.Mempool.Selection
import Jetsam.Consensus.TemplateComplete

/-!
# Templates from the pool

The groups that block selection packs are an acceptable stream as long as they keep to the input
limit of a block, which the packing does not look at; over it the builder refuses the whole list.
-/

namespace Jetsam

open Control List

def Mempool.selectedPages (pool : Mempool) (maxPages : Nat) (keep : MempoolEntry → Bool) :
    List TxBody :=
  (pool.selectForBlockMatching maxPages keep).flatMap MempoolEntry.pages

theorem greedyPacking_sublist (budget : Nat) (entries : List MempoolEntry) :
    (greedyPacking budget entries).Sublist entries := by
  induction entries generalizing budget with
  | nil => exact .slnil
  | cons entry entries ih =>
    rw [greedyPacking]
    split
    · exact (ih _).cons_cons entry
    · exact (ih _).cons entry

theorem length_greedyPacking (budget : Nat) (entries : List MempoolEntry) :
    ((greedyPacking budget entries).flatMap MempoolEntry.pages).length ≤ budget := by
  induction entries generalizing budget with
  | nil => exact Nat.zero_le budget
  | cons entry entries ih =>
    rw [greedyPacking]
    split
    · have rest := ih (budget - entry.pages.length)
      rw [flatMap_cons, length_append]
      omega
    · exact ih budget

variable {entries : List MempoolEntry}

theorem greedyPacking_eq_self {budget : Nat}
    (fits : (entries.flatMap MempoolEntry.pages).length ≤ budget) :
    greedyPacking budget entries = entries := by
  induction entries generalizing budget with
  | nil => rfl
  | cons entry entries ih =>
    rw [flatMap_cons, length_append] at fits
    rw [greedyPacking, if_pos (by omega), ih (by omega)]

namespace Mempool

variable {hasher : TxHasher} {pool : Mempool}

theorem perm_byPriority (pool : Mempool) :
    pool.byPriority.Perm (pool.entries.entries.map Sigma.snd) := by
  rw [byPriority]
  exact (perm_insertionSort StoredEntry.Precedes pool.entries.entries).map _

theorem Consistent.selected_sublist (consistent : pool.Consistent hasher) (maxPages : Nat)
    (keep : MempoolEntry → Bool) :
    (pool.selectForBlockMatching maxPages keep).Sublist pool.byPriority := by
  rw [consistent.selectForBlockMatching]
  exact (greedyPacking_sublist _ _).trans filter_sublist

theorem Consistent.selected_distinct (consistent : pool.Consistent hasher) (maxPages : Nat)
    (keep : MempoolEntry → Bool) :
    ((pool.selectedPages maxPages keep).flatMap TxBody.touched).Nodup := by
  have all : (pool.byPriority.flatMap fun entry => entry.pages.flatMap TxBody.touched).Nodup := by
    rw [(pool.perm_byPriority.flatMap_right _).nodup_iff, flatMap_map]
    exact consistent.groups.apart
  rw [selectedPages, flatMap_assoc]
  exact all.sublist ((consistent.selected_sublist maxPages keep).flatMap _)

theorem exists_pageGroups
    (valid : ∀ entry ∈ entries, validatePagedSpend hasher entry.pages = .ok entry.spend) :
    ∃ groups : List PageGroup, groups.map PageGroup.pages = entries.map MempoolEntry.pages ∧
      ∀ group ∈ groups, group.Accepted := by
  induction entries with
  | nil => exact ⟨[], rfl, by simp⟩
  | cons entry entries ih =>
    obtain ⟨here, later⟩ := forall_mem_cons.mp valid
    obtain ⟨group, pages, accepted, -⟩ := validatePagedSpend_pages.mp here
    obtain ⟨groups, rest, acceptedRest⟩ := ih later
    refine ⟨group :: groups, ?_, forall_mem_cons.mpr ⟨accepted, acceptedRest⟩⟩
    rw [map_cons, map_cons, pages, rest]

theorem Consistent.selected_stream (consistent : pool.Consistent hasher) (maxPages : Nat)
    (keep : MempoolEntry → Bool)
    (inputLimit : groupLiveInputs (pool.selectedPages maxPages keep) ≤ blockMaxLiveInputs) :
    ∃ groups, StreamAccepted (pool.selectedPages maxPages keep) groups ∧
      groups.map PageGroup.pages =
        (pool.selectForBlockMatching maxPages keep).map MempoolEntry.pages := by
  have valid : ∀ entry ∈ pool.selectForBlockMatching maxPages keep,
      validatePagedSpend hasher entry.pages = .ok entry.spend := by
    intro entry mem
    have inPool := (consistent.selected_sublist maxPages keep).subset mem
    obtain ⟨stored, inside, rfl⟩ := mem_map.mp (pool.perm_byPriority.mem_iff.mp inPool)
    exact consistent.groups.valid stored inside
  obtain ⟨groups, pages, accepted⟩ := exists_pageGroups valid
  obtain ⟨spentOnce, mintedOnce, apart⟩ :=
    nodup_touched_iff.mp (consistent.selected_distinct maxPages keep)
  refine ⟨groups, ⟨?_, accepted, ?_, inputLimit, spentOnce, mintedOnce, apart⟩, pages⟩
  · rw [selectedPages, flatMap_def, flatMap_def, pages]
  · rw [selectedPages, consistent.selectForBlockMatching]
    exact (length_greedyPacking _ _).trans (min_le_right _ _)

end Mempool

/-- Over the input limit the builder refuses all candidates. -/
theorem template_refused_over_inputs {D : Type} [DecidableEq D] (hashes : ChainHashes D)
    (activation : Option Nat) (rootWord : D → BitVec 64) {parent : BlockHeader D}
    (chain : ChainState D) (finalizedActiveCounts : List Nat) {candidateTxs : List TxBody}
    (minerAddress : Address) (timestamp : Nat) (difficultyTarget : BitVec 256)
    (height : parent.height + 1 < u64Bound)
    (tooMany : blockMaxLiveInputs < groupLiveInputs candidateTxs) :
    ∃ error, buildBlockTemplate hashes activation rootWord parent chain finalizedActiveCounts
      candidateTxs minerAddress timestamp difficultyTarget =
        .error (.stateApplyError (.stream error)) := by
  cases outcome : validatePagedSpendTransactionStreamIn hashes.tx candidateTxs .v1 with
  | ok facts =>
    obtain ⟨groups, stream, -⟩ := validatePagedSpendTransactionStreamIn_eq_ok.mp outcome
    exact absurd stream.inputLimit (not_le.mpr tooMany)
  | error refusal =>
    have failed : mapError (fun error => TemplateBuildError.stateApplyError (.stream error))
        (validatePagedSpendTransactionStreamIn hashes.tx candidateTxs .v1) =
        .error (.stateApplyError (.stream refusal)) := by
      rw [outcome]
      rfl
    exact ⟨refusal, bind_of_error
      ((bind_of_ok (okOr_eq_ok.mpr (checkedAdd_eq_some.mpr ⟨height, rfl⟩))).trans
        (bind_of_error failed))⟩

variable {slot : BitVec 32}

namespace Mempool

variable {hasher : TxHasher} {pool : Mempool}

theorem Consistent.unknown (consistent : pool.Consistent hasher)
    (untouched : slot ∉ storedSlots pool.entries.entries) :
    pool.spentInputs slot = none ∧ pool.mintedOutputs slot = none := by
  constructor
  · refine Option.eq_none_iff_forall_ne_some.mpr fun holder known => untouched ?_
    obtain ⟨entry, inside, input⟩ := (consistent.inputs slot holder).mp known
    exact mem_flatMap.mpr ⟨_, inside, mem_flatMap_touched.mpr (.inl input)⟩
  · refine Option.eq_none_iff_forall_ne_some.mpr fun holder known => untouched ?_
    obtain ⟨entry, inside, output⟩ := (consistent.outputs slot holder).mp known
    exact mem_flatMap.mpr ⟨_, inside, mem_flatMap_touched.mpr (.inr output)⟩

variable {pages : List TxBody} {spend : PagedSpendFacts}

theorem Consistent.admit_isOk (consistent : pool.Consistent hasher) (height : Nat)
    (room : pool.len < pool.capacity) (valid : validatePagedSpend hasher pages = .ok spend)
    (fresh : spend.logicalTxid ∉ pool.entries.entries.map Sigma.fst)
    (apart : ∀ slot ∈ pages.flatMap TxBody.touched, slot ∉ storedSlots pool.entries.entries) :
    (Mempool.admitPages hasher pages height pool).2.entries.entries =
      ⟨spend.logicalTxid, ⟨pages, spend, height, MempoolEntry.computeFeeRate spend, 0, []⟩⟩ ::
        pool.entries.entries := by
  have absent : pool.contains spend.logicalTxid = false := by
    rw [← Bool.not_eq_true, lookup_isSome_iff]
    exact fresh
  have inputs : pool.inputConflict pages = none := by
    refine findSome?_eq_none_iff.mpr fun slot mem => Option.or_eq_none_iff.mpr ?_
    exact consistent.unknown (apart slot (mem_flatMap_touched.mpr (.inl mem)))
  have outputs : pool.outputConflict pages = none := by
    refine findSome?_eq_none_iff.mpr fun slot mem => Option.or_eq_none_iff.mpr ?_
    exact (consistent.unknown (apart slot (mem_flatMap_touched.mpr (.inr mem)))).symm
  have admitted := (@admit_returns hasher pool _ pages height ()).mpr
    ⟨room, spend, valid, absent, inputs, outputs, rfl⟩
  rw [admitted, entries_entered absent]

theorem logicalTxid_of_valid (valid : validatePagedSpend hasher pages = .ok spend) :
    spend.logicalTxid = hashPagedSpendUnchecked hasher pages := by
  obtain ⟨group, rfl, -, rfl⟩ := validatePagedSpend_pages.mp valid
  rfl

/-- Valid groups apart from each other are all stored. -/
theorem pages_after_admissions {groups : List (List TxBody)} (height : Nat) {capacity : Nat}
    (fits : groups.length ≤ capacity)
    (valid : ∀ pages ∈ groups, (validatePagedSpend hasher pages).isOk = true)
    (named : (groups.map (hashPagedSpendUnchecked hasher)).Nodup)
    (apart : (groups.flatMap fun pages => pages.flatMap TxBody.touched).Nodup) :
    ((after hasher capacity (groups.map fun pages => .admitPages pages height)).entries.entries.map
      fun stored => stored.2.pages).Perm groups := by
  induction groups using List.reverseRecOn with
  | nil => exact .refl _
  | append_singleton groups pages ih =>
    rw [forall_mem_append, forall_mem_singleton] at valid
    rw [map_append, map_singleton, nodup_append'] at named
    rw [flatMap_append, flatMap_singleton, nodup_append'] at apart
    rw [length_append, length_singleton] at fits
    have earlier := ih (by omega) valid.1 named.1 apart.1
    rw [map_append, map_singleton, after_concat]
    have offered : ∀ op ∈ groups.map fun pages => MempoolOp.admitPages pages height,
        op.Offered hasher := by
      intro op mem
      obtain ⟨group, inGroups, rfl⟩ := mem_map.mp mem
      exact valid.1 group inGroups
    have consistent := consistent_after capacity offered
    have capacityKept := capacity_after capacity offered
    generalize after hasher capacity (groups.map fun pages => .admitPages pages height) = pool at *
    obtain ⟨spend, checked⟩ := isOk_eq_true.mp valid.2
    have fresh : spend.logicalTxid ∉ pool.entries.entries.map Sigma.fst := by
      intro known
      obtain ⟨stored, inside, same⟩ := mem_map.mp known
      have pagesKnown := earlier.mem_iff.mp (mem_map_of_mem inside)
      apply named.2.2 (mem_map_of_mem pagesKnown)
      rw [mem_singleton, ← logicalTxid_of_valid checked, ← same,
        ← consistent.groups.named stored inside]
      exact (logicalTxid_of_valid (consistent.groups.valid stored inside)).symm
    have untouched : ∀ slot ∈ pages.flatMap TxBody.touched,
        slot ∉ storedSlots pool.entries.entries := by
      intro slot touched known
      obtain ⟨stored, inside, theirs⟩ := mem_flatMap.mp known
      have pagesKnown := earlier.mem_iff.mp (mem_map_of_mem inside)
      exact apart.2.2 (mem_flatMap.mpr ⟨_, pagesKnown, theirs⟩) touched
    have room : pool.len < pool.capacity := by
      have count := earlier.length_eq
      rw [length_map] at count
      rw [capacityKept, len]
      omega
    rw [MempoolOp.run, consistent.admit_isOk height room checked fresh untouched, map_cons]
    exact (earlier.cons pages).trans (perm_append_singleton pages groups).symm

end Mempool

/-- A fresh domain in which the given outputs are live. -/
def ChainState.stocked {D : Type} (hasher : StateHasher D) (logSlots : Nat)
    (outputs : List (Nat × SlotValue)) : ChainState D :=
  { ChainState.withLogSlots hasher logSlots with
    state := outputs.foldl (fun state output => state.writeSlot output.1 output.2)
      (SegmentedFriState.newEmpty logSlots)
    utxoRoot := hasher.slotRoot logSlots (overwrite (fun _ => .empty) outputs)
    activeSlotCount := outputs.length
    allocCounter := outputs.length
    circulatingSupply := (outputs.map fun output => output.2.amount.toNat).sum }

def Ledger.stocked (logSlots : Nat) (outputs : List (Nat × SlotValue)) : Ledger :=
  ⟨logSlots, overwrite (fun _ => .empty) outputs, outputs.length, outputs.length⟩

theorem represents_stocked {D : Type} (hasher : StateHasher D) {logSlots : Nat}
    {outputs : List (Nat × SlotValue)} (domain : logSlots ≤ 32)
    (distinct : (outputs.map Prod.fst).Nodup)
    (inside : ∀ output ∈ outputs, output.1 < 2 ^ logSlots) :
    (ChainState.stocked hasher logSlots outputs).Represents hasher (.stocked logSlots outputs) ∧
      (ChainState.stocked hasher logSlots outputs).state.evicted = [] := by
  have fresh := ChainState.coherent_withLogSlots hasher logSlots
  obtain ⟨holds, rewritten⟩ := fresh.holds.foldl_writeSlot inside
    (fun output _ => not_mem_nil)
  have supply := @slotSum_overwrite_empty (fun slot => slot.amount.toNat)
    SlotValue.amount_empty_toNat outputs distinct (by
      intro output member
      rw [slotIndexBound_eq]
      exact (inside output member).trans_le (Nat.pow_le_pow_right Nat.two_pos domain))
  exact ⟨⟨(fresh.rewritten holds rewritten).of_same rfl rfl, rewritten.logSlots.symm,
    rewritten.logSlots, rfl, rfl, supply.symm⟩, rewritten.evicted⟩

/-- A one-page group that pays eight outputs of 1000, from slot `8 * index` on, as its fee. -/
def heavyPage (index : Nat) : TxBody where
  epochAnchor := 1
  fee := 8000
  inputOwner := 7
  inputs := fun position =>
    ⟨BitVec.ofNat 32 (8 * index + position), 1000, BitVec.ofNat 64 (8 * index + position + 1)⟩
  outputs := fun _ => .dummy
  validityBitmap := fullBitmap
  isCoinbase := false

def heavyOutputs : List (Nat × SlotValue) :=
  (List.range 1024).map fun index =>
    (index, .withOwnerFields 1000 (BitVec.ofNat 64 (index + 1)) (asFields 7))

/-- Hashes that tell bodies apart by the first output they spend. -/
def firstSpendHashes : ChainHashes Digest :=
  { additiveHashes with tx := ⟨fun body => (body.inputs 0).creationId.setWidth 256, id⟩ }

/-- One hundred and twenty-eight such groups. -/
def heavyGroups : List (List TxBody) := (List.range 128).map fun index => [heavyPage index]

theorem heavyGroups_valid :
    ∀ pages ∈ heavyGroups, (validatePagedSpend firstSpendHashes.tx pages).isOk = true := by
  have each : (List.range 128).all
      (fun index => (validatePagedSpend firstSpendHashes.tx [heavyPage index]).isOk) = true := by
    decide +kernel
  intro pages mem
  obtain ⟨index, inside, rfl⟩ := mem_map.mp mem
  exact all_eq_true.mp each index inside

theorem heavyGroups_named :
    (heavyGroups.map (hashPagedSpendUnchecked firstSpendHashes.tx)).Nodup := by
  decide +kernel

theorem touched_heavyPage (index : Nat) :
    (heavyPage index).touched =
      (List.finRange 8).map fun position : Fin 8 => BitVec.ofNat 32 (8 * index + position) :=
  TxBody.touched_of_full rfl

variable {index : Nat}

theorem toNat_heavyPage (small : index < 128) (mem : slot ∈ (heavyPage index).touched) :
    ∃ position : Fin 8, slot.toNat = 8 * index + position := by
  rw [touched_heavyPage] at mem
  obtain ⟨position, -, rfl⟩ := mem_map.mp mem
  exact ⟨position, Nat.mod_eq_of_lt (by omega)⟩

theorem nodup_heavyPage (small : index < 128) : (heavyPage index).touched.Nodup := by
  rw [touched_heavyPage]
  refine (nodup_finRange 8).map fun left right same => ?_
  have values := congrArg BitVec.toNat same
  rw [BitVec.toNat_ofNat, BitVec.toNat_ofNat, Nat.mod_eq_of_lt (by omega),
    Nat.mod_eq_of_lt (by omega)] at values
  omega

theorem heavyGroups_apart :
    (heavyGroups.flatMap fun pages => pages.flatMap TxBody.touched).Nodup := by
  rw [heavyGroups, flatMap_map, nodup_flatMap]
  simp only [flatMap_singleton]
  constructor
  · intro index inside
    exact nodup_heavyPage (mem_range.mp inside)
  · refine List.Pairwise.imp_of_mem ?_ nodup_range
    intro left right inLeft inRight different slot leftSlot rightSlot
    obtain ⟨first, atLeft⟩ := toNat_heavyPage (mem_range.mp inLeft) leftSlot
    obtain ⟨second, atRight⟩ := toNat_heavyPage (mem_range.mp inRight) rightSlot
    omega

theorem heavyOutputs_distinct : (heavyOutputs.map Prod.fst).Nodup := by
  rw [heavyOutputs, map_map, show Prod.fst ∘ (fun index : Nat => (index,
    SlotValue.withOwnerFields 1000 (BitVec.ofNat 64 (index + 1)) (asFields 7))) = id from rfl,
    map_id]
  exact nodup_range

theorem heavyOutputs_slot {index : Nat} (small : index < 1024) :
    overwrite (fun _ => .empty) heavyOutputs index =
      .withOwnerFields 1000 (BitVec.ofNat 64 (index + 1)) (asFields 7) := by
  apply overwrite_of_mem heavyOutputs_distinct
  rw [heavyOutputs]
  exact mem_map.mpr ⟨index, mem_range.mpr small, rfl⟩

def heavyChain : ChainState Digest := .stocked firstSpendHashes.state 11 heavyOutputs

theorem represents_heavyChain :
    heavyChain.Represents firstSpendHashes.state (.stocked 11 heavyOutputs) ∧
      heavyChain.state.evicted = [] := by
  apply represents_stocked _ (by norm_num) heavyOutputs_distinct
  intro output mem
  obtain ⟨index, inside, rfl⟩ := mem_map.mp mem
  rw [mem_range] at inside
  exact inside.trans (by norm_num)

theorem applies_heavyPage (small : index < 128) :
    ∃ after, heavyChain.applyPages [heavyPage index] = .ok after := by
  have bitmap : (heavyPage index).validityBitmap = fullBitmap := rfl
  have inputs := TxBody.liveInputs_of_full bitmap
  have outputs := TxBody.liveOutputs_of_full bitmap
  obtain ⟨represents, loaded⟩ := represents_heavyChain
  have ready : heavyChain.Ready (.stocked 11 heavyOutputs) (heavyPage index) := by
    refine ⟨?_, ⟨?_, ?_⟩, ?_⟩
    · intro slot mem
      obtain ⟨position, value⟩ := toNat_heavyPage small mem
      have bound := position.isLt
      change slot.toNat < 2 ^ 11
      omega
    · rw [inputs]
      intro live mem
      obtain ⟨position, -, rfl⟩ := mem_map.mp mem
      have bound := position.isLt
      have value : (BitVec.ofNat 32 (8 * index + position)).toNat = 8 * index + position :=
        Nat.mod_eq_of_lt (by omega)
      have stocked := @heavyOutputs_slot (8 * index + position) (by omega)
      rw [Ledger.stocked, show ((heavyPage index).inputs position).slotIndex.toNat =
        8 * index + position from value]
      dsimp only
      rw [stocked]
      rfl
    · rw [outputs]
      exact fun live mem => absurd mem not_mem_nil
    · intro slot mem
      rw [loaded]
      exact not_mem_nil
  have counts : groupLiveInputs [heavyPage index] = 8 ∧ groupLiveOutputs [heavyPage index] = 0 := by
    simp [groupLiveInputs, groupLiveOutputs, TxBody.liveInputCount_eq, TxBody.liveOutputCount_eq,
      inputs, outputs]
  apply represents.applyPages_isOk
  · refine ⟨forall_mem_singleton.mpr rfl, forall_mem_singleton.mpr ready, ?_⟩
    rw [flatMap_singleton]
    exact nodup_heavyPage small
  · have length : heavyOutputs.length = 1024 := by
      rw [heavyOutputs, length_map, length_range]
    rw [Ledger.stocked, length]
    constructor
    · rw [counts.1]
      norm_num
    · rw [counts.2]
      norm_num [u64Bound]
    · rw [counts.2]
      norm_num

/-- The pool after all groups were offered to it. -/
def heavyPool : Mempool :=
  .after firstSpendHashes.tx 128 (heavyGroups.map fun pages => .admitPages pages 5)

theorem heavyPool_consistent : heavyPool.Consistent firstSpendHashes.tx := by
  apply Mempool.consistent_after
  intro op mem
  obtain ⟨pages, inGroups, rfl⟩ := mem_map.mp mem
  exact heavyGroups_valid pages inGroups

theorem heavyPool_pages :
    (heavyPool.byPriority.map MempoolEntry.pages).Perm heavyGroups := by
  have fits : heavyGroups.length ≤ 128 := by
    rw [heavyGroups, length_map, length_range]
  have stored := Mempool.pages_after_admissions 5 fits heavyGroups_valid heavyGroups_named
    heavyGroups_apart
  refine (heavyPool.perm_byPriority.map _).trans ?_
  rw [map_map, heavyPool]
  exact stored

theorem heavyPool_selected :
    heavyPool.selectForBlockMatching blockMaxUserPages (fun _ => true) = heavyPool.byPriority := by
  have count := (heavyPool_pages.flatten).length_eq
  rw [heavyPool_consistent.selectForBlockMatching, filter_true, greedyPacking_eq_self]
  rw [flatMap_def, count]
  decide +kernel

theorem heavyPool_liveInputs :
    groupLiveInputs (heavyPool.selectedPages blockMaxUserPages fun _ => true) = 1024 := by
  have perm := heavyPool_pages.flatten
  rw [Mempool.selectedPages, heavyPool_selected, flatMap_def, groupLiveInputs, (perm.map _).sum_eq]
  decide +kernel

def heavyParent : BlockHeader Digest :=
  ⟨0, heavyChain.utxoRoot, 0, 0, 5, 0, 0, 0, 11, 1024, 1024⟩

def smallHashes : ChainHashes Digest := { additiveHashes with tx := feeHasher }

/-- A domain of eight slots with the output of the small spend. -/
def smallOutputs : List (Nat × SlotValue) := [(1, .withOwnerFields 100000 1 (asFields 7))]

end Jetsam
