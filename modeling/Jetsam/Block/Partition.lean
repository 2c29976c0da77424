import Jetsam.Consensus.Admission

/-!
# The partition of a page stream

The scanner accepts exactly the streams that are groups of pages one after another. This file states
the partition without the scanner: the groups, that all live slots are distinct, and that the pages
can be cut in one way only.
-/

namespace Jetsam

open Control List

def groupFee (group : List TxBody) : Nat := group.head?.elim 0 fun first => first.fee.toNat

/-- A group of pages: its markers, its size, its owner and epoch, and its exact balance. -/
structure GroupForm (group : List TxBody) : Prop where
  delimited : Delimited TxBody.isStart TxBody.isEnd group
  pageCount : 1 ≤ group.length ∧ group.length ≤ 128
  owner : ∃ owner, ∀ page ∈ group, page.inputOwner = owner
  epoch : ∃ anchor, ∀ page ∈ group, page.epochAnchor = anchor
  conserves : groupInputSum group = groupOutputSum group + groupFee group
  noOverflow : groupInputSum group < 2 ^ 128

/-- The pages cut into groups, with all live slots distinct, in the only way there is. -/
structure StreamPartition (pages : List TxBody) (groups : List (List TxBody)) : Prop where
  covers : groups.flatten = pages
  forms : ∀ group ∈ groups, GroupForm group
  distinct : (pages.flatMap TxBody.touched).Nodup
  unique : ∀ others : List (List TxBody),
    (∀ group ∈ others, Delimited TxBody.isStart TxBody.isEnd group) →
      others.flatten = pages → others = groups

variable {group : PageGroup}

theorem PageGroup.Accepted.delimited (accepted : group.Accepted) :
    Delimited TxBody.isStart TxBody.isEnd group.pages := by
  obtain ⟨body, last, pagesEq, interior, ends⟩ := accepted.split
  exact Delimited.of_marks accepted.start
    (fun page mem => (accepted.continuation page mem).notStart) pagesEq interior ends

theorem PageGroup.Accepted.form (accepted : group.Accepted) :
    GroupForm group.pages where
  delimited := accepted.delimited
  pageCount := ⟨Nat.le_add_left 1 group.2.length, accepted.pageCount⟩
  owner := ⟨group.1.inputOwner, forall_mem_cons.mpr
    ⟨rfl, fun page mem => (accepted.continuation page mem).owner⟩⟩
  epoch := ⟨group.1.epochAnchor, forall_mem_cons.mpr
    ⟨rfl, fun page mem => (accepted.continuation page mem).epoch⟩⟩
  conserves := accepted.balance
  noOverflow := groupInputSum_lt accepted.pageCount

theorem StreamAccepted.partition {pages : List TxBody} {groups : List PageGroup}
    (stream : StreamAccepted pages groups) :
    StreamPartition pages (groups.map PageGroup.pages) := by
  have covers : (groups.map PageGroup.pages).flatten = pages := by
    rw [stream.split, flatMap_def]
  have delimited : ∀ group ∈ groups.map PageGroup.pages,
      Delimited TxBody.isStart TxBody.isEnd group := by
    intro group mem
    obtain ⟨source, inGroups, rfl⟩ := mem_map.mp mem
    exact (stream.accepted source inGroups).delimited
  refine ⟨covers, ?_, nodup_touched_iff.mpr ⟨stream.spentOnce, stream.mintedOnce, stream.apart⟩, ?_⟩
  · intro group mem
    obtain ⟨source, inGroups, rfl⟩ := mem_map.mp mem
    exact (stream.accepted source inGroups).form
  · intro others otherDelimited sameCover
    exact flatten_delimited_unique otherDelimited delimited (sameCover.trans covers.symm)

def groupTouched (group : List TxBody) : List (BitVec 32) := group.flatMap TxBody.touched

/-- Groups that are valid one by one, share no slot and stay within the limits of a block form an
accepted stream. -/
theorem streamAccepted_of_groups {hasher : TxHasher} {groups : List (List TxBody)}
    (valid : ∀ group ∈ groups, ∃ facts, validatePagedSpend hasher group = .ok facts)
    (disjoint : groups.Pairwise fun left right =>
      List.Disjoint (groupTouched left) (groupTouched right))
    (pageLimit : groups.flatten.length ≤ blockMaxUserPages)
    (inputLimit : groupLiveInputs groups.flatten ≤ blockMaxLiveInputs) :
    ∃ parts : List PageGroup, parts.map PageGroup.pages = groups ∧
      StreamAccepted groups.flatten parts := by
  obtain ⟨parts, rfl, accepted⟩ : ∃ parts : List PageGroup, parts.map PageGroup.pages = groups ∧
      ∀ part ∈ parts, part.Accepted := by
    clear disjoint pageLimit inputLimit
    induction groups with
    | nil => exact ⟨[], rfl, by simp⟩
    | cons group groups ih =>
      obtain ⟨facts, checked⟩ := valid group mem_cons_self
      obtain ⟨part, rfl, accepted, -⟩ := validatePagedSpend_pages.mp checked
      obtain ⟨parts, rfl, rest⟩ :=
        ih fun other mem => valid other (mem_cons_of_mem _ mem)
      exact ⟨part :: parts, rfl, forall_mem_cons.mpr ⟨accepted, rest⟩⟩
  have once : ((parts.map PageGroup.pages).flatten.flatMap TxBody.touched).Nodup := by
    have inside : ∀ group ∈ parts.map PageGroup.pages, (groupTouched group).Nodup := by
      intro group mem
      obtain ⟨part, inParts, rfl⟩ := mem_map.mp mem
      exact nodup_touched_iff.mpr ((accepted part inParts).distinct rfl)
    have whole := nodup_flatMap.mpr ⟨inside, disjoint⟩
    rwa [← flatMap_id, flatMap_assoc]
  obtain ⟨spentOnce, mintedOnce, apart⟩ := nodup_touched_iff.mp once
  exact ⟨parts, rfl, ⟨flatMap_def.symm, accepted, pageLimit, inputLimit, spentOnce,
    mintedOnce, apart⟩⟩

/-- An accepted body has one partition into groups, and groups that are valid one by one, share no
slot and stay within the limits are accepted behind every coinbase and payout. -/
theorem page_stream_partition (hasher : TxHasher) (generation : HistoryStepPackGeneration) :
    (∀ transactions facts,
      validateBlockPageStreamIn hasher generation transactions = .ok facts →
        ∃ coinbase payout groups,
          transactions = coinbase :: Option.toList payout ++ List.flatten groups ∧
          coinbase.isPrimaryCoinbaseShape = true ∧
          (∀ record ∈ payout, record.isDevelopmentPayoutShape = true) ∧
          StreamPartition (transactions.drop facts.userStartIndex) groups) ∧
      ∀ (coinbase : TxBody) (payout : Option TxBody) (groups : List (List TxBody)),
        coinbase.isPrimaryCoinbaseShape = true →
        (∀ record ∈ payout, record.isDevelopmentPayoutShape = true) →
        (∀ group ∈ groups, ∃ facts, validatePagedSpend hasher group = .ok facts) →
        (groups.Pairwise fun left right =>
          List.Disjoint (groupTouched left) (groupTouched right)) →
        groups.flatten.length + payout.toList.length ≤ 255 →
        groupLiveInputs groups.flatten ≤ 1020 →
          ∃ facts, validateBlockPageStreamIn hasher generation
            (coinbase :: payout.toList ++ groups.flatten) = .ok facts := by
  constructor
  · intro transactions facts checked
    obtain ⟨layout, rfl, accepted, rfl⟩ := validateBlockPageStreamIn_eq_ok.mp checked
    have partition := accepted.stream.partition
    refine ⟨layout.coinbase, layout.payout, layout.groups.map PageGroup.pages, ?_,
      accepted.primary, accepted.development, ?_⟩
    · rw [partition.covers]
      rfl
    · rwa [BlockLayout.facts, BlockLayout.records, List.drop_left]
  · intro coinbase payout groups primary development valid disjoint pageLimit inputLimit
    obtain ⟨parts, rfl, stream⟩ := streamAccepted_of_groups valid disjoint
      ((Nat.le_add_right _ _).trans pageLimit) inputLimit
    have pages : BlockLayout.pages ⟨coinbase, payout, parts⟩ =
        (parts.map PageGroup.pages).flatten := List.flatMap_def
    refine ⟨_, validateBlockPageStreamIn_eq_ok.mpr ⟨⟨coinbase, payout, parts⟩, ?_, ⟨primary,
      development, ?_, ?_⟩, rfl⟩⟩
    · rw [BlockLayout.records, pages]
      rfl
    · rwa [pages]
    · rwa [pages]

/-- Eight live inputs on a page that opens and closes its group. -/
def fullBitmap : BitVec 16 := 0xff ||| pagedSpendStartBit ||| pagedSpendEndBit

/-- A one-page group that spends eight valueless slots from `8 * index` on. -/
def fullPage (index : Nat) : TxBody where
  epochAnchor := 0
  fee := 0
  inputOwner := 0
  inputs := fun position => ⟨BitVec.ofNat 32 (8 * index + position), 0, 0⟩
  outputs := fun _ => .dummy
  validityBitmap := fullBitmap
  isCoinbase := false

@[simp]
theorem fullBitmap_input (position : Fin 8) : fullBitmap.getLsbD position = true := by
  revert position
  decide

@[simp]
theorem fullBitmap_output (position : Fin 2) :
    fullBitmap.getLsbD (txInputs + position) = false := by
  revert position
  decide

section FullBitmap

variable {body : TxBody} (full : body.validityBitmap = fullBitmap)
include full

theorem TxBody.liveInputs_of_full :
    body.liveInputs =
      (List.finRange 8).map fun position : Fin 8 => (position.val, body.inputs position) := by
  simp only [TxBody.liveInputs, TxBody.inputIsLive_fin, full, fullBitmap_input, filter_true]

theorem TxBody.liveOutputs_of_full : body.liveOutputs = [] := by
  simp only [TxBody.liveOutputs, TxBody.outputIsLive_fin, full, fullBitmap_output,
    filter_false, map_nil]

theorem TxBody.touched_of_full :
    body.touched =
      (List.finRange 8).map fun position : Fin 8 => (body.inputs position).slotIndex := by
  simp [TxBody.touched, TxBody.inputSlots, TxBody.outputSlots, TxBody.liveInputs_of_full full,
    TxBody.liveOutputs_of_full full]

end FullBitmap

section FullPage

variable (index : Nat)

@[simp]
theorem validityBitmap_fullPage : (fullPage index).validityBitmap = fullBitmap := rfl

theorem liveInputs_fullPage :
    (fullPage index).liveInputs = (List.finRange 8).map fun position : Fin 8 =>
      (position.val, ⟨BitVec.ofNat 32 (8 * index + position), 0, 0⟩) :=
  TxBody.liveInputs_of_full rfl

theorem liveOutputs_fullPage : (fullPage index).liveOutputs = [] := TxBody.liveOutputs_of_full rfl

@[simp]
theorem liveInputCount_fullPage : (fullPage index).liveInputCount = 8 := by
  simp [TxBody.liveInputCount_eq, liveInputs_fullPage]

@[simp]
theorem liveOutputCount_fullPage : (fullPage index).liveOutputCount = 0 := by
  simp [TxBody.liveOutputCount_eq, liveOutputs_fullPage]

theorem inputSlots_fullPage :
    (fullPage index).inputSlots =
      (List.finRange 8).map fun position : Fin 8 => BitVec.ofNat 32 (8 * index + position) := by
  simp [TxBody.inputSlots, liveInputs_fullPage]

theorem outputSlots_fullPage : (fullPage index).outputSlots = [] := by
  simp [TxBody.outputSlots, liveOutputs_fullPage]

theorem touched_fullPage : (fullPage index).touched = (fullPage index).inputSlots := by
  rw [TxBody.touched, outputSlots_fullPage, append_nil]

end FullPage

variable {index : Nat}

theorem nodup_inputSlots_fullPage (small : index < 128) :
    (fullPage index).inputSlots.Nodup := by
  rw [inputSlots_fullPage]
  refine (nodup_finRange 8).map fun left right same => ?_
  have values := congrArg BitVec.toNat same
  rw [BitVec.toNat_ofNat, BitVec.toNat_ofNat, Nat.mod_eq_of_lt (by omega),
    Nat.mod_eq_of_lt (by omega)] at values
  omega

theorem accepted_fullPage (small : index < 128) :
    PageGroup.Accepted (fullPage index, []) where
  pageCount := Nat.le_add_left 1 127
  shape := forall_mem_singleton.mpr ⟨show fullBitmap &&& _ = 0 by decide, rfl, by simp,
    fun _ _ => rfl⟩
  start := show fullBitmap.getLsbD 10 = true by decide
  ending := show fullBitmap.getLsbD 11 = true by decide
  interior := by simp
  continuation := by simp
  denseInputs := by
    simp only [DenseEntries, groupInputs, inputEntries, append_nil, pairwise_map,
      TxBody.inputIsLive_fin, validityBitmap_fullPage, fullBitmap_input]
    exact pairwise_of_forall fun _ _ _ => trivial
  denseOutputs := by
    simp only [DenseEntries, groupOutputs, outputEntries, append_nil, pairwise_map,
      TxBody.outputIsLive_fin, validityBitmap_fullPage, fullBitmap_output]
    exact pairwise_of_forall fun _ _ => id
  inputCap := by simp [PagedSpendChecks.production, groupLiveInputs, maxPagedSpendInputs]
  outputCap := by simp [groupLiveOutputs]
  distinct := by
    simp [groupInputSlots, groupOutputSlots, outputSlots_fullPage, nodup_inputSlots_fullPage small]
  live := by simp [groupLiveInputs]
  minimal := by
    simp [groupLiveInputs, groupLiveOutputs, requiredPages, divCeil, txInputs, txOutputs]
  balance := by
    simp only [groupInputSum, groupOutputSum, TxBody.inputSum, TxBody.outputSum, map_cons,
      map_nil, liveInputs_fullPage, liveOutputs_fullPage]
    simp [fullPage, Function.comp_def]

theorem mem_touched_fullPage (small : index < 128) {slot : BitVec 32}
    (mem : slot ∈ (fullPage index).touched) : slot.toNat / 8 = index := by
  rw [touched_fullPage, inputSlots_fullPage] at mem
  obtain ⟨position, -, rfl⟩ := mem_map.mp mem
  rw [BitVec.toNat_ofNat, Nat.mod_eq_of_lt (by omega)]
  omega

/-- One hundred and twenty-eight full pages, each a group of its own. -/
def fullGroups : List (List TxBody) := (List.range 128).map fun index => [fullPage index]

theorem disjoint_fullGroups :
    fullGroups.Pairwise fun left right =>
      List.Disjoint (groupTouched left) (groupTouched right) := by
  refine pairwise_map.mpr (List.Pairwise.imp_of_mem ?_ nodup_range)
  intro left right leftIn rightIn different slot inLeft inRight
  rw [groupTouched, flatMap_singleton] at inLeft inRight
  have fromLeft := mem_touched_fullPage (mem_range.mp leftIn) inLeft
  have fromRight := mem_touched_fullPage (mem_range.mp rightIn) inRight
  exact different (fromLeft.symm.trans fromRight)

theorem flatten_fullGroups : fullGroups.flatten = (List.range 128).map fullPage := by
  rw [fullGroups, ← flatMap_def, map_eq_flatMap]

theorem groupLiveInputs_fullGroups : groupLiveInputs fullGroups.flatten = 1024 := by
  simp [flatten_fullGroups, groupLiveInputs, Function.comp_def]

theorem valid_fullGroups (hasher : TxHasher) :
    ∀ group ∈ fullGroups, ∃ facts, validatePagedSpend hasher group = .ok facts := by
  intro group mem
  obtain ⟨index, inside, rfl⟩ := mem_map.mp mem
  exact ⟨_, validatePagedSpend_pages.mpr
    ⟨(fullPage index, []), rfl, accepted_fullPage (mem_range.mp inside), rfl⟩⟩

/-- Valid groups without a common slot are refused within the page limit when they spend more than
1020 inputs together. -/
theorem page_stream_input_limit :
    ∃ (coinbase : TxBody) (groups : List (List TxBody)),
      coinbase.isPrimaryCoinbaseShape = true ∧
      (∀ hasher, ∀ group ∈ groups, ∃ facts, validatePagedSpend hasher group = .ok facts) ∧
      (groups.Pairwise fun left right =>
        List.Disjoint (groupTouched left) (groupTouched right)) ∧
      groups.flatten.length = 128 ∧
      ∀ hasher generation facts,
        validateBlockPageStreamIn hasher generation (coinbase :: groups.flatten) ≠ .ok facts := by
  refine ⟨.primaryCoinbase 0 0 0 0, fullGroups,
    TxBody.isPrimaryCoinbaseShape_primaryCoinbase _ _ _ _, valid_fullGroups, disjoint_fullGroups,
    by simp [flatten_fullGroups], ?_⟩
  intro hasher generation facts checked
  obtain ⟨layout, records, accepted, -⟩ := validateBlockPageStreamIn_eq_ok.mp checked
  have rest := congrArg groupLiveInputs (List.cons.inj records).2
  have payout : groupLiveInputs layout.payout.toList = 0 := by
    refine List.sum_eq_zero fun count member => ?_
    obtain ⟨record, inPayout, rfl⟩ := List.mem_map.mp member
    exact accepted.liveInputCount_system record (List.mem_cons_of_mem _ inPayout)
  have total : groupLiveInputs (layout.payout.toList ++ layout.pages) =
      groupLiveInputs layout.payout.toList + groupLiveInputs layout.pages := by
    simp [groupLiveInputs]
  have limit : groupLiveInputs layout.pages ≤ 1020 := accepted.stream.inputLimit
  change _ = groupLiveInputs (layout.payout.toList ++ layout.pages) at rest
  rw [groupLiveInputs_fullGroups] at rest
  omega

theorem page_stream_partition_full :
    ∃ facts groups,
      validateBlockPageStreamIn ⟨fun _ => 0, id⟩ .v1 [.primaryCoinbase 0 1024 0 0, fullPage 0] =
        .ok facts ∧
      StreamPartition ([TxBody.primaryCoinbase 0 1024 0 0, fullPage 0].drop facts.userStartIndex)
        groups := by
  obtain ⟨partitioned, accepted⟩ := page_stream_partition ⟨fun _ => 0, id⟩ .v1
  obtain ⟨facts, checked⟩ := accepted (.primaryCoinbase 0 1024 0 0) none [[fullPage 0]]
    (TxBody.isPrimaryCoinbaseShape_primaryCoinbase _ _ _ _) (by simp)
    (List.forall_mem_singleton.mpr ⟨_, validatePagedSpend_pages.mpr
      ⟨(fullPage 0, []), rfl, accepted_fullPage (by decide), rfl⟩⟩)
    (List.pairwise_singleton _ _) (by simp) (by simp [groupLiveInputs])
  obtain ⟨-, -, groups, -, -, -, partition⟩ := partitioned _ facts checked
  exact ⟨facts, groups, checked, partition⟩

end Jetsam
