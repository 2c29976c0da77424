import Jetsam.Consensus.Allocation
import Jetsam.Consensus.Expansion
import Jetsam.Consensus.Template

/-!
# Templates are acceptable blocks

The limits of the selection loop and the chosen slots imply every check of the finished block, and a
validator that applies it repeats the builder's replay.
-/

namespace Jetsam

open Control List

variable {D : Type}

namespace ChainState

variable {chain after : ChainState D}

theorem expandForChild_logSlots [DecidableEq D] {hasher : StateHasher D} {shouldExpand : Bool}
    (expanded : chain.expandForChild hasher shouldExpand = .ok after) :
    after.state.logSlots = chain.state.logSlots + shouldExpand.toNat ∧
      chain.expandTimes hasher shouldExpand.toNat = .ok after := by
  cases shouldExpand with
  | false =>
    obtain rfl := Except.ok.inj expanded
    exact ⟨rfl, rfl⟩
  | true =>
    have grown := mapError_eq_ok.mp expanded
    exact ⟨expandOne_logSlots grown, bind_eq_ok.mpr ⟨after, grown, rfl⟩⟩

end ChainState

def PageGroup.candidate (hasher : TxHasher) (group : PageGroup) : CandidatePagedSpend :=
  ⟨group.pages, pagedSpendFacts hasher group.1 group.2⟩

theorem splitCandidates_groupFacts (hasher : TxHasher) (start : Nat) (groups : List PageGroup) :
    splitCandidates (groupFacts hasher start groups) (groups.flatMap PageGroup.pages) =
      groups.map (PageGroup.candidate hasher) := by
  induction groups generalizing start with
  | nil => rfl
  | cons group groups ih =>
    rw [groupFacts, splitCandidates, flatMap_cons, take_left, drop_left, ih]
    rfl

def groupPages (groups : List PageGroup) : List TxBody := groups.flatMap PageGroup.pages

/-- The selection holds the given groups, and its counters count them. -/
structure Selected (hasher : TxHasher) (parent : BlockHeader D) (offered : List PageGroup)
    (records outputs : Nat) (chosen : List PageGroup) (selection : TemplateSelection D) :
    Prop where
  winners : selection.winners = chosen.map (PageGroup.candidate hasher)
  offered : ∀ group ∈ chosen, group ∈ offered
  systemRecords : selection.resources.systemRecordCount = records
  systemOutputs : selection.resources.systemOutputCount = outputs
  userPages : selection.resources.userPageCount = (groupPages chosen).length
  liveInputs : selection.resources.liveInputCount = groupLiveInputs (groupPages chosen)
  liveOutputs : selection.resources.liveOutputCount = groupLiveOutputs (groupPages chosen)
  slots : selection.resources.touchedSlots = (groupPages chosen).flatMap TxBody.touched
  distinct : selection.resources.touchedSlots.Nodup
  segments : selection.resources.touchedSegments.length =
    (touchedSegments (groupPages chosen)).toFinset.card
  segmentSet : selection.resources.touchedSegments.toFinset =
    (touchedSegments (groupPages chosen)).toFinset
  paid : FeesPaid parent chosen
  limits : selection.resources.WithinLimits

theorem selected_nil (hasher : TxHasher) (parent : BlockHeader D) (offered : List PageGroup)
    (scratch : ChainState D) (payoutDue : Bool) :
    Selected hasher parent offered payoutDue.toNat (1 + 2 * payoutDue.toNat) []
      ⟨scratch, .withSystemOutputs payoutDue.toNat (1 + 2 * payoutDue.toNat), []⟩ where
  winners := rfl
  offered := by simp
  systemRecords := rfl
  systemOutputs := rfl
  userPages := rfl
  liveInputs := rfl
  liveOutputs := rfl
  slots := rfl
  distinct := nodup_nil
  segments := rfl
  segmentSet := rfl
  paid := by simp [FeesPaid]
  limits := by
    change (TemplateResourceSelection.withSystemOutputs payoutDue.toNat
      (1 + 2 * payoutDue.toNat)).WithinLimits
    cases payoutDue <;> decide

theorem groupPages_concat (groups : List PageGroup) (group : PageGroup) :
    groupPages (groups ++ [group]) = groupPages groups ++ group.pages := by
  simp [groupPages]

theorem groupLiveInputs_append (left right : List TxBody) :
    groupLiveInputs (left ++ right) = groupLiveInputs left + groupLiveInputs right := by
  simp [groupLiveInputs]

theorem groupLiveOutputs_append (left right : List TxBody) :
    groupLiveOutputs (left ++ right) = groupLiveOutputs left + groupLiveOutputs right := by
  simp [groupLiveOutputs]

theorem touchedSegments_append (left right : List TxBody) :
    touchedSegments (left ++ right) = touchedSegments left ++ touchedSegments right := by
  simp [touchedSegments]

theorem withGroup_eq_some {selection next : TemplateResourceSelection} {pages : List TxBody}
    {spend : PagedSpendFacts} (taken : selection.withGroup pages spend = some next) :
    firstRepeat selection.touchedSlots (pages.flatMap TxBody.touched) = none ∧
      next.WithinLimits ∧
      next =
        { selection with
          userPageCount := selection.userPageCount + pages.length
          logicalCount := selection.logicalCount + 1
          liveInputCount := selection.liveInputCount + spend.liveInputs
          liveOutputCount := selection.liveOutputCount + spend.liveOutputs
          touchedSlots := selection.touchedSlots ++ pages.flatMap TxBody.touched
          touchedSegments := (selection.touchedSegments ++ touchedSegments pages).dedup } := by
  rw [TemplateResourceSelection.withGroup] at taken
  split at taken
  · next allowed =>
      obtain rfl := Option.some.inj taken
      exact ⟨allowed.1, allowed.2, rfl⟩
  · cases taken

variable {parent : BlockHeader D} {offered : List PageGroup}

variable {hasher : TxHasher} {chosen : List PageGroup}

theorem Selected.selectGroup {records outputs : Nat} {before after : TemplateSelection D}
    (selected : Selected hasher parent offered records outputs chosen before) {group : PageGroup}
    (known : group ∈ offered)
    (step : Jetsam.selectGroup parent before (group.candidate hasher) = .ok after) :
    ∃ chosen, Selected hasher parent offered records outputs chosen after := by
  rw [Jetsam.selectGroup] at step
  split at step
  · obtain rfl := Except.ok.inj step
    exact ⟨chosen, selected⟩
  · next resources taken =>
      dsimp only at step
      split at step
      · obtain rfl := Except.ok.inj step
        exact ⟨chosen, selected⟩
      · next pays =>
          simp only [bind_eq_ok, pure_eq_ok] at step
          obtain ⟨scratch, -, rfl⟩ := step
          obtain ⟨fresh, limits, rfl⟩ := withGroup_eq_some taken
          obtain ⟨once, unseen⟩ := firstRepeat_eq_none.mp fresh
          have segmentSet : ((before.resources.touchedSegments ++
              touchedSegments group.pages).dedup).toFinset =
              (touchedSegments (groupPages (chosen ++ [group]))).toFinset := by
            rw [groupPages_concat, touchedSegments_append, toFinset_append,
              ← selected.segmentSet, ← toFinset_append]
            ext segId
            rw [mem_toFinset, mem_toFinset, mem_dedup]
          refine ⟨chosen ++ [group], ?_⟩
          exact
            { winners := by rw [selected.winners, map_append, map_singleton]
              offered := by
                intro other mem
                rcases mem_append.mp mem with mem | mem
                · exact selected.offered other mem
                · exact mem_singleton.mp mem ▸ known
              systemRecords := selected.systemRecords
              systemOutputs := selected.systemOutputs
              userPages := by
                rw [groupPages_concat, length_append, ← selected.userPages]
                rfl
              liveInputs := by
                rw [groupPages_concat, groupLiveInputs_append, ← selected.liveInputs]
                rfl
              liveOutputs := by
                rw [groupPages_concat, groupLiveOutputs_append, ← selected.liveOutputs]
                rfl
              slots := by
                rw [groupPages_concat, flatMap_append, ← selected.slots]
                rfl
              distinct := nodup_append'.mpr ⟨selected.distinct, once,
                fun slot seen again => unseen slot again seen⟩
              segments := by
                rw [← segmentSet, toFinset_card_of_nodup (nodup_dedup _)]
                rfl
              segmentSet
              paid := by
                intro other mem
                rcases mem_append.mp mem with mem | mem
                · exact selected.paid other mem
                · rw [mem_singleton.mp mem]
                  exact Nat.le_of_not_lt pays
              limits }

variable {scratch : ChainState D} {payoutDue : Bool}

theorem selected_of_foldlM {candidates : List CandidatePagedSpend}
    (known : ∀ candidate ∈ candidates, ∃ group ∈ offered, candidate = group.candidate hasher)
    {final : TemplateSelection D} (run : candidates.foldlM (selectGroup parent)
      ⟨scratch, .withSystemOutputs payoutDue.toNat (1 + 2 * payoutDue.toNat), []⟩ = .ok final) :
    ∃ chosen, Selected hasher parent offered payoutDue.toNat (1 + 2 * payoutDue.toNat) chosen
      final := by
  have kept : ∀ candidate ∈ candidates, ∀ before after : TemplateSelection D,
      (∃ chosen, Selected hasher parent offered payoutDue.toNat (1 + 2 * payoutDue.toNat) chosen
        before) →
      selectGroup parent before candidate = .ok after →
      ∃ chosen, Selected hasher parent offered payoutDue.toNat (1 + 2 * payoutDue.toNat) chosen
        after := by
    rintro candidate mem before after ⟨chosen, selected⟩ step
    obtain ⟨group, inOffered, rfl⟩ := known candidate mem
    exact selected.selectGroup inOffered step
  exact foldlM_invariant kept ⟨[], selected_nil hasher parent offered scratch payoutDue⟩ run

namespace Selected

variable {hasher : TxHasher} {parent : BlockHeader D} {offered chosen : List PageGroup}
  {candidates : List TxBody} {selection : TemplateSelection D} {records outputs : Nat}

theorem layoutAccepted (selected : Selected hasher parent offered records outputs chosen selection)
    (stream : StreamAccepted candidates offered) {coinbase : TxBody} {payout : Option TxBody}
    (primary : coinbase.isPrimaryCoinbaseShape = true)
    (development : ∀ body ∈ payout, body.isDevelopmentPayoutShape = true)
    (counted : payout.toList.length = records) :
    BlockLayout.Accepted ⟨coinbase, payout, chosen⟩ := by
  obtain ⟨pageLimit, -, inputLimit, -⟩ := selected.limits
  rw [selected.userPages, selected.systemRecords] at pageLimit
  rw [selected.liveInputs] at inputLimit
  obtain ⟨spentOnce, mintedOnce, apart⟩ :=
    nodup_touched_iff.mp (selected.slots ▸ selected.distinct)
  refine ⟨primary, development, ⟨rfl, ?_, ?_, inputLimit, spentOnce, mintedOnce, apart⟩, ?_⟩
  · exact fun group mem => stream.accepted group (selected.offered group mem)
  · exact (Nat.le_add_right _ _).trans pageLimit
  · rw [counted]
    exact pageLimit

/-- The limits of the selection bound the whole block. -/
theorem resourcesBounded
    (selected : Selected hasher parent offered records outputs chosen selection)
    {system : List TxBody} (noInputs : groupLiveInputs system = 0)
    (mints : groupLiveOutputs system = outputs) :
    ResourcesBounded (system ++ groupPages chosen) := by
  obtain ⟨-, -, inputLimit, outputLimit, actionLimit, segmentLimit⟩ := selected.limits
  rw [selected.liveInputs] at inputLimit actionLimit
  rw [selected.liveOutputs, selected.systemOutputs] at outputLimit actionLimit
  rw [selected.segments, selected.systemOutputs] at segmentLimit
  have systemSegments : (touchedSegments system).toFinset.card ≤ outputs := by
    refine (toFinset_card_le _).trans ?_
    rw [touchedSegments, length_map, length_flatMap_touched, noInputs, mints, zero_add]
  refine ⟨?_, ?_, ?_, ?_⟩
  · rw [touchedSegments_append, toFinset_append]
    have union := Finset.card_union_le (touchedSegments system).toFinset
      (touchedSegments (groupPages chosen)).toFinset
    omega
  · rw [groupLiveInputs_append, noInputs, zero_add]
    exact inputLimit
  · rw [groupLiveOutputs_append, mints, add_comm]
    exact outputLimit
  · rw [groupLiveInputs_append, groupLiveOutputs_append, noInputs, mints]
    omega

end Selected

section DevelopmentPayout

variable (anchor : Digest) (slots : BitVec 32 × BitVec 32) (amount : BitVec 64)

theorem TxBody.isDevelopmentPayoutShape_developmentPayout :
    (developmentPayout anchor slots amount).isDevelopmentPayoutShape = true := by
  simp only [isDevelopmentPayoutShape, developmentPayout]
  decide

theorem TxBody.liveOutputs_developmentPayout :
    (developmentPayout anchor slots amount).liveOutputs =
      [(0, ⟨slots.1, amount, networkFundAddress⟩), (1, ⟨slots.2, amount, labFundAddress⟩)] :=
  liveOutputs_development (isDevelopmentPayoutShape_developmentPayout anchor slots amount)

theorem TxBody.touched_developmentPayout :
    (developmentPayout anchor slots amount).touched = [slots.1, slots.2] := by
  rw [touched, inputSlots, outputSlots, liveInputs_mint (Or.inr rfl), liveOutputs_developmentPayout]
  rfl

theorem validateBodySemanticsNoHash_developmentPayout (apart : slots.1 ≠ slots.2) :
    validateBodySemanticsNoHash (.developmentPayout anchor slots amount) = .ok () := by
  apply validateBodySemanticsNoHash_mint
  · exact Or.inr rfl
  · rfl
  · exact ⟨rfl, rfl⟩
  · exact fun _ => rfl
  · intro dead
    rw [TxBody.outputIsLive_fin] at dead
    exact absurd dead (show ¬(outputBitmapBit 0 ||| outputBitmapBit 1).getLsbD 8 = false by decide)
  · intro dead
    rw [TxBody.outputIsLive_fin] at dead
    exact absurd dead (show ¬(outputBitmapBit 0 ||| outputBitmapBit 1).getLsbD 9 = false by decide)
  · rw [TxBody.outputSlots, TxBody.liveOutputs_developmentPayout]
    simpa using apart

end DevelopmentPayout

variable {reserved : List (BitVec 32)} {coinbase : BitVec 32}
  {pair : Option (BitVec 32 × BitVec 32)}

/-- The slots of the system mints are apart from each other and from the reserved ones. -/
theorem ChainState.selectSystemSlots_eq_ok {chain : ChainState D} {seed : BitVec 64}
    (chosen : chain.selectSystemSlots seed reserved payoutDue = .ok (coinbase, pair)) :
    pair.isSome = payoutDue ∧ coinbase ∉ reserved ∧
      ∀ slots ∈ pair, slots.1 ∉ coinbase :: reserved ∧
        slots.2 ∉ slots.1 :: coinbase :: reserved := by
  simp only [selectSystemSlots, bind_eq_ok, mapError_eq_ok] at chosen
  obtain ⟨slot, first, rest⟩ := chosen
  have fresh := selectSystemMintSlot_notMem first
  cases payoutDue with
  | false =>
    obtain ⟨rfl, rfl⟩ := rest
    exact ⟨rfl, fresh, by simp⟩
  | true =>
    simp only [if_true, bind_eq_ok, mapError_eq_ok, pure_eq_ok, Prod.mk.injEq] at rest
    obtain ⟨second, secondChosen, third, thirdChosen, rfl, rfl⟩ := rest
    refine ⟨rfl, fresh, fun slots mem => ?_⟩
    obtain rfl := Option.some.inj mem
    exact ⟨selectSystemMintSlot_notMem secondChosen, selectSystemMintSlot_notMem thirdChosen⟩

/-- The state stands at the parent header. -/
structure MatchesParent (parent : BlockHeader D) (chain : ChainState D) : Prop where
  logSlots : parent.logSlots = chain.state.logSlots
  activeSlotCount : parent.activeSlotCount = chain.activeSlotCount
  allocCounter : parent.allocCounter = chain.allocCounter
  stateRoot : parent.stateRoot = chain.utxoRoot

/-- What the builder has fixed: the layout, the touched slots, the issuance and the states of its
replay. -/
structure Replayed (hashes : ChainHashes D) (parent : BlockHeader D)
    (allocation : DevelopmentAllocation) (scratch : ChainState D) (layout : BlockLayout)
    (template : BlockTemplate D) (post : ChainState D) : Prop where
  records : ∀ nonce, (template.intoBlock nonce).transactions = layout.records
  accepted : layout.Accepted
  bounded : ResourcesBounded layout.records
  paid : FeesPaid parent layout.groups
  distinct : (layout.records.flatMap TxBody.touched).Nodup
  valid : SystemRecordsValid (hashes.blockId parent) template.minerAddress allocation.payoutEach
    layout
  ceiling : (layout.coinbase.outputs 0).amount.toNat ≤
    allocation.minerSubsidy + claimableFees parent layout.groups
  txRoot : template.txRoot = rootFromHashes hashes.tree (layout.txids hashes.tx)
  counters : template.activeSlotCount = post.activeSlotCount ∧
    template.allocCounter = post.allocCounter
  replay : ∃ minted applied,
    layout.system.foldlM (ChainState.applyRecord template.height true) scratch = .ok minted ∧
    layout.pages.foldlM (ChainState.applyRecord template.height false) minted = .ok applied ∧
    applied.tryStateRoot hashes.state = .ok (post, template.stateRoot)

theorem claimableFeeSum_candidates (parent : BlockHeader D) (hasher : TxHasher)
    (groups : List PageGroup) :
    claimableFeeSum parent (groups.map (PageGroup.candidate hasher)) =
      claimableFees parent groups := by
  rw [claimableFeeSum, map_map]
  rfl

theorem flatMap_candidates (hasher : TxHasher) (groups : List PageGroup) :
    (groups.map (PageGroup.candidate hasher)).flatMap CandidatePagedSpend.pages =
      groupPages groups := by
  rw [flatMap_map]
  rfl

variable {height : Nat} {activation : Option Nat} {allocation : DevelopmentAllocation}

theorem payoutEach_lt (allocated : developmentAllocationWith height activation = .ok allocation) :
    ∀ amount ∈ allocation.payoutEach, amount < 2 ^ 64 := by
  intro amount mem
  obtain ⟨-, each, -, -⟩ := developmentAllocationWith_eq_ok allocated
  rw [Option.mem_def.mp mem, Option.getD_some] at each
  rw [each, developmentPayoutEach]
  split
  · exact payout_lt_u64Bound height activation
  · decide

variable {slots : Option (BitVec 32 × BitVec 32)}

theorem systemRecordsValid_template (anchor : Digest) (coinbaseSlot : BitVec 32) (value : BitVec 64)
    (miner : Address) (allocated : developmentAllocationWith height activation = .ok allocation)
    (chosen : slots.isSome = allocation.payoutDue) (apart : ∀ pair ∈ slots, pair.1 ≠ pair.2)
    (groups : List PageGroup) :
    SystemRecordsValid anchor miner allocation.payoutEach
      ⟨.primaryCoinbase anchor coinbaseSlot value miner,
        scheduledPayout anchor allocation.payoutEach slots, groups⟩ := by
  obtain ⟨-, -, -, scheduled⟩ := developmentAllocationWith_eq_ok allocated
  have small := payoutEach_lt allocated
  cases each : allocation.payoutEach with
  | none => exact systemRecordsValid_primaryCoinbase anchor coinbaseSlot value miner groups
  | some amount =>
    rw [each, Option.isSome_some] at scheduled
    obtain ⟨pair, rfl⟩ := Option.isSome_iff_exists.mp (chosen.trans scheduled.symm)
    have amountEq : (BitVec.ofNat 64 amount).toNat = amount :=
      Nat.mod_eq_of_lt (small amount each)
    refine ⟨?_, ?_, rfl, rfl, ?_⟩
    · refine forall_mem_cons.mpr
        ⟨validateBodySemanticsNoHash_primaryCoinbase anchor coinbaseSlot value miner,
          forall_mem_singleton.mpr ?_⟩
      exact validateBodySemanticsNoHash_developmentPayout anchor pair _ (apart pair rfl)
    · exact forall_mem_cons.mpr ⟨rfl, forall_mem_singleton.mpr rfl⟩
    · rintro body isPayout due isDue
      obtain rfl := Option.some.inj isPayout
      obtain rfl := Option.some.inj isDue
      exact ⟨rfl, rfl, amountEq, amountEq⟩

theorem nodup_systemSlots (once : reserved.Nodup) (fresh : coinbase ∉ reserved)
    (freshPair : ∀ slots ∈ pair,
      slots.1 ∉ coinbase :: reserved ∧ slots.2 ∉ slots.1 :: coinbase :: reserved) :
    ((coinbase :: pair.toList.flatMap fun slots => [slots.1, slots.2]) ++ reserved).Nodup := by
  cases pair with
  | none => exact nodup_cons.mpr ⟨fresh, once⟩
  | some slots =>
    obtain ⟨first, second⟩ := freshPair slots rfl
    simp only [mem_cons, not_or] at first second
    have apart : coinbase ≠ slots.1 ∧ coinbase ≠ slots.2 ∧ slots.1 ≠ slots.2 :=
      ⟨Ne.symm first.1, Ne.symm second.2.1, Ne.symm second.1⟩
    simp [once, fresh, first.2, second.2.2, apart]

theorem system_template (anchor : Digest) (coinbaseSlot : BitVec 32) (value : BitVec 64)
    (miner : Address) (allocated : developmentAllocationWith height activation = .ok allocation)
    (chosen : slots.isSome = allocation.payoutDue) :
    let payout := scheduledPayout anchor allocation.payoutEach slots
    let system := TxBody.primaryCoinbase anchor coinbaseSlot value miner :: payout.toList
    (∀ body ∈ payout, body.isDevelopmentPayoutShape = true) ∧
      payout.toList.length = allocation.payoutDue.toNat ∧ groupLiveInputs system = 0 ∧
      groupLiveOutputs system = 1 + 2 * allocation.payoutDue.toNat ∧
      system.flatMap TxBody.touched =
        coinbaseSlot :: slots.toList.flatMap fun pair => [pair.1, pair.2] := by
  obtain ⟨-, -, -, scheduled⟩ := developmentAllocationWith_eq_ok allocated
  have coinbaseInputs := TxBody.liveInputs_primaryCoinbase anchor coinbaseSlot value miner
  have coinbaseOutputs := TxBody.liveOutputs_primaryCoinbase anchor coinbaseSlot value miner
  have coinbaseTouched := TxBody.touched_primaryCoinbase anchor coinbaseSlot value miner
  cases each : allocation.payoutEach with
  | none =>
    rw [each, Option.isSome_none] at scheduled
    have nothing : slots = none := by
      rw [← Option.not_isSome_iff_eq_none, chosen, ← scheduled]
      exact Bool.false_ne_true
    simp [scheduledPayout, nothing, ← scheduled, groupLiveInputs, groupLiveOutputs,
      TxBody.liveInputCount_eq, TxBody.liveOutputCount_eq, coinbaseInputs, coinbaseOutputs,
      coinbaseTouched]
  | some amount =>
    rw [each, Option.isSome_some] at scheduled
    obtain ⟨pair, rfl⟩ := Option.isSome_iff_exists.mp (chosen.trans scheduled.symm)
    have payoutOutputs := TxBody.liveOutputs_developmentPayout anchor pair
      (BitVec.ofNat 64 amount)
    have payoutInputs : (TxBody.developmentPayout anchor pair
        (BitVec.ofNat 64 amount)).liveInputs = [] := TxBody.liveInputs_mint (Or.inr rfl)
    simp [scheduledPayout, ← scheduled, groupLiveInputs, groupLiveOutputs,
      TxBody.liveInputCount_eq, TxBody.liveOutputCount_eq, coinbaseInputs, coinbaseOutputs,
      coinbaseTouched, payoutInputs, payoutOutputs, TxBody.touched_developmentPayout,
      TxBody.isDevelopmentPayoutShape_developmentPayout]

/-- A replay that returns has laid out an acceptable block and run its records. -/
theorem replayTemplate_eq_ok {hashes : ChainHashes D} {rootWord : D → BitVec 64}
    {childHeight newLogSlots timestamp : Nat} {post : ChainState D} {minerAddress : Address}
    {difficultyTarget : BitVec 256} {template : BlockTemplate D} {candidates : List TxBody}
    {selection : TemplateSelection D}
    (allocated : developmentAllocationWith childHeight activation = .ok allocation)
    (stream : StreamAccepted candidates offered)
    (selected : Selected hashes.tx parent offered allocation.payoutDue.toNat
      (1 + 2 * allocation.payoutDue.toNat) chosen selection)
    (built : replayTemplate hashes rootWord parent childHeight newLogSlots allocation scratch
      selection.winners minerAddress timestamp difficultyTarget = .ok (template, post)) :
    template.height = childHeight ∧ template.logSlots = newLogSlots ∧
      ∃ layout, Replayed hashes parent allocation scratch layout template post := by
  simp only [replayTemplate, bind_eq_ok, mapError_eq_ok, pure_eq_ok, Prod.mk.injEq,
    selected.winners, flatMap_candidates, claimableFeeSum_candidates] at built
  obtain ⟨⟨coinbaseSlot, developmentSlots⟩, slotsChosen, minted, mints, applied, pages,
    ⟨rooted, root⟩, read, rfl, rfl⟩ := built
  obtain ⟨due, freshCoinbase, freshPair⟩ := ChainState.selectSystemSlots_eq_ok slotsChosen
  generalize valueEq : BitVec.ofNat 64
    (min (allocation.minerSubsidy + claimableFees parent chosen) u64Max) = value at mints ⊢
  obtain ⟨development, counted, noInputs, mintCount, touched⟩ :=
    system_template (hashes.blockId parent) coinbaseSlot value minerAddress allocated due
  have accepted := selected.layoutAccepted stream
    (TxBody.isPrimaryCoinbaseShape_primaryCoinbase (hashes.blockId parent) coinbaseSlot value
      minerAddress) development counted
  have apart : ∀ pair ∈ developmentSlots, pair.1 ≠ pair.2 := by
    intro pair mem same
    exact (freshPair pair mem).2 (same ▸ mem_cons_self)
  have valid := systemRecordsValid_template (hashes.blockId parent) coinbaseSlot value minerAddress
    allocated due apart chosen
  refine ⟨rfl, rfl, _, fun _ => rfl, accepted, selected.resourcesBounded noInputs mintCount,
    selected.paid, ?_, valid, ?_, ?_, ⟨rfl, rfl⟩, minted, applied, ?_, ?_, read⟩
  · have reserved : (chosen.map (PageGroup.candidate hashes.tx)).flatMap
        (fun group => group.pages.flatMap TxBody.touched) =
        (groupPages chosen).flatMap TxBody.touched := by
      rw [← flatMap_assoc, flatMap_candidates]
    rw [reserved] at freshCoinbase freshPair
    rw [BlockLayout.records, flatMap_append, BlockLayout.system, touched]
    exact nodup_systemSlots (selected.slots ▸ selected.distinct) freshCoinbase freshPair
  · change value.toNat ≤ _
    rw [← valueEq, BitVec.toNat_ofNat]
    exact (Nat.mod_le _ _).trans (Nat.min_le_left _ _)
  · simp only [BlockLayout.txids, map_map]
    rfl
  · refine foldlM_congr_ok (fun body mem before after step => ?_) mints
    exact bind_eq_ok.mpr ⟨(), mapError_eq_ok.mpr (valid.canonical body mem),
      mapError_eq_ok.mpr (mapError_eq_ok.mp step)⟩
  · refine foldlM_congr_ok (fun body mem before after step => ?_) pages
    rw [mapError_eq_ok, ChainState.applyTxCheckedDeferredRoot_of_user
      (accepted.stream.user body mem) none (some childHeight)] at step
    exact bind_eq_ok.mpr ⟨(), rfl, mapError_eq_ok.mpr step⟩

theorem expectedChildLogSlots_eq_add (parentHeight : Nat) (counts : List Nat) {parentLogSlots : Nat}
    (bound : parentLogSlots ≤ logSlotsMax) :
    expectedChildLogSlots parentHeight parentLogSlots counts = parentLogSlots +
      (decide
        (expectedChildLogSlots parentHeight parentLogSlots counts ≠ parentLogSlots)).toNat := by
  rcases expectedChildLogSlots_cases parentHeight parentLogSlots counts with kept | grown
  · simp [kept]
  · rw [grown]
    simp only [logSlotsMax] at bound ⊢
    by_cases top : parentLogSlots = 32
    · simp [top]
    · have below : min (parentLogSlots + 1) 32 = parentLogSlots + 1 := by omega
      simp [below]

section Sound

variable [DecidableEq D] {hashes : ChainHashes D} {parent : BlockHeader D}
  {allocation : DevelopmentAllocation} {chain scratch post : ChainState D} {layout : BlockLayout}
  {template : BlockTemplate D}

omit [DecidableEq D] in
theorem Replayed.domain
    (replayed : Replayed hashes parent allocation scratch layout template post) :
    (∀ slot ∈ layout.records.flatMap TxBody.touched, slot.toNat < 2 ^ scratch.state.logSlots) ∧
      post.state.logSlots = scratch.state.logSlots := by
  obtain ⟨minted, applied, mints, pages, read⟩ := replayed.replay
  obtain ⟨systemRange, mintedDepth⟩ := ChainState.foldlM_applyRecord_domain mints
  obtain ⟨pageRange, appliedDepth⟩ := ChainState.foldlM_applyRecord_domain pages
  obtain ⟨-, postDepth⟩ := ChainState.tryStateRoot_eq_ok read
  rw [mintedDepth] at pageRange appliedDepth
  refine ⟨?_, postDepth.trans appliedDepth⟩
  rw [BlockLayout.records, flatMap_append]
  exact forall_mem_append.mpr ⟨systemRange, pageRange⟩

theorem Replayed.applyBlock
    (replayed : Replayed hashes parent allocation scratch layout template post)
    (expanded : chain.expandTimes hashes.state (template.logSlots - chain.state.logSlots) =
      .ok scratch)
    (depth : template.logSlots = scratch.state.logSlots) (nonce : BitVec 128) :
    chain.applyBlock hashes (template.intoBlock nonce) = .ok (post, template.stateRoot) := by
  have records := replayed.records nonce
  have stream : validateBlockPageStream hashes.tx layout.records =
      .ok (layout.facts hashes.tx .v1) :=
    validateBlockPageStreamIn_eq_ok.mpr ⟨layout, rfl, replayed.accepted, rfl⟩
  have system : layout.records.take layout.system.length = layout.system := take_left
  have pages : layout.records.drop layout.system.length = layout.pages := drop_left
  obtain ⟨-, finalDepth⟩ := replayed.domain
  obtain ⟨minted, applied, mints, run, read⟩ := replayed.replay
  obtain ⟨cached, -⟩ := ChainState.tryStateRoot_eq_ok read
  simp only [ChainState.applyBlock, ChainState.applyRecords, records, bind_eq_ok, require_eq_ok,
    mapError_eq_ok, exists_const, pure_eq_ok, stream, Except.ok.injEq, exists_eq_left',
    BlockLayout.facts, system, pages, replayed.accepted.tryComputeTxRoot]
  refine ⟨replayed.accepted.length_records,
    (), validateBlockSlotConflicts_eq_ok.mpr replayed.distinct,
    replayed.accepted.liveInputCount_system, scratch, expanded, applied, ⟨minted, mints, run⟩,
    (post, template.stateRoot), read, rfl, replayed.counters.1, replayed.counters.2,
    depth.trans finalDepth.symm, replayed.txRoot, ?_⟩
  rw [cached]

/-- A template leads to a block that passes the checks against the parent, and whose application
ends in the state the builder returned. -/
theorem template_block_accepted (rules : ConsensusRules D) (rootWord : D → BitVec 64)
    (finalizedActiveCounts : List Nat) (candidateTxs : List TxBody) (minerAddress : Address)
    (timestamp : Nat) (difficultyTarget : BitVec 256) (matching : MatchesParent parent chain)
    (domain : 1 ≤ chain.state.logSlots ∧ chain.state.logSlots ≤ logSlotsMax)
    (built : buildBlockTemplateWithPostState hashes rules.v1_5Activation rootWord parent chain
      finalizedActiveCounts candidateTxs minerAddress timestamp difficultyTarget =
        .ok (template, post)) (nonce : BitVec 128) (licenseDividend : Nat) :
    (∃ facts, validateBlockResourcePreflight hashes.tx rules.client (template.intoBlock nonce) =
      .ok facts) ∧
    validateMandatoryCoinbase hashes rules (template.intoBlock nonce) parent = .ok () ∧
    (∃ stream, validateBlockPageStream hashes.tx (template.intoBlock nonce).transactions =
      .ok stream) ∧
    validateBlockSlotConflicts ConsensusError.slotConflict
      (template.intoBlock nonce).transactions = .ok () ∧
    (∃ claimable, validateFeePolicyAndClaimableFeeSum hashes.tx (template.intoBlock nonce) parent =
        .ok claimable ∧
      validateCoinbaseCeiling rules (template.intoBlock nonce) claimable licenseDividend =
        .ok ()) ∧
    chain.applyBlock hashes (template.intoBlock nonce) = .ok (post, template.stateRoot) := by
  simp only [buildBlockTemplateWithPostState, bind_eq_ok, okOr_eq_ok, mapError_eq_ok,
    validatePagedSpendTransactionStreamIn_eq_ok] at built
  obtain ⟨childHeight, -, _, ⟨offered, stream, rfl⟩, allocation, allocated, scratch, grown, _, -,
    selection, selecting, built⟩ := built
  have known : ∀ candidate ∈ (splitCandidates (streamFacts hashes.tx .v1 candidateTxs
      offered).groups candidateTxs).insertionSort CandidatePagedSpend.Precedes,
      ∃ group ∈ offered, candidate = group.candidate hashes.tx := by
    intro candidate member
    rw [List.mem_insertionSort] at member
    simp only [streamFacts] at member
    rw [stream.split, splitCandidates_groupFacts] at member
    obtain ⟨group, inOffered, rfl⟩ := List.mem_map.mp member
    exact ⟨group, inOffered, rfl⟩
  obtain ⟨chosen, selected⟩ := selected_of_foldlM known selecting
  obtain ⟨rfl, newDepth, layout, replayed⟩ := replayTemplate_eq_ok allocated stream selected built
  obtain ⟨grownDepth, expanded⟩ := ChainState.expandForChild_logSlots grown
  have childDepth := expectedChildLogSlots_eq_add parent.height finalizedActiveCounts
    (matching.logSlots ▸ domain.2)
  rw [← newDepth, matching.logSlots] at childDepth grownDepth expanded
  have depth : template.logSlots = scratch.state.logSlots := childDepth.trans grownDepth.symm
  have inDomain : 1 ≤ template.logSlots ∧ template.logSlots ≤ 32 := by
    refine ⟨by omega, ?_⟩
    rw [newDepth]
    rcases expectedChildLogSlots_cases parent.height parent.logSlots finalizedActiveCounts with
      kept | step
    · rw [kept, matching.logSlots]
      exact domain.2
    · rw [step]
      exact Nat.min_le_right _ _
  obtain ⟨subsidy, -, -, -⟩ := developmentAllocationWith_eq_ok allocated
  obtain ⟨inRange, -⟩ := replayed.domain
  have records := replayed.records nonce
  refine ⟨validateBlockResourcePreflight_isOk records replayed.accepted rfl inDomain ?_ ?_,
    validateMandatoryCoinbase_isOk records replayed.accepted allocated replayed.valid,
    ⟨_, validateBlockPageStreamIn_eq_ok.mpr ⟨layout, records, replayed.accepted, rfl⟩⟩,
    validateBlockSlotConflicts_eq_ok.mpr (records ▸ replayed.distinct),
    ⟨_, validateFeePolicyAndClaimableFeeSum_isOk records replayed.accepted replayed.paid, ?_⟩, ?_⟩
  · intro slot member
    rw [records] at member
    exact lt_of_lt_of_eq (inRange slot member) (congrArg (2 ^ ·) depth.symm)
  · exact records ▸ replayed.bounded
  · apply validateCoinbaseCeiling_isOk records replayed.accepted
    exact (subsidy ▸ replayed.ceiling).trans (Nat.le_add_right _ _)
  · refine replayed.applyBlock ?_ depth nonce
    rwa [childDepth, Nat.add_sub_cancel_left]

end Sound

section Sample

/-- Hashes that add up what they are given. -/
def additiveHashes : ChainHashes Digest where
  state := ⟨fun slot => slot.amount.setWidth 256, fun left right => 3 * left + right, 0⟩
  tx := ⟨fun body => body.epochAnchor + body.fee.setWidth 256, id⟩
  tree := ⟨fun left right => 3 * left + right, fun root count => root + BitVec.ofNat 256 count⟩
  blockId := fun header => header.stateRoot + BitVec.ofNat 256 header.height
  commitment := fun _ => 0

/-- Rules without checkpoints, objects or work. -/
def freeRules : ConsensusRules Digest where
  checkpoints := []
  expectedTarget := fun _ _ => 0
  timestampValid := fun _ _ => true
  powValid := fun _ => true
  v1_5Activation := none
  client := ⟨none, 0, .burn, 0, 0, none, 0, 0, 0, 0, []⟩
  batch := ⟨none, none, 0, []⟩

/-- A spend of a coinbase output that leaves half of it as fee. -/
def candidatePage : TxBody where
  epochAnchor := 1
  fee := 22500000
  inputOwner := 7
  inputs := ![⟨0, 45000000, coinbaseCreationId 1⟩, .dummy, .dummy, .dummy, .dummy, .dummy, .dummy,
    .dummy]
  outputs := ![⟨1, 22500000, 8⟩, .dummy]
  validityBitmap := 0x101 ||| pagedSpendStartBit ||| pagedSpendEndBit
  isCoinbase := false

/-- The coinbase output it spends. -/
def spentCoinbase : SlotValue := .withOwnerFields 45000000 (coinbaseCreationId 1) (asFields 7)

/-- A domain of eight slots in which only that output is live. -/
def candidateChain : ChainState Digest :=
  { ChainState.withLogSlots additiveHashes.state 3 with
    state := (SegmentedFriState.newEmpty 3).writeSlot 0 spentCoinbase
    utxoRoot := additiveHashes.state.slotRoot 3 (Function.update (fun _ => .empty) 0 spentCoinbase)
    activeSlotCount := 1
    allocCounter := 1
    circulatingSupply := 45000000 }

/-- Its header, one block before a development payout. -/
def candidateParent : BlockHeader Digest :=
  ⟨0, candidateChain.utxoRoot, 0, 0, 959, 0, 0, 0, 3, 1, 1⟩

theorem template_block_accepted_payout :
    ∃ template post, buildBlockTemplateWithPostState additiveHashes none
        (fun root => root.setWidth 64) candidateParent candidateChain [] [candidatePage] 9 0 0 =
          .ok (template, post) ∧
      (∃ facts, validateBlockResourcePreflight additiveHashes.tx freeRules.client
        (template.intoBlock 0) = .ok facts) ∧
      candidateChain.applyBlock additiveHashes (template.intoBlock 0) =
        .ok (post, template.stateRoot) := by
  have returns : (buildBlockTemplateWithPostState additiveHashes none
      (fun root => root.setWidth 64) candidateParent candidateChain [] [candidatePage] 9 0
      0).isOk = true := by
    decide +kernel
  obtain ⟨⟨template, post⟩, built⟩ := isOk_eq_true.mp returns
  have accepted := template_block_accepted freeRules (fun root => root.setWidth 64) []
    [candidatePage] 9 0 0 ⟨rfl, rfl, rfl, rfl⟩ ⟨by decide, by decide⟩ built 0 0
  exact ⟨template, post, built, accepted.1, accepted.2.2.2.2.2⟩

end Sample

end Jetsam
