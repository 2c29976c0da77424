import Jetsam.Consensus.TemplateSound

/-!
# The builder returns

Groups that apply on their own and share no slot apply together, in any order, so the builder fails
on an acceptable stream only when the allocator finds no slot for a system mint.
-/

namespace Jetsam

open Control SegmentedFriState List

variable {D : Type}

theorem permuteZone_lt (zoneId seed : BitVec 64) {numZones : Nat} (pos : 0 < numZones)
    (bound : numZones ≤ 2 ^ 16) :
    (permuteZone zoneId (BitVec.ofNat 64 numZones) seed).toNat < numZones := by
  have mask : (BitVec.ofNat 64 numZones - 1).toNat = numZones - 1 := by
    have value : (BitVec.ofNat 64 numZones).toNat = numZones := Nat.mod_eq_of_lt (by omega)
    rw [BitVec.toNat_sub_of_le (by rw [BitVec.le_def, value]; exact pos), value]
    rfl
  have masked : (permuteZone zoneId (BitVec.ofNat 64 numZones) seed).toNat ≤ numZones - 1 := by
    rw [permuteZone, BitVec.toNat_and, ← mask]
    exact Nat.and_le_right
  omega

theorem generateZoneSegmentHints_eq_some (allocCounter : Nat) {logSlots count : Nat}
    (depth : logSlots ≤ logSlotsMax) :
    ∃ segIds, generateZoneSegmentHints allocCounter logSlots count = some segIds ∧
      ∀ segId ∈ segIds, segId < 2 ^ (logSlots - 16) := by
  rw [generateZoneSegmentHints]
  split
  · exact ⟨[], rfl, by simp⟩
  · split
    · exact ⟨[0], rfl, by simp⟩
    · have zones : 2 ^ (logSlots - 16) ≤ 2 ^ 16 := by
        apply Nat.pow_le_pow_right (by decide)
        simp only [logSlotsMax] at depth
        omega
      have segment := fun zoneId => permuteZone_lt zoneId (zoneSeed logSlots)
        (Nat.two_pow_pos (logSlots - 16)) zones
      refine ⟨_, mapM_eq_some_map fun offset _ => if_pos ((segment _).trans_le zones), ?_⟩
      intro segId member
      obtain ⟨offset, -, rfl⟩ := mem_map.mp member
      exact segment _

/-- An empty slot of the domain whose segment is in memory or empty. -/
structure ChainState.FreeSlot (chain : ChainState D) (ledger : Ledger) (slot : BitVec 32) :
    Prop where
  inRange : slot.toNat < 2 ^ ledger.logSlots
  vacant : ledger.slots slot.toNat = .empty
  resident : chain.state.segIdOf slot.toNat ∉ chain.state.evicted

namespace ChainState

variable {hasher : StateHasher D} {chain after : ChainState D} {ledger : Ledger}

variable {segId position : Nat}

theorem Represents.toNat_slotAt (represents : chain.Represents hasher ledger)
    (depth : ledger.logSlots ≤ logSlotsMax) (segment : segId < chain.state.numSegments)
    (inside : position < chain.state.segmentSlotCount) :
    (chain.state.slotAt segId position).toNat = segId * chain.state.segmentSlotCount + position ∧
      segId * chain.state.segmentSlotCount + position < 2 ^ ledger.logSlots := by
  have whole : (segId + 1) * chain.state.segmentSlotCount ≤ 2 ^ ledger.logSlots := by
    rw [← represents.numSlots, ← numSegments_mul]
    exact Nat.mul_le_mul_right _ segment
  rw [Nat.succ_mul] at whole
  have small : 2 ^ ledger.logSlots ≤ 2 ^ 32 := Nat.pow_le_pow_right (by decide) depth
  refine ⟨Nat.mod_eq_of_lt ?_, ?_⟩ <;> omega

theorem Represents.freeSlot_slotAt (represents : chain.Represents hasher ledger)
    (depth : ledger.logSlots ≤ logSlotsMax) (segment : segId < chain.state.numSegments)
    (inside : position < chain.state.segmentSlotCount) (resident : segId ∉ chain.state.evicted)
    (vacant : ledger.slots (segId * chain.state.segmentSlotCount + position) = .empty) :
    chain.FreeSlot ledger (chain.state.slotAt segId position) := by
  obtain ⟨index, inRange⟩ := represents.toNat_slotAt depth segment inside
  constructor
  · rw [index]
    exact inRange
  · rw [index]
    exact vacant
  · rw [index, segIdOf_of_eq inside]
    exact resident

theorem mem_cyclicPositions {start count : Nat}
    (probed : position ∈ chain.state.cyclicPositions start count) :
    position < chain.state.segmentSlotCount := by
  obtain ⟨step, -, rfl⟩ := mem_map.mp probed
  exact Nat.mod_lt _ chain.state.segmentSlotCount_pos

section

variable (represents : chain.Represents hasher ledger)

include represents

variable {reserved : List (BitVec 32)} {slot : BitVec 32}

theorem Represents.freeSlot_of_hole (depth : ledger.logSlots ≤ logSlotsMax) {rng : BitVec 64}
    {segIds : List Nat} (inside : ∀ segId ∈ segIds, segId < chain.state.numSegments)
    (hole : slot ∈ chain.state.residentHoles reserved rng segIds) :
    chain.FreeSlot ledger slot := by
  induction segIds generalizing rng with
  | nil => cases hole
  | cons segId segIds ih =>
    obtain ⟨here, later⟩ := forall_mem_cons.mp inside
    rw [residentHoles] at hole
    split at hole
    · exact ih later hole
    · rename_i columns loaded
      rcases mem_append.mp hole with mem | mem
      · obtain ⟨position, found, rfl⟩ := mem_map.mp (mem_of_mem_filter mem)
        obtain ⟨drawn, empty⟩ := mem_filter.mp found
        have bound := mem_cyclicPositions drawn
        have holds := represents.coherent.holds
        apply represents.freeSlot_slotAt depth here bound
        · intro shelved
          rw [holds.apart segId shelved] at loaded
          cases loaded
        · rw [holds.resident segId columns loaded, getD_segmentOf _ _ bound] at empty
          exact SlotValue.isEmpty_iff.mp empty
      · exact ih later mem

theorem Represents.freeSlot_of_fresh (depth : ledger.logSlots ≤ logSlotsMax)
    (inside : segId < chain.state.numSegments)
    (fresh : chain.freshSlotIn reserved segId = some slot) : chain.FreeSlot ledger slot := by
  rw [freshSlotIn] at fresh
  split at fresh
  · cases fresh
  · rename_i usable
    rw [not_or] at usable
    obtain ⟨position, probed, rfl⟩ := mem_map.mp (mem_of_find?_eq_some fresh)
    have bound := mem_cyclicPositions probed
    obtain ⟨index, -⟩ := represents.toNat_slotAt depth inside bound
    have accepted := find?_some fresh
    have empty := (of_decide_eq_true accepted).2
    have resident : chain.state.segIdOf (chain.state.slotAt segId position).toNat ∉
        chain.state.evicted := by
      rw [index, segIdOf_of_eq bound]
      exact usable.2
    apply represents.freeSlot_slotAt depth inside bound usable.2
    rw [← index, ← represents.coherent.holds.slot_eq resident]
    exact SlotValue.isEmpty_iff.mp empty

/-- The allocator finds a free slot apart from the reserved ones, or reports that there is none. -/
theorem Represents.selectSystemMintSlot (depth : ledger.logSlots ≤ logSlotsMax) (seed : BitVec 64)
    (reserved : List (BitVec 32)) :
    chain.selectSystemMintSlot seed reserved = .error .noSlot ∨
      ∃ slot, chain.selectSystemMintSlot seed reserved = .ok slot ∧ chain.FreeSlot ledger slot := by
  obtain ⟨segIds, probes, inside⟩ := @generateZoneSegmentHints_eq_some chain.allocCounter
    chain.state.logSlots chain.state.numSegments (represents.logSlots ▸ depth)
  have segments : 2 ^ (chain.state.logSlots - 16) = chain.state.numSegments := by
    rw [numSegments, effectiveLogSegmentSize, logSegmentSize]
    congr 1
    omega
  rw [ChainState.selectSystemMintSlot]
  split
  · rename_i slot rest hints
    refine .inr ⟨slot, rfl, ?_⟩
    have hole : slot ∈ chain.state.emptySlotHintsInPopulatedSegments seed 1 reserved :=
      hints ▸ mem_cons_self
    rw [emptySlotHintsInPopulatedSegments] at hole
    split at hole
    · cases hole
    · apply represents.freeSlot_of_hole depth _ (mem_of_mem_take hole)
      intro segId mem
      exact mem_range.mp (mem_of_mem_filter (mem_rotate.mp mem))
  · rw [probes]
    dsimp only
    split
    · exact .inl rfl
    · rename_i slot found
      obtain ⟨segId, mem, fresh⟩ := exists_of_findSome?_eq_some found
      exact .inr ⟨slot, rfl,
        represents.freeSlot_of_fresh depth (segments ▸ inside segId mem) fresh⟩

theorem Represents.selectSystemSlots (depth : ledger.logSlots ≤ logSlotsMax) (seed : BitVec 64)
    (reserved : List (BitVec 32)) (payoutDue : Bool) :
    chain.selectSystemSlots seed reserved payoutDue = .error .noCoinbaseSlot ∨
      ∃ coinbase pair, chain.selectSystemSlots seed reserved payoutDue = .ok (coinbase, pair) ∧
        ∀ slot ∈ coinbase :: pair.toList.flatMap fun slots => [slots.1, slots.2],
          chain.FreeSlot ledger slot := by
  have pick := represents.selectSystemMintSlot depth seed
  rcases pick reserved with nothing | ⟨coinbase, chosen, coinbaseFree⟩
  · exact .inl (bind_of_error (congrArg (mapError _) nothing))
  have first (convert : _ → TemplateBuildError) := congrArg (mapError convert) chosen
  cases payoutDue with
  | false => exact .inr ⟨coinbase, none, bind_of_ok (first _), by simpa using coinbaseFree⟩
  | true =>
    rcases pick (coinbase :: reserved) with nothing | ⟨left, chosen, leftFree⟩
    · exact .inl ((bind_of_ok (first _)).trans (bind_of_error (congrArg (mapError _) nothing)))
    have second (convert : _ → TemplateBuildError) := congrArg (mapError convert) chosen
    rcases pick (left :: coinbase :: reserved) with nothing | ⟨right, chosen, rightFree⟩
    · exact .inl ((bind_of_ok (first _)).trans
        ((bind_of_ok (second _)).trans (bind_of_error (congrArg (mapError _) nothing))))
    · refine .inr ⟨coinbase, some (left, right), (bind_of_ok (first _)).trans
        ((bind_of_ok (second _)).trans (bind_of_ok (congrArg (mapError _) chosen))), ?_⟩
      simpa using ⟨coinbaseFree, leftFree, rightFree⟩

end

end ChainState

/-- The counters have room for a run of records. -/
structure Ledger.Room (ledger : Ledger) (records : List TxBody) : Prop where
  covered : groupLiveInputs records ≤ ledger.activeSlotCount
  active : ledger.activeSlotCount + groupLiveOutputs records < u64Bound
  alloc : ledger.allocCounter + groupLiveOutputs records < 2 ^ 63

variable {records : List TxBody}

theorem countersApply_of_room {active alloc : Nat} (covered : groupLiveInputs records ≤ active)
    (activeBound : active + groupLiveOutputs records < u64Bound)
    (allocBound : alloc + groupLiveOutputs records < 2 ^ 63) :
    CountersApply active alloc records := by
  induction records generalizing active alloc with
  | nil => trivial
  | cons body records ih =>
    have inputs : groupLiveInputs (body :: records) =
        body.liveInputCount + groupLiveInputs records := sum_cons
    have outputs : groupLiveOutputs (body :: records) =
        body.liveOutputCount + groupLiveOutputs records := sum_cons
    exact ⟨by omega, by omega, by omega, ih (by omega) (by omega) (by omega)⟩

/-- A body that fits the slots of a state, whose segments are in memory or empty. -/
structure ChainState.Ready (chain : ChainState D) (ledger : Ledger) (body : TxBody) : Prop where
  inRange : ∀ slot ∈ body.touched, slot.toNat < 2 ^ ledger.logSlots
  fits : Ledger.Matches ledger.slots body
  resident : chain.Resident body.touched

/-- User pages that are ready and share no slot. -/
structure ChainState.ReadyPages (chain : ChainState D) (ledger : Ledger) (pages : List TxBody) :
    Prop where
  user : ∀ page ∈ pages, page.isCoinbase = false
  ready : ∀ page ∈ pages, chain.Ready ledger page
  distinct : (pages.flatMap TxBody.touched).Nodup

variable {chosen : List TxBody} {groups : List PageGroup}

namespace ChainState

variable {hasher : StateHasher D} {chain after : ChainState D} {ledger : Ledger}
  {pages : List TxBody}

theorem ReadyPages.of_sublist (readyPages : chain.ReadyPages ledger pages) {reordered : List TxBody}
    (perm : reordered.Perm pages) (sublist : chosen.Sublist reordered) :
    chain.ReadyPages ledger chosen where
  user := fun page mem => readyPages.user page (perm.mem_iff.mp (sublist.subset mem))
  ready := fun page mem => readyPages.ready page (perm.mem_iff.mp (sublist.subset mem))
  distinct := ((perm.flatMap_right _).nodup_iff.mpr readyPages.distinct).sublist (sublist.flatMap _)

theorem applyPages_eq_ok (user : ∀ page ∈ pages, page.isCoinbase = false) (height : Nat) :
    chain.applyPages pages = .ok after ↔
      pages.foldlM (applyRecord height false) chain = .ok after := by
  constructor
  · apply foldlM_congr_ok
    intro page mem before next step
    rw [mapError_eq_ok, applyTxCheckedDeferredRoot_of_user (user page mem) none
      (some height)] at step
    exact bind_eq_ok.mpr ⟨(), rfl, mapError_eq_ok.mpr step⟩
  · apply foldlM_congr_ok
    intro page mem before next step
    obtain ⟨_, -, step⟩ := bind_eq_ok.mp step
    rw [mapError_eq_ok, applyTxCheckedDeferredRoot_of_user (user page mem) (some height)
      none] at step
    exact mapError_eq_ok.mpr step

theorem Represents.ready_of_applyPages (represents : chain.Represents hasher ledger)
    (user : ∀ page ∈ pages, page.isCoinbase = false)
    (distinct : (pages.flatMap TxBody.touched).Nodup)
    (applied : chain.applyPages pages = .ok after) : ∀ page ∈ pages, chain.Ready ledger page := by
  obtain ⟨-, applies, resident, -⟩ :=
    represents.foldlM_applyRecord ((applyPages_eq_ok user 0).mp applied)
  obtain ⟨inRange, fits, -⟩ := (Ledger.recordsApply_iff distinct).mp applies
  intro page mem
  have inside : ∀ slot ∈ page.touched, slot ∈ pages.flatMap TxBody.touched :=
    fun slot touched => mem_flatMap.mpr ⟨page, mem, touched⟩
  exact ⟨fun slot touched => inRange slot (inside slot touched), fits page mem,
    fun slot touched => resident slot (inside slot touched)⟩

theorem recordsApply_of_ready (height : Nat) (ready : ∀ body ∈ records, chain.Ready ledger body)
    (distinct : (records.flatMap TxBody.touched).Nodup) (room : ledger.Room records) :
    ledger.RecordsApply height records ∧ chain.Resident (records.flatMap TxBody.touched) := by
  refine ⟨(Ledger.recordsApply_iff distinct).mpr ⟨?_, fun body mem => (ready body mem).fits,
    countersApply_of_room room.covered room.active room.alloc⟩, ?_⟩
  · intro slot mem
    obtain ⟨body, inRecords, touched⟩ := mem_flatMap.mp mem
    exact (ready body inRecords).inRange slot touched
  · intro slot mem
    obtain ⟨body, inRecords, touched⟩ := mem_flatMap.mp mem
    exact (ready body inRecords).resident slot touched

theorem Represents.applyPages_isOk (represents : chain.Represents hasher ledger)
    (readyPages : chain.ReadyPages ledger pages) (room : ledger.Room pages) :
    ∃ after, chain.applyPages pages = .ok after := by
  obtain ⟨applies, resident⟩ := recordsApply_of_ready 0 readyPages.ready readyPages.distinct room
  have notSystem : false = true → ∀ body ∈ pages, validateBodySemanticsNoHash body = .ok () :=
    fun impossible => Bool.noConfusion impossible
  obtain ⟨after, run⟩ := represents.foldlM_applyRecord_isOk notSystem applies resident
  exact ⟨after, (applyPages_eq_ok readyPages.user 0).mpr run⟩

theorem Represents.readyPages_of_stream (represents : chain.Represents hasher ledger)
    (stream : StreamAccepted pages groups)
    (applies : ∀ group ∈ groups, ∃ after, chain.applyPages group.pages = .ok after) :
    chain.ReadyPages ledger pages where
  user := stream.user
  distinct := nodup_touched_iff.mpr ⟨stream.spentOnce, stream.mintedOnce, stream.apart⟩
  ready := by
    intro page mem
    rw [stream.split] at mem
    obtain ⟨group, inGroups, inPages⟩ := mem_flatMap.mp mem
    obtain ⟨after, applied⟩ := applies group inGroups
    have part : group.pages.Sublist pages := by
      rw [stream.split]
      simpa using (singleton_sublist.mpr inGroups).flatMap PageGroup.pages
    apply represents.ready_of_applyPages _ _ applied page inPages
    · exact fun other inGroup => stream.user other (part.subset inGroup)
    · exact (nodup_touched_iff.mpr ⟨stream.spentOnce, stream.mintedOnce, stream.apart⟩).sublist
        (part.flatMap _)

theorem Represents.expandForChild [DecidableEq D] (represents : chain.Represents hasher ledger)
    (small : ledger.logSlots + 1 ≤ logSegmentSize → chain.state.evicted = [])
    (shouldExpand : Bool) :
    ∃ expanded, chain.expandForChild hasher shouldExpand = .ok expanded ∧
      expanded.Represents hasher (ledger.atDepth (ledger.logSlots + shouldExpand.toNat)) ∧
      ∀ body, chain.Ready ledger body →
        expanded.Ready (ledger.atDepth (ledger.logSlots + shouldExpand.toNat)) body := by
  cases shouldExpand with
  | false => exact ⟨chain, rfl, represents, fun _ => id⟩
  | true =>
    obtain ⟨state, grown⟩ := @expand_isOk chain.state (by rw [represents.logSlots]; exact small)
    obtain ⟨expanded, step⟩ : ∃ expanded, chain.expandOne hasher = .ok expanded :=
      ⟨_, bind_eq_ok.mpr ⟨state, grown, rfl⟩⟩
    obtain ⟨next, evicted, -⟩ := represents.expandOne step
    refine ⟨expanded, mapError_eq_ok.mpr step, next, fun body ready => ⟨?_, ready.fits, ?_⟩⟩
    · intro slot touched
      exact (ready.inRange slot touched).trans
        (Nat.pow_lt_pow_right (by decide) (Nat.lt_succ_self _))
    · intro slot touched
      have resident := ready.resident slot touched
      rw [evicted]
      rcases lt_or_ge ledger.logSlots logSegmentSize with shallow | deep
      · rw [small shallow]
        exact not_mem_nil
      · rw [segIdOf, segmentSlotCount, effectiveLogSegmentSize, next.logSlots, Ledger.atDepth,
          min_eq_right (by simp only; omega)]
        rwa [segIdOf, segmentSlotCount, effectiveLogSegmentSize, represents.logSlots,
          min_eq_right deep] at resident

end ChainState

/-- The loop goes through when any choice of candidates, in order, applies to the state. -/
theorem foldlM_selectGroup_isOk {parent : BlockHeader D} {base : ChainState D}
    {resources : TemplateResourceSelection} {candidates : List CandidatePagedSpend}
    (applies : ∀ chosen, List.Sublist chosen candidates →
      ∃ after, base.applyPages (chosen.flatMap CandidatePagedSpend.pages) = .ok after) :
    ∃ final, candidates.foldlM (selectGroup parent) ⟨base, resources, []⟩ = .ok final ∧
      List.Sublist final.winners candidates := by
  let Invariant : List CandidatePagedSpend → TemplateSelection D → Prop := fun done selection =>
    List.Sublist selection.winners done ∧
      base.applyPages (selection.winners.flatMap CandidatePagedSpend.pages) = .ok selection.scratch
  have kept : ∀ done group rest, candidates = done ++ group :: rest → ∀ before,
      Invariant done before →
        ∃ after, selectGroup parent before group = .ok after ∧
          Invariant (done ++ [group]) after := by
    rintro done group rest split before ⟨chosen, applied⟩
    have skipped : Invariant (done ++ [group]) before :=
      ⟨chosen.trans (sublist_append_left _ _), applied⟩
    have taken : List.Sublist (before.winners ++ [group]) (done ++ [group]) :=
      chosen.append_right [group]
    have within : List.Sublist (done ++ [group]) candidates := by
      rw [split, append_cons done group rest]
      exact sublist_append_left _ _
    obtain ⟨after, run⟩ := applies _ (taken.trans within)
    rw [flatMap_append, flatMap_singleton] at run
    obtain ⟨middle, earlier, step⟩ := foldlM_append_eq_ok.mp run
    obtain rfl := Except.ok.inj (applied.symm.trans earlier)
    rw [selectGroup]
    split
    · exact ⟨before, rfl, skipped⟩
    · dsimp only
      split
      · exact ⟨before, rfl, skipped⟩
      · rename_i resources _ _
        refine ⟨⟨after, resources, before.winners ++ [group]⟩, bind_eq_ok.mpr ⟨after, step, rfl⟩,
          taken, ?_⟩
        rw [flatMap_append, flatMap_singleton]
        exact run
  have initial : Invariant [] ⟨base, resources, []⟩ := ⟨List.Sublist.refl [], rfl⟩
  obtain ⟨final, done, chosen, -⟩ := foldlM_prefix_isOk kept initial
  exact ⟨final, done, chosen⟩

theorem matches_of_vacant {slots : Nat → SlotValue} {body : TxBody}
    (noInputs : body.liveInputCount = 0)
    (vacant : ∀ slot ∈ body.touched, slots slot.toNat = .empty) : Ledger.Matches slots body := by
  rw [TxBody.liveInputCount_eq, length_eq_zero_iff] at noInputs
  obtain ⟨-, outputs⟩ := (ChainState.forall_touched fun index => slots index = .empty).mp vacant
  exact ⟨by simp [noInputs], outputs⟩

variable {chain : ChainState D} {ledger : Ledger}

variable {system : List TxBody}

theorem ready_of_freeSlots (noInputs : groupLiveInputs system = 0)
    (free : ∀ slot ∈ system.flatMap TxBody.touched, chain.FreeSlot ledger slot) :
    ∀ body ∈ system, chain.Ready ledger body := by
  intro body mem
  have freeHere : ∀ slot ∈ body.touched, chain.FreeSlot ledger slot :=
    fun slot touched => free slot (mem_flatMap.mpr ⟨body, mem, touched⟩)
  have none : body.liveInputCount = 0 :=
    sum_eq_zero_iff.mp noInputs _ (mem_map_of_mem mem)
  exact ⟨fun slot touched => (freeHere slot touched).inRange,
    matches_of_vacant none fun slot touched => (freeHere slot touched).vacant,
    fun slot touched => (freeHere slot touched).resident⟩

variable {pages : List TxBody}

/-- System records and pages that are ready apply in block order, and the root can be read. -/
theorem ChainState.Represents.replay_isOk {hasher : StateHasher D}
    (represents : chain.Represents hasher ledger) (height : Nat)
    (canonical : ∀ body ∈ system, validateBodySemanticsNoHash body = .ok ())
    (user : ∀ page ∈ pages, page.isCoinbase = false)
    (ready : ∀ body ∈ system ++ pages, chain.Ready ledger body)
    (distinct : ((system ++ pages).flatMap TxBody.touched).Nodup)
    (room : ledger.Room (system ++ pages)) :
    ∃ minted applied result,
      system.foldlM (fun chain body => mapError (fun error => TemplateBuildError.stateApplyError
        (.apply error)) (chain.applyTxCheckedDeferredRoot body (some height))) chain = .ok minted ∧
      minted.applyPages pages = .ok applied ∧ applied.tryStateRoot hasher = .ok result := by
  obtain ⟨applies, resident⟩ := recordsApply_of_ready height ready distinct room
  obtain ⟨systemApplies, pagesApply⟩ := Ledger.recordsApply_append.mp applies
  rw [flatMap_append] at resident
  obtain ⟨systemResident, pagesResident⟩ := forall_mem_append.mp resident
  have isSystem : true = true → ∀ body ∈ system, validateBodySemanticsNoHash body = .ok () :=
    fun _ => canonical
  obtain ⟨minted, mints⟩ := represents.foldlM_applyRecord_isOk isSystem systemApplies systemResident
  obtain ⟨-, -, -, mintedRep, rewritten⟩ := represents.foldlM_applyRecord mints
  have notSystem : false = true → ∀ body ∈ pages, validateBodySemanticsNoHash body = .ok () :=
    fun impossible => Bool.noConfusion impossible
  obtain ⟨applied, run⟩ := mintedRep.foldlM_applyRecord_isOk notSystem pagesApply
    ((Resident.congr rewritten.logSlots rewritten.evicted).mpr pagesResident)
  obtain ⟨-, -, -, appliedRep, -⟩ := mintedRep.foldlM_applyRecord run
  obtain ⟨result, read⟩ := appliedRep.coherent.tryStateRoot_isOk
  refine ⟨minted, applied, result, ?_, (applyPages_eq_ok user height).mpr run, read⟩
  refine foldlM_congr_ok (fun body _ before next step => ?_) mints
  obtain ⟨_, -, done⟩ := bind_eq_ok.mp step
  exact mapError_eq_ok.mpr (mapError_eq_ok.mp done)

variable {parent : BlockHeader D} {activation : Option Nat}

theorem replayTemplate_returns {hashes : ChainHashes D} (rootWord : D → BitVec 64)
    {childHeight : Nat} (newLogSlots timestamp : Nat) {allocation : DevelopmentAllocation}
    {scratch : ChainState D} (minerAddress : Address) (difficultyTarget : BitVec 256)
    {offered chosen : List PageGroup} {selection : TemplateSelection D}
    (allocated : developmentAllocationWith childHeight activation = .ok allocation)
    (represents : scratch.Represents hashes.state ledger) (depth : ledger.logSlots ≤ logSlotsMax)
    (selected : Selected hashes.tx parent offered allocation.payoutDue.toNat
      (1 + 2 * allocation.payoutDue.toNat) chosen selection)
    (readyPages : scratch.ReadyPages ledger (groupPages chosen))
    (covered : groupLiveInputs (groupPages chosen) ≤ ledger.activeSlotCount)
    (active : ledger.activeSlotCount + 3 + groupLiveOutputs (groupPages chosen) < u64Bound)
    (alloc : ledger.allocCounter + 3 + groupLiveOutputs (groupPages chosen) < 2 ^ 63) :
    (∃ built, replayTemplate hashes rootWord parent childHeight newLogSlots allocation scratch
        selection.winners minerAddress timestamp difficultyTarget = .ok built) ∨
      replayTemplate hashes rootWord parent childHeight newLogSlots allocation scratch
        selection.winners minerAddress timestamp difficultyTarget = .error .noCoinbaseSlot := by
  have reserved : (selection.winners.flatMap fun group => group.pages.flatMap TxBody.touched) =
      (groupPages chosen).flatMap TxBody.touched := by
    rw [selected.winners, ← flatMap_assoc, flatMap_candidates]
  rcases represents.selectSystemSlots depth
      (BitVec.ofNat 64 scratch.allocCounter ^^^ rootWord parent.stateRoot)
      (selection.winners.flatMap fun group => group.pages.flatMap TxBody.touched)
      allocation.payoutDue with nothing | ⟨coinbaseSlot, pair, slotsChosen, free⟩
  · exact .inr (bind_of_error nothing)
  · left
    obtain ⟨due, freshCoinbase, freshPair⟩ := ChainState.selectSystemSlots_eq_ok slotsChosen
    rw [reserved] at freshCoinbase freshPair
    generalize valueEq : BitVec.ofNat 64 (min (allocation.minerSubsidy +
      claimableFeeSum parent selection.winners) u64Max) = value
    obtain ⟨-, -, noInputs, mintCount, touched⟩ := system_template (hashes.blockId parent)
      coinbaseSlot value minerAddress allocated due
    generalize systemEq : TxBody.primaryCoinbase (hashes.blockId parent) coinbaseSlot value
      minerAddress :: (scheduledPayout (hashes.blockId parent) allocation.payoutEach pair).toList =
        system at noInputs mintCount touched
    have apart : ∀ slots ∈ pair, slots.1 ≠ slots.2 := by
      intro slots mem same
      exact (freshPair slots mem).2 (same ▸ mem_cons_self)
    have canonical : ∀ body ∈ system, validateBodySemanticsNoHash body = .ok () := by
      rw [← systemEq]
      exact (systemRecordsValid_template (hashes.blockId parent) coinbaseSlot value minerAddress
        allocated due apart chosen).canonical
    have distinct : ((system ++ groupPages chosen).flatMap TxBody.touched).Nodup := by
      rw [flatMap_append, touched]
      exact nodup_systemSlots (selected.slots ▸ selected.distinct) freshCoinbase freshPair
    have systemReady := ready_of_freeSlots noInputs (touched.symm ▸ free)
    have few : allocation.payoutDue.toNat ≤ 1 := Bool.toNat_le allocation.payoutDue
    have inputs := groupLiveInputs_append system (groupPages chosen)
    have outputs := groupLiveOutputs_append system (groupPages chosen)
    have room : ledger.Room (system ++ groupPages chosen) :=
      ⟨by omega, by omega, by omega⟩
    have ready := forall_mem_append.mpr ⟨systemReady, readyPages.ready⟩
    obtain ⟨minted, applied, ⟨rooted, root⟩, mints, run, read⟩ := represents.replay_isOk childHeight
      canonical readyPages.user ready distinct room
    have pages : selection.winners.flatMap CandidatePagedSpend.pages = groupPages chosen := by
      rw [selected.winners, flatMap_candidates]
    subst valueEq systemEq
    rw [← pages] at run
    exact bind_isOk slotsChosen (bind_isOk mints (bind_isOk run
      (bind_isOk (mapError_eq_ok.mpr read) ⟨_, rfl⟩)))

theorem childLogSlots_le (parentHeight : Nat) (counts : List Nat) {parentLogSlots : Nat}
    (bound : parentLogSlots ≤ logSlotsMax) :
    parentLogSlots + (decide (expectedChildLogSlots parentHeight parentLogSlots counts ≠
      parentLogSlots)).toNat ≤ logSlotsMax := by
  rw [← expectedChildLogSlots_eq_add parentHeight counts bound]
  rcases expectedChildLogSlots_cases parentHeight parentLogSlots counts with kept | grown
  · rw [kept]
    exact bound
  · rw [grown]
    exact min_le_right _ _

theorem liveCounts_of_sublist {allPages : List TxBody} (perm : allPages.Perm pages)
    (sublist : chosen.Sublist allPages) :
    groupLiveInputs chosen ≤ groupLiveInputs pages ∧
      groupLiveOutputs chosen ≤ groupLiveOutputs pages := by
  constructor
  · rw [groupLiveInputs, groupLiveInputs, ← (perm.map _).sum_eq]
    exact (sublist.map _).sum_le_sum (by simp)
  · rw [groupLiveOutputs, groupLiveOutputs, ← (perm.map _).sum_eq]
    exact (sublist.map _).sum_le_sum (by simp)

/-- Groups that apply on their own, share no slot and form an acceptable stream give a template,
unless the allocator finds no slot for a system mint. -/
theorem buildBlockTemplate_returns [DecidableEq D] (hashes : ChainHashes D)
    (rootWord : D → BitVec 64) (finalizedActiveCounts : List Nat) {candidateTxs : List TxBody}
    (minerAddress : Address) (timestamp : Nat) (difficultyTarget : BitVec 256)
    (valid : ValidActivation activation) (represents : chain.Represents hashes.state ledger)
    (sameDepth : parent.logSlots = ledger.logSlots) (depth : ledger.logSlots ≤ logSlotsMax)
    (small : ledger.logSlots + 1 ≤ logSegmentSize → chain.state.evicted = [])
    (height : parent.height + 1 < u64Bound) (stream : StreamAccepted candidateTxs groups)
    (applies : ∀ group ∈ groups, ∃ after, chain.applyPages group.pages = .ok after)
    (covered : groupLiveInputs candidateTxs ≤ ledger.activeSlotCount)
    (active : ledger.activeSlotCount + 3 + groupLiveOutputs candidateTxs < u64Bound)
    (alloc : ledger.allocCounter + 3 + groupLiveOutputs candidateTxs < 2 ^ 63) :
    (∃ template, buildBlockTemplate hashes activation rootWord parent chain finalizedActiveCounts
        candidateTxs minerAddress timestamp difficultyTarget = .ok template) ∨
      buildBlockTemplate hashes activation rootWord parent chain finalizedActiveCounts
        candidateTxs minerAddress timestamp difficultyTarget = .error .noCoinbaseSlot := by
  have readyPages := represents.readyPages_of_stream stream applies
  -- The candidates in the order of the loop carry the pages of the stream.
  generalize sortedDef : (splitCandidates (streamFacts hashes.tx .v1 candidateTxs groups).groups
    candidateTxs).insertionSort CandidatePagedSpend.Precedes = sorted
  have candidates : sorted.Perm (groups.map (PageGroup.candidate hashes.tx)) := by
    rw [← sortedDef, ← splitCandidates_groupFacts hashes.tx 0 groups, ← stream.split]
    exact perm_insertionSort _ _
  have pages : (sorted.flatMap CandidatePagedSpend.pages).Perm candidateTxs := by
    apply (candidates.flatMap_right _).trans
    rw [flatMap_candidates, stream.split]
    exact .refl _
  have allocated := developmentAllocationWith_eq valid (parent.height + 1)
  generalize developmentScheduleAt activation (parent.height + 1) = allocation at allocated
  generalize shouldExpandDef : decide (expectedChildLogSlots parent.height parent.logSlots
    finalizedActiveCounts ≠ parent.logSlots) = shouldExpand
  have childDepth : ledger.logSlots + shouldExpand.toNat ≤ logSlotsMax := by
    rw [← shouldExpandDef, ← sameDepth]
    exact childLogSlots_le parent.height finalizedActiveCounts (sameDepth ▸ depth)
  obtain ⟨scratch, grown, expandedRep, keepsReady⟩ := represents.expandForChild small shouldExpand
  have expandedReady : scratch.ReadyPages (ledger.atDepth (ledger.logSlots + shouldExpand.toNat))
      candidateTxs :=
    ⟨readyPages.user, fun page mem => keepsReady page (readyPages.ready page mem),
      readyPages.distinct⟩
  -- The loop runs with the identifiers of the system mints reserved.
  have few : allocation.payoutDue.toNat ≤ 1 := Bool.toNat_le allocation.payoutDue
  generalize outputsDef : 1 + 2 * allocation.payoutDue.toNat = outputs at few
  let base : ChainState D := { scratch with allocCounter := scratch.allocCounter + outputs }
  let baseLedger : Ledger :=
    { ledger.atDepth (ledger.logSlots + shouldExpand.toNat) with
      allocCounter := ledger.allocCounter + outputs }
  have baseRep : base.Represents hashes.state baseLedger :=
    ⟨expandedRep.coherent.of_same rfl rfl, expandedRep.synced, expandedRep.logSlots,
      expandedRep.active, congrArg (· + outputs) expandedRep.alloc, expandedRep.supply⟩
  have baseReady : base.ReadyPages baseLedger candidateTxs :=
    ⟨expandedReady.user, fun page mem =>
      let ready := expandedReady.ready page mem
      ⟨ready.inRange, ready.fits, ready.resident⟩, expandedReady.distinct⟩
  have reservable : okOr (checkedAdd u64Bound scratch.allocCounter outputs)
      (TemplateBuildError.stateApplyError
        (.text "alloc_counter exhausted while reserving system mint creation IDs")) =
      .ok (scratch.allocCounter + outputs) := by
    have same : scratch.allocCounter = ledger.allocCounter := expandedRep.alloc
    refine okOr_eq_ok.mpr (checkedAdd_eq_some.mpr ⟨?_, rfl⟩)
    rw [same, u64Bound]
    omega
  have choices : ∀ chosen, List.Sublist chosen sorted →
      ∃ after, base.applyPages (chosen.flatMap CandidatePagedSpend.pages) = .ok after := by
    intro chosen sublist
    have part := sublist.flatMap CandidatePagedSpend.pages
    obtain ⟨inputs, minted⟩ := liveCounts_of_sublist pages part
    exact baseRep.applyPages_isOk (baseReady.of_sublist pages part)
      ⟨inputs.trans covered, by simp only [baseLedger, Ledger.atDepth]; omega,
        by simp only [baseLedger]; omega⟩
  obtain ⟨selection, selecting, winners⟩ := @foldlM_selectGroup_isOk _ parent base
    (.withSystemOutputs allocation.payoutDue.toNat (1 + 2 * allocation.payoutDue.toNat)) sorted
    choices
  have known : ∀ candidate ∈ sorted, ∃ group ∈ groups, candidate = group.candidate hashes.tx := by
    intro candidate mem
    obtain ⟨group, inGroups, rfl⟩ := mem_map.mp (candidates.subset mem)
    exact ⟨group, inGroups, rfl⟩
  obtain ⟨chosen, selected⟩ := selected_of_foldlM known selecting
  have part : (groupPages chosen).Sublist (sorted.flatMap CandidatePagedSpend.pages) := by
    rw [← flatMap_candidates hashes.tx, ← selected.winners]
    exact winners.flatMap _
  obtain ⟨inputs, minted⟩ := liveCounts_of_sublist pages part
  have replayed := replayTemplate_returns rootWord
    (expectedChildLogSlots parent.height parent.logSlots finalizedActiveCounts) timestamp
    minerAddress difficultyTarget allocated expandedRep childDepth selected
    (expandedReady.of_sublist pages part) (inputs.trans covered)
    (by simp only [Ledger.atDepth]; omega) (by simp only [Ledger.atDepth]; omega)
  have accepted : validatePagedSpendTransactionStreamIn hashes.tx candidateTxs .v1 =
      .ok (streamFacts hashes.tx .v1 candidateTxs groups) :=
    validatePagedSpendTransactionStreamIn_eq_ok.mpr ⟨groups, stream, rfl⟩
  subst sortedDef shouldExpandDef outputsDef
  have built : buildBlockTemplateWithPostState hashes activation rootWord parent chain
      finalizedActiveCounts candidateTxs minerAddress timestamp difficultyTarget =
      replayTemplate hashes rootWord parent (parent.height + 1)
        (expectedChildLogSlots parent.height parent.logSlots finalizedActiveCounts) allocation
        scratch selection.winners minerAddress timestamp difficultyTarget :=
    (bind_of_ok (okOr_eq_ok.mpr (checkedAdd_eq_some.mpr ⟨height, rfl⟩))).trans
      ((bind_of_ok (mapError_eq_ok.mpr accepted)).trans
        ((bind_of_ok (mapError_eq_ok.mpr allocated)).trans
          ((bind_of_ok grown).trans ((bind_of_ok reservable).trans (bind_of_ok selecting)))))
  rcases replayed with ⟨result, done⟩ | refused
  · exact .inl (bind_isOk (built.trans done) ⟨result.1, rfl⟩)
  · exact .inr (bind_of_error (built.trans refused))

end Jetsam
