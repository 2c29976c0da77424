import Jetsam.Block.Accounting

/-!
# When the block checks pass

What the native checks of a block establish, and conditions under which each of them passes.
-/

namespace Jetsam

open Control List

variable {D : Type}

variable {body : TxBody}

theorem TxBody.liveOutputs_primary (primary : body.isPrimaryCoinbaseShape = true) :
    body.liveOutputs = [(0, body.outputs 0)] := by
  rw [isPrimaryCoinbaseShape, Bool.and_eq_true, beq_iff_eq] at primary
  have live : ((List.finRange 2).filter fun index : Fin 2 => body.outputIsLive index) = [0] := by
    simp only [outputIsLive_fin, primary.2]
    decide
  rw [liveOutputs, live]
  rfl

theorem TxBody.liveOutputs_development (development : body.isDevelopmentPayoutShape = true) :
    body.liveOutputs = [(0, body.outputs 0), (1, body.outputs 1)] := by
  rw [isDevelopmentPayoutShape, Bool.and_eq_true, beq_iff_eq] at development
  have live : ((List.finRange 2).filter fun index : Fin 2 => body.outputIsLive index) =
      [0, 1] := by
    simp only [outputIsLive_fin, development.2]
    decide
  rw [liveOutputs, live]
  rfl

variable {parent : BlockHeader D} {hasher : TxHasher} {groups : List PageGroup}

variable {start claimed : Nat}

theorem foldlM_chargeGroup {total : Nat}
    (done : (groupFacts hasher start groups).foldlM (chargeGroup parent) claimed = .ok total) :
    total ≤ claimed + groupFees groups := by
  induction groups generalizing start claimed with
  | nil =>
    obtain rfl := foldlM_nil_eq_ok.mp done
    exact Nat.le_add_right _ _
  | cons group groups ih =>
    obtain ⟨middle, step, rest⟩ := foldlM_cons_eq_ok.mp done
    simp only [chargeGroup, bind_eq_ok, require_eq_ok, exists_const, okOr_eq_ok,
      checkedAdd_eq_some] at step
    obtain ⟨-, -, rfl⟩ := step
    have later := ih rest
    simp only [groupFees, map_cons, sum_cons, pagedSpendFacts] at later ⊢
    omega

/-- What the state-free checks of a block establish about its issuance and its header. -/
structure ChecksPassed (rules : ConsensusRules D) (block : Block D) (parent : BlockHeader D)
    (finalizedActiveCounts : List Nat) (licenseDividend : Nat) (layout : BlockLayout) : Prop where
  height : block.header.height = parent.height + 1
  logSlots : block.header.logSlots =
    expectedChildLogSlots parent.height parent.logSlots finalizedActiveCounts
  depth : 1 ≤ block.header.logSlots ∧ block.header.logSlots ≤ 32
  activation : ValidActivation rules.v1_5Activation
  issued : layout.systemSum ≤ minerSubsidyWith block.header.height rules.v1_5Activation +
    2 * developmentPayoutEach block.header.height rules.v1_5Activation +
    groupFees layout.groups + licenseDividend

variable {allocation : DevelopmentAllocation}

theorem validActivation_of_allocation {height : Nat} {activation : Option Nat}
    (accepted : developmentAllocationWith height activation = .ok allocation) :
    ValidActivation activation := by
  simp only [developmentAllocationWith] at accepted
  split at accepted
  · cases accepted
  · next valid =>
      intro opened known
      obtain rfl := Option.mem_def.mp known
      simpa using valid

variable {done : Unit}

theorem validateDevelopmentPayout_eq_ok {anchor : Digest} {payout : Option TxBody}
    {due : Option Nat} {present : Bool}
    (checked : validateDevelopmentPayout anchor payout due present = .ok done)
    (shape : present = true → ∃ body ∈ payout, body.isDevelopmentPayoutShape = true) :
    present = due.isSome ∧
      (present = true → ∀ body ∈ payout, body.outputSum = 2 * due.getD 0) := by
  cases due with
  | none =>
    cases present with
    | false => simp
    | true => cases checked
  | some amount =>
    cases present with
    | false => cases checked
    | true =>
      obtain ⟨body, known, development⟩ := shape rfl
      obtain rfl := Option.mem_def.mp known
      simp only [validateDevelopmentPayout, bind_eq_ok, okOr_eq_ok, Option.some.injEq,
        mapError_eq_ok, require_eq_ok, exists_const] at checked
      obtain ⟨_, rfl, -, -, -, -, -, first, second⟩ := checked
      simp [TxBody.outputSum, TxBody.liveOutputs_development development, first, second]
      omega

variable {rules : ConsensusRules D} {block : Block D} {layout : BlockLayout}

variable {hashes : ChainHashes D} {licenseDividend : Nat}

theorem validateBlockChecksInner_eq_ok {checkPow : Bool} {finalizedActiveCounts : List Nat}
    (records : block.transactions = layout.records) (accepted : layout.Accepted)
    (passed : validateBlockChecksInner hashes rules checkPow block parent finalizedActiveCounts
      licenseDividend = .ok done) :
    ChecksPassed rules block parent finalizedActiveCounts licenseDividend layout := by
  have stream : validateBlockPageStream hashes.tx block.transactions =
      .ok (layout.facts hashes.tx .v1) :=
    validateBlockPageStreamIn_eq_ok.mpr ⟨layout, records, accepted, rfl⟩
  have first : block.transactions.head? = some layout.coinbase := by
    rw [records]
    rfl
  have second : (block.transactions.drop 1).head? =
      (layout.payout.toList ++ layout.pages).head? := by
    rw [records]
    rfl
  simp only [validateBlockChecksInner, validateBlockResourcePreflight, validateHeaderInner,
    validateMandatoryCoinbase, validateFeePolicyAndClaimableFeeSum, validateCoinbaseCeiling, first,
    second, stream, bind_eq_ok, require_eq_ok, mapError_eq_ok, okOr_eq_ok, exists_const,
    Except.ok.injEq, Option.some.injEq, exists_eq_left', pure_eq_ok] at passed
  obtain ⟨_, ⟨-, _, -, depth, -⟩, ⟨_, -, -, height, -, -, -, logSlots⟩, _,
    ⟨_, -, -, -, allocation, allocated, payout⟩, _, -, _, -, claimable, charged, ceiling⟩ := passed
  have activation := validActivation_of_allocation allocated
  obtain ⟨-, payoutEach, -, -⟩ := developmentAllocationWith_eq_ok allocated
  have fees := foldlM_chargeGroup charged
  have value : layout.coinbase.outputSum ≤
      minerSubsidyWith block.header.height rules.v1_5Activation + claimable + licenseDividend := by
    have bound := ceiling (TxBody.isCoinbase_of_primary accepted.primary)
    simpa [TxBody.outputSum, TxBody.liveOutputs_primary accepted.primary] using bound
  refine ⟨height, logSlots, depth, activation, ?_⟩
  have payoutSum : (layout.payout.toList.map TxBody.outputSum).sum =
      2 * developmentPayoutEach block.header.height rules.v1_5Activation := by
    cases known : layout.payout with
    | none =>
      simp only [BlockLayout.facts, known, Option.isSome_none] at payout
      obtain ⟨present, -⟩ := validateDevelopmentPayout_eq_ok payout (by simp)
      have none : allocation.payoutEach = none := by
        cases each : allocation.payoutEach with
        | none => rfl
        | some amount => simp [each] at present
      simp [← payoutEach, none]
    | some body =>
      simp only [BlockLayout.facts, known, Option.isSome_some, Option.toList_some,
        singleton_append, head?_cons] at payout
      obtain ⟨-, amounts⟩ := validateDevelopmentPayout_eq_ok payout fun _ =>
        ⟨body, rfl, accepted.development body known⟩
      rw [← payoutEach]
      simpa using amounts rfl body rfl
  simp only [BlockLayout.systemSum, BlockLayout.system, map_cons, sum_cons, payoutSum]
  omega

def touchedSegments (records : List TxBody) : List Nat :=
  (records.flatMap TxBody.touched).map fun slot : BitVec 32 => slot.toNat / 2 ^ logSegmentSize

theorem scanSegments_isOk {logSlots : Nat} {seen : List Nat} {records : List TxBody}
    (inRange : ∀ slot ∈ records.flatMap TxBody.touched, slot.toNat < 2 ^ logSlots)
    (few : (seen ++ touchedSegments records).toFinset.card ≤ blockMaxDistinctSegments) :
    ∃ segments, scanSegments logSlots seen records = .ok segments := by
  induction records generalizing seen with
  | nil => exact ⟨seen, rfl⟩
  | cons body rest ih =>
    rw [flatMap_cons, forall_mem_append, TxBody.touched, forall_mem_append]
      at inRange
    obtain ⟨⟨inputs, outputs⟩, restInRange⟩ := inRange
    have all : (seen ++ touchedSegments (body :: rest)).toFinset =
        ((seen ++ body.touched.map fun slot : BitVec 32 =>
          slot.toNat / 2 ^ logSegmentSize).dedup ++ touchedSegments rest).toFinset := by
      ext segId
      simp only [touchedSegments, flatMap_cons, map_append, mem_toFinset,
        mem_append, mem_dedup, or_assoc]
    apply require_bind_isOk inputs
    apply require_bind_isOk outputs
    apply require_bind_isOk
    · rw [← card_toFinset]
      refine (Finset.card_le_card ?_).trans few
      rw [all]
      intro segId
      simp only [mem_toFinset, mem_append, mem_dedup]
      exact Or.inl
    · exact ih restInRange (all ▸ few)

structure ResourcesBounded (records : List TxBody) : Prop where
  segments : (touchedSegments records).toFinset.card ≤ blockMaxDistinctSegments
  inputs : groupLiveInputs records ≤ blockMaxLiveInputs
  outputs : groupLiveOutputs records ≤ blockMaxUserOutputs + 1
  actions : groupLiveInputs records + groupLiveOutputs records ≤ blockMaxActions

theorem validateBlockResourcePreflight_isOk {hasher : TxHasher} {rules : ClientObjectRules}
    {block : Block D} {layout : BlockLayout} (records : block.transactions = layout.records)
    (accepted : layout.Accepted) (objects : validateObjectSection rules block = .ok ())
    (depth : 1 ≤ block.header.logSlots ∧ block.header.logSlots ≤ 32)
    (inRange : ∀ slot ∈ block.transactions.flatMap TxBody.touched,
      slot.toNat < 2 ^ block.header.logSlots)
    (bounded : ResourcesBounded block.transactions) :
    ∃ facts, validateBlockResourcePreflight hasher rules block = .ok facts := by
  have stream : validateBlockPageStream hasher block.transactions =
      .ok (layout.facts hasher .v1) :=
    validateBlockPageStreamIn_eq_ok.mpr ⟨layout, records, accepted, rfl⟩
  obtain ⟨segments, scanned⟩ := @scanSegments_isOk block.header.logSlots []
    block.transactions inRange (by simpa using bounded.segments)
  apply require_bind_isOk (records ▸ accepted.length_records)
  apply bind_isOk objects
  apply require_bind_isOk depth
  apply bind_isOk (mapError_eq_ok.mpr stream)
  apply require_bind_isOk accepted.stream.pageLimit
  apply bind_isOk scanned
  apply require_bind_isOk bounded.inputs
  apply require_bind_isOk bounded.outputs
  apply require_bind_isOk bounded.actions
  exact ⟨_, rfl⟩

theorem TxBody.liveInputs_mint (bitmap : body.validityBitmap = outputBitmapBit 0 ∨
      body.validityBitmap = outputBitmapBit 0 ||| outputBitmapBit 1) : body.liveInputs = [] := by
  rw [← length_eq_zero_iff, ← liveInputCount_eq, liveInputCount]
  rcases bitmap with bitmap | bitmap <;> rw [bitmap] <;> decide

theorem validateBodySemanticsNoHash_mint (bitmap : body.validityBitmap = outputBitmapBit 0 ∨
      body.validityBitmap = outputBitmapBit 0 ||| outputBitmapBit 1)
    (coinbase : body.isCoinbase = true) (unsigned : body.inputOwner = 0 ∧ body.fee = 0)
    (inputs : ∀ index, body.inputs index = .dummy)
    (first : body.outputIsLive (0 : Fin 2) = false → body.outputs 0 = .dummy)
    (second : body.outputIsLive (1 : Fin 2) = false → body.outputs 1 = .dummy)
    (distinct : body.outputSlots.Nodup) : validateBodySemanticsNoHash body = .ok () := by
  have high : body.validityBitmap &&& ~~~txValidityMask = 0 := by
    rcases bitmap with bitmap | bitmap <;> rw [bitmap] <;> decide
  have deadInputs : body.dirtyDeadInput = none :=
    TxBody.dirtyDeadInput_eq_none.mpr fun index _ => inputs index
  have deadOutputs : body.dirtyDeadOutput = none :=
    TxBody.dirtyDeadOutput_eq_none.mpr (Fin.forall_fin_two.mpr ⟨first, second⟩)
  have unique : uniqueSlots body = .ok () := by
    rw [uniqueSlots_eq_ok, TxBody.inputSlots, TxBody.liveInputs_mint bitmap]
    simp [distinct]
  simp only [validateBodySemanticsNoHash, coinbase, if_true, bind_eq_ok, require_eq_ok,
    requireNone_eq_ok, exists_const]
  exact ⟨high, deadInputs, deadOutputs, unsigned.1, ⟨bitmap, unsigned.2⟩, unique⟩

def TxBody.primaryCoinbase (anchor : Digest) (slot : BitVec 32) (amount : BitVec 64)
    (miner : Address) : TxBody where
  epochAnchor := anchor
  fee := 0
  inputOwner := 0
  inputs := fun _ => .dummy
  outputs := ![⟨slot, amount, miner⟩, .dummy]
  validityBitmap := 1 <<< txInputs
  isCoinbase := true

section PrimaryCoinbase

variable (anchor : Digest) (slot : BitVec 32) (amount : BitVec 64) (miner : Address)

theorem TxBody.isPrimaryCoinbaseShape_primaryCoinbase :
    (primaryCoinbase anchor slot amount miner).isPrimaryCoinbaseShape = true := by
  simp only [isPrimaryCoinbaseShape, primaryCoinbase]
  decide

theorem TxBody.liveInputs_primaryCoinbase :
    (primaryCoinbase anchor slot amount miner).liveInputs = [] :=
  liveInputs_mint (Or.inl (show (1 <<< txInputs : BitVec 16) = outputBitmapBit 0 by decide))

theorem TxBody.liveOutputs_primaryCoinbase :
    (primaryCoinbase anchor slot amount miner).liveOutputs = [(0, ⟨slot, amount, miner⟩)] :=
  liveOutputs_primary (isPrimaryCoinbaseShape_primaryCoinbase anchor slot amount miner)

theorem TxBody.touched_primaryCoinbase :
    (primaryCoinbase anchor slot amount miner).touched = [slot] := by
  rw [touched, inputSlots, outputSlots, liveInputs_primaryCoinbase, liveOutputs_primaryCoinbase]
  rfl

theorem validateBodySemanticsNoHash_primaryCoinbase :
    validateBodySemanticsNoHash (.primaryCoinbase anchor slot amount miner) = .ok () := by
  apply validateBodySemanticsNoHash_mint
  · exact Or.inl (show (1 <<< txInputs : BitVec 16) = outputBitmapBit 0 by decide)
  · rfl
  · exact ⟨rfl, rfl⟩
  · exact fun _ => rfl
  · rintro dead
    rw [TxBody.outputIsLive_fin] at dead
    exact absurd dead (show ¬(1 <<< txInputs : BitVec 16).getLsbD 8 = false by decide)
  · exact fun _ => rfl
  · rw [TxBody.outputSlots, TxBody.liveOutputs_primaryCoinbase]
    exact nodup_singleton _

end PrimaryCoinbase

/-- The system records are the ones the parent and the allocation ask for. -/
structure SystemRecordsValid (anchor : Digest) (miner : Address) (payoutEach : Option Nat)
    (layout : BlockLayout) : Prop where
  canonical : ∀ body ∈ layout.system, validateBodySemanticsNoHash body = .ok ()
  anchored : ∀ body ∈ layout.system, body.epochAnchor = anchor
  owner : (layout.coinbase.outputs 0).owner = miner
  scheduled : layout.payout.isSome = payoutEach.isSome
  payees : ∀ body ∈ layout.payout, ∀ amount ∈ payoutEach,
    (body.outputs 0).owner = networkFundAddress ∧ (body.outputs 1).owner = labFundAddress ∧
      (body.outputs 0).amount.toNat = amount ∧ (body.outputs 1).amount.toNat = amount

theorem systemRecordsValid_primaryCoinbase (anchor : Digest) (slot : BitVec 32) (amount : BitVec 64)
    (miner : Address) (groups : List PageGroup) :
    SystemRecordsValid anchor miner none
      ⟨.primaryCoinbase anchor slot amount miner, none, groups⟩ where
  canonical := forall_mem_singleton.mpr
    (validateBodySemanticsNoHash_primaryCoinbase anchor slot amount miner)
  anchored := forall_mem_singleton.mpr rfl
  owner := rfl
  scheduled := rfl
  payees := by simp

theorem validateMandatoryCoinbase_isOk (records : block.transactions = layout.records)
    (accepted : layout.Accepted)
    (allocated : developmentAllocationWith block.header.height rules.v1_5Activation =
      .ok allocation)
    (valid : SystemRecordsValid (hashes.blockId parent) block.header.minerAddress
      allocation.payoutEach layout) :
    validateMandatoryCoinbase hashes rules block parent = .ok () := by
  have stream : validateBlockPageStream hashes.tx block.transactions =
      .ok (layout.facts hashes.tx .v1) :=
    validateBlockPageStreamIn_eq_ok.mpr ⟨layout, records, accepted, rfl⟩
  have first : block.transactions.head? = some layout.coinbase := by
    rw [records]
    rfl
  have inSystem : layout.coinbase ∈ layout.system := mem_cons_self
  simp only [validateMandatoryCoinbase, bind_eq_ok, mapError_eq_ok, okOr_eq_ok, require_eq_ok,
    exists_const, stream, first, Except.ok.injEq, Option.some.injEq, exists_eq_left', allocated,
    valid.canonical _ inSystem, valid.anchored _ inSystem, valid.owner, true_and]
  have scheduled := valid.scheduled
  cases due : allocation.payoutEach with
  | none =>
    rw [due] at scheduled
    rw [BlockLayout.facts, scheduled]
    rfl
  | some amount =>
    rw [due] at scheduled
    obtain ⟨body, payout⟩ := Option.isSome_iff_exists.mp scheduled
    have second : (block.transactions.drop 1).head? = some body := by
      rw [records, BlockLayout.records, BlockLayout.system, payout]
      rfl
    have mem : body ∈ layout.system := by simp [BlockLayout.system, payout]
    have isPayout : body ∈ layout.payout := payout
    rw [second, BlockLayout.facts, scheduled]
    simp only [validateDevelopmentPayout, Option.isSome_some, bind_eq_ok, okOr_eq_ok,
      Option.some.injEq, exists_eq_left', mapError_eq_ok, require_eq_ok, exists_const,
      valid.canonical _ mem, valid.anchored _ mem, true_and]
    exact valid.payees body isPayout amount due

/-- Fees of a list of groups that the miner may claim. -/
def claimableFees (parent : BlockHeader D) (groups : List PageGroup) : Nat :=
  (groups.map fun group => claimableFee group.1.fee.toNat (groupLiveInputs group.pages)
    (groupLiveOutputs group.pages) parent.activeSlotCount parent.logSlots).sum

/-- Each group pays at least what the fee policy asks for. -/
def FeesPaid (parent : BlockHeader D) (groups : List PageGroup) : Prop :=
  ∀ group ∈ groups, (feeBreakdown (groupLiveInputs group.pages) (groupLiveOutputs group.pages)
    parent.activeSlotCount parent.logSlots).requiredTotal ≤ group.1.fee.toNat

theorem groupFees_lt (few : groups.length ≤ blockMaxUserPages) :
    groupFees groups < u128Bound := by
  have each : groupFees groups ≤ groups.length * 2 ^ 64 := by
    have total := sum_le_card_nsmul (groups.map fun group : PageGroup => group.1.fee.toNat)
      (2 ^ 64) (by
        intro fee mem
        obtain ⟨group, -, rfl⟩ := mem_map.mp mem
        exact group.1.fee.isLt.le)
    simpa [groupFees] using total
  simp only [blockMaxUserPages, blockMaxTxs] at few
  simp only [u128Bound]
  omega

theorem foldlM_chargeGroup_isOk (paid : FeesPaid parent groups)
    (room : claimed + groupFees groups < u128Bound) :
    (groupFacts hasher start groups).foldlM (chargeGroup parent) claimed =
      .ok (claimed + claimableFees parent groups) := by
  induction groups generalizing start claimed with
  | nil => rfl
  | cons group groups ih =>
    obtain ⟨first, rest⟩ := forall_mem_cons.mp paid
    have claims := claimableFee_le group.1.fee.toNat (groupLiveInputs group.pages)
      (groupLiveOutputs group.pages) parent.activeSlotCount parent.logSlots
    simp only [groupFees, map_cons, sum_cons] at room ih
    refine foldlM_cons_eq_ok.mpr ⟨claimed + claimableFee group.1.fee.toNat
      (groupLiveInputs group.pages) (groupLiveOutputs group.pages) parent.activeSlotCount
      parent.logSlots, ?_, ?_⟩
    · have fits : claimed + claimableFee group.1.fee.toNat (groupLiveInputs group.pages)
          (groupLiveOutputs group.pages) parent.activeSlotCount parent.logSlots < u128Bound := by
        omega
      refine bind_eq_ok.mpr ⟨(), require_eq_ok.mpr first, okOr_eq_ok.mpr ?_⟩
      exact checkedAdd_eq_some.mpr ⟨fits, rfl⟩
    · rw [ih rest (by omega), claimableFees, claimableFees, map_cons, sum_cons, add_assoc]

theorem validateFeePolicyAndClaimableFeeSum_isOk (records : block.transactions = layout.records)
    (accepted : layout.Accepted) (paid : FeesPaid parent layout.groups) :
    validateFeePolicyAndClaimableFeeSum hasher block parent =
      .ok (claimableFees parent layout.groups) := by
  have stream : validateBlockPageStream hasher block.transactions =
      .ok (layout.facts hasher .v1) :=
    validateBlockPageStreamIn_eq_ok.mpr ⟨layout, records, accepted, rfl⟩
  have few : layout.groups.length ≤ blockMaxUserPages :=
    (length_le_flatMap_pages layout.groups).trans accepted.stream.pageLimit
  have room : 0 + groupFees layout.groups < u128Bound := by
    rw [zero_add]
    exact groupFees_lt few
  refine bind_eq_ok.mpr ⟨_, mapError_eq_ok.mpr stream, ?_⟩
  rw [BlockLayout.facts, foldlM_chargeGroup_isOk paid room, zero_add]

theorem validateCoinbaseCeiling_isOk {claimableFeeSum : Nat}
    (records : block.transactions = layout.records) (accepted : layout.Accepted)
    (ceiling : (layout.coinbase.outputs 0).amount.toNat ≤
      minerSubsidyWith block.header.height rules.v1_5Activation + claimableFeeSum +
        licenseDividend) :
    validateCoinbaseCeiling rules block claimableFeeSum licenseDividend = .ok () := by
  have first : block.transactions.head? = some layout.coinbase := by
    rw [records]
    rfl
  simp only [validateCoinbaseCeiling, first, require_eq_ok]
  intro _
  rw [TxBody.liveOutputs_primary accepted.primary]
  exact ceiling

theorem validateBlockChecksInner_isOk {hashes : ChainHashes D} {rules : ConsensusRules D}
    {checkPow : Bool} {block : Block D} {parent : BlockHeader D} {finalizedActiveCounts : List Nat}
    {licenseDividend : Nat} {layout : BlockLayout} {allocation : DevelopmentAllocation}
    (records : block.transactions = layout.records) (accepted : layout.Accepted)
    (objects : validateObjectSection rules.client block = .ok ())
    (header : validateHeaderInner hashes rules checkPow block.header parent
      finalizedActiveCounts = .ok ())
    (depth : 1 ≤ block.header.logSlots ∧ block.header.logSlots ≤ 32)
    (inRange : ∀ slot ∈ block.transactions.flatMap TxBody.touched,
      slot.toNat < 2 ^ block.header.logSlots)
    (bounded : ResourcesBounded block.transactions)
    (distinct : (block.transactions.flatMap TxBody.touched).Nodup)
    (allocated : developmentAllocationWith block.header.height rules.v1_5Activation =
      .ok allocation)
    (valid : SystemRecordsValid (hashes.blockId parent) block.header.minerAddress
      allocation.payoutEach layout)
    (paid : FeesPaid parent layout.groups)
    (ceiling : (layout.coinbase.outputs 0).amount.toNat ≤
      minerSubsidyWith block.header.height rules.v1_5Activation +
        claimableFees parent layout.groups + licenseDividend) :
    validateBlockChecksInner hashes rules checkPow block parent finalizedActiveCounts
      licenseDividend = .ok () := by
  obtain ⟨facts, preflight⟩ := @validateBlockResourcePreflight_isOk _ hashes.tx rules.client
    block layout records accepted objects depth inRange bounded
  have stream : validateBlockPageStream hashes.tx block.transactions =
      .ok (layout.facts hashes.tx .v1) :=
    validateBlockPageStreamIn_eq_ok.mpr ⟨layout, records, accepted, rfl⟩
  have first : block.transactions.head? = some layout.coinbase := by
    rw [records]
    rfl
  have conflicts : validateBlockSlotConflicts ConsensusError.slotConflict block.transactions =
      .ok () := validateBlockSlotConflicts_eq_ok.mpr distinct
  have semantics : validateTxConsensus layout.coinbase = .ok () := by
    simp only [validateTxConsensus, bind_eq_ok, mapError_eq_ok, require_eq_ok, exists_const,
      valid.canonical _ mem_cons_self, true_and, TxBody.isCoinbase_of_primary accepted.primary]
    intro impossible
    cases impossible
  simp only [validateBlockChecksInner, bind_eq_ok, preflight, header, stream, first, conflicts,
    semantics, mapError_eq_ok, okOr_eq_ok, Except.ok.injEq, Option.some.injEq, exists_eq_left',
    exists_const, true_and, validateMandatoryCoinbase_isOk records accepted allocated valid,
    validateFeePolicyAndClaimableFeeSum_isOk records accepted paid]
  exact validateCoinbaseCeiling_isOk records accepted ceiling

end Jetsam
