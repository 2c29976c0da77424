import Jetsam.Node.Acceptance

/-!
# Issuance over a run

No counter enforces the supply cap. Along a run the amounts outside the license pool and the
dividends still owed stay within the subsidies and payouts of the heights passed.
-/

namespace Jetsam

open Control Finset

/-- Miner subsidies and development payouts of the heights up to `height`. -/
def issuedThrough (height : Nat) (activation : Option Nat) : Nat :=
  ∑ h ∈ Ico 1 (height + 1),
    (minerSubsidyWith h activation + 2 * developmentPayoutEach h activation)

theorem issuedThrough_succ (height : Nat) (activation : Option Nat) :
    issuedThrough (height + 1) activation = issuedThrough height activation +
      (minerSubsidyWith (height + 1) activation +
        2 * developmentPayoutEach (height + 1) activation) :=
  sum_heights_succ _ height

variable {D : Type} {hashes : ChainHashes D} {rules : ConsensusRules D}

namespace NodeState

variable {node next : NodeState D} {ledger : Ledger} {block : Block D} {layout : BlockLayout}
  {effect : ClientObjectsEffect} {finalizedActiveCounts : List Nat}

/-- Amounts outside the pool plus the dividends owed are covered by what was issued; before the
object rules, every amount is. -/
structure Covered (rules : ConsensusRules D) (node : NodeState D) (ledger : Ledger) : Prop where
  outside : slotSum (ownerWeight outsidePool) ledger.slots +
      node.registry.outstanding node.tip.height rules.client ≤
    issuedThrough node.tip.height rules.v1_5Activation
  early : rules.client.activeAt node.tip.height = false →
    node.registry.entries = [] ∧
      totalAmount ledger.slots ≤ issuedThrough node.tip.height rules.v1_5Activation

theorem covered_genesis (rules : ConsensusRules D) (hasher : StateHasher D) :
    (genesis hasher).Covered rules genesisLedger where
  outside := by
    have nothing : slotSum (ownerWeight outsidePool) (fun _ => .empty) = 0 :=
      slotSum_empty (by simp [ownerWeight])
    simp [genesisLedger, nothing, genesis, ClientRegistryState.outstanding]
  early := by
    have nothing : totalAmount (fun _ => .empty) = 0 := slotSum_empty SlotValue.amount_empty_toNat
    simp [genesisLedger, nothing, genesis]

theorem Covered.acceptBlock (covered : node.Covered rules ledger)
    (accepted : BlockAccepted hashes rules node next ledger block finalizedActiveCounts layout
      effect) :
    next.Covered rules (ledger.afterBlock block) := by
  obtain ⟨applied, checks, objects, registry, tip, -⟩ := accepted
  have height : next.tip.height = node.tip.height + 1 := by rw [tip, checks.height]
  have issued := checks.issued
  have owed := node.registry.outstanding_succ node.tip.height rules.client
  have applies := applied.applies
  have slots : (ledger.afterBlock block).slots =
      ((ledger.atDepth block.header.logSlots).applyRecords block.header.height
        layout.records).slots := by
    rw [Ledger.afterBlock, applied.records]
  rw [applied.records] at applies
  rw [checks.height] at issued applies slots
  by_cases active : rules.client.activeAt block.header.height = true
  · -- The rules lock the pool and make every license pay its miners' share into it.
    rw [validateBlockClientObjectsWith, if_pos active] at objects
    obtain ⟨unlocked, shares, current⟩ :=
      judgeClientObjects_eq_ok applied.records applied.accepted objects
    have moved := Ledger.outsidePool_applyRecords applied.accepted unlocked applies
    rw [checks.height] at current
    have owedNext := node.registry.outstanding_apply rules.client current
    have cover := covered.outside
    refine ⟨?_, fun inactive => ?_⟩
    · rw [height, issuedThrough_succ, registry, owedNext, slots]
      simp only [minersShares, Ledger.atDepth] at shares moved ⊢
      omega
    · rw [tip, active] at inactive
      cases inactive
  · -- Before the rules nothing is registered, so that no dividend is issued.
    rw [validateBlockClientObjectsWith, if_neg active] at objects
    simp only [bind_eq_ok, require_eq_ok, exists_const, pure_eq_ok] at objects
    obtain ⟨-, rfl⟩ := objects
    have inactive : rules.client.activeAt node.tip.height = false := by
      by_contra reached
      rw [Bool.not_eq_false] at reached
      refine active (ClientObjectRules.activeAt_mono ?_ reached)
      rw [checks.height]
      exact Nat.le_succ _
    obtain ⟨empty, cover⟩ := covered.early inactive
    have nothing : next.registry.entries = [] := by
      rw [registry, ClientRegistryState.apply, empty]
      rfl
    have noDividend : node.registry.licenseDividendAt (node.tip.height + 1) rules.client = 0 := by
      simp [ClientRegistryState.licenseDividendAt, empty]
    have moved := Ledger.totalAmount_applyRecords applied.accepted applies
    have total : totalAmount (ledger.afterBlock block).slots ≤
        issuedThrough next.tip.height rules.v1_5Activation := by
      rw [height, issuedThrough_succ, slots]
      simp only [Ledger.atDepth] at moved ⊢
      omega
    refine ⟨?_, fun _ => ⟨nothing, total⟩⟩
    have part := Ledger.outsidePool_le_totalAmount (ledger.afterBlock block).slots
    simp only [ClientRegistryState.outstanding, nothing, List.map_nil, List.sum_nil]
    omega

theorem AcceptedRun.covered [DecidableEq D] {blocks : List (Block D)}
    (run : AcceptedRun hashes rules blocks node) : node.Covered rules (ledgerAfter blocks) := by
  induction run with
  | genesis => exact covered_genesis rules hashes.state
  | block earlier accepted ih =>
    obtain ⟨layout, effect, done⟩ := earlier.sound.1.acceptBlock accepted
    rw [ledgerAfter, List.foldl_append]
    exact ih.acceptBlock done

variable {blocks : List (Block D)}

theorem AcceptedRun.rewards [DecidableEq D] (run : AcceptedRun hashes rules blocks node) :
    (blocks.map fun block => blockReward block.header.height).sum =
      rewardsThrough node.tip.height := by
  induction run with
  | genesis => rfl
  | block earlier accepted ih =>
    obtain ⟨layout, effect, done⟩ := earlier.sound.1.acceptBlock accepted
    rw [List.map_append, List.sum_append, ih, done.tip, done.checks.height, rewardsThrough,
      rewardsThrough, sum_heights_succ, List.map_singleton, List.sum_singleton, done.checks.height]

theorem AcceptedRun.issuedThrough_le [DecidableEq D] (run : AcceptedRun hashes rules blocks node) :
    issuedThrough node.tip.height rules.v1_5Activation ≤ rewardsThrough node.tip.height := by
  cases run with
  | genesis => exact Nat.zero_le _
  | block earlier accepted =>
    obtain ⟨layout, effect, done⟩ := earlier.sound.1.acceptBlock accepted
    exact issuance_le_rewardsThrough done.checks.activation _

/-- Sum of the amounts of the live slots of the domain whose owner is counted. -/
def liveAmount (counts : Block128 × Block128 → Bool) (state : SegmentedFriState) : Nat :=
  ∑ index ∈ range state.numSlots with
      state.slot index ≠ .empty ∧ counts (state.slot index).owner = true,
    (state.slot index).amount.toNat

/-- In a domain of at most 32 levels the live slots carry the whole sum. -/
theorem Sound.liveAmount_eq (sound : node.Sound hashes ledger) (depth : ledger.logSlots ≤ 32)
    (counts : Block128 × Block128 → Bool) :
    liveAmount counts node.chain.state = slotSum (ownerWeight counts) ledger.slots := by
  have domain : node.chain.state.numSlots ≤ slotIndexBound := by
    rw [sound.represents.numSlots, slotIndexBound_eq]
    exact Nat.pow_le_pow_right (by norm_num) depth
  rw [liveAmount, slotSum, sound.slot_eq, sum_filter]
  refine sum_subset_zero_on_sdiff (range_subset_range.mpr domain) (fun index outside => ?_)
    fun index _ => ?_
  · rw [mem_sdiff, mem_range, mem_range, not_lt] at outside
    rw [sound.represents.coherent.holds.outside index outside.2]
    simp [ownerWeight]
  · by_cases live : ledger.slots index = .empty
    · simp [live, ownerWeight]
    · simp [live, ownerWeight]

theorem AcceptedRun.depth [DecidableEq D] (run : AcceptedRun hashes rules blocks node) :
    (ledgerAfter blocks).logSlots ≤ 32 := by
  rw [← run.sound.1.logSlots]
  cases run with
  | genesis => exact show 24 ≤ 32 by norm_num
  | block earlier accepted =>
    obtain ⟨layout, effect, done⟩ := earlier.sound.1.acceptBlock accepted
    rw [done.tip]
    exact done.checks.depth.2

/-- Along every run the amounts outside the license pool stay within the rewards of the applied
heights, and the stored supply is the sum of all live amounts. -/
theorem AcceptedRun.supply_capped [DecidableEq D] {blocks : List (Block D)}
    (run : AcceptedRun hashes rules blocks node) :
    liveAmount outsidePool node.chain.state ≤
        (blocks.map fun block => blockReward block.header.height).sum ∧
      liveAmount outsidePool node.chain.state ≤ maxSupplyMicro ∧
      node.chain.circulatingSupply = liveAmount everyOwner node.chain.state := by
  have sound := run.sound.1
  have issued : liveAmount outsidePool node.chain.state ≤ rewardsThrough node.tip.height := by
    rw [sound.liveAmount_eq run.depth]
    have covered := run.covered.outside
    have schedule := run.issuedThrough_le
    omega
  rw [run.rewards]
  refine ⟨issued, issued.trans (rewardsThrough_le _), ?_⟩
  rw [sound.liveAmount_eq run.depth, sound.represents.supply, totalAmount, slotSum, slotSum]
  refine sum_congr rfl fun index _ => ?_
  simp [ownerWeight, everyOwner]

theorem supply_capped_firstBlock :
    ∃ node, AcceptedRun sampleHashes sampleRules [firstBlock] node ∧
      liveAmount outsidePool node.chain.state ≤ blockReward 1 ∧
      node.chain.circulatingSupply = liveAmount everyOwner node.chain.state := by
  obtain ⟨node, run⟩ := firstBlock_run
  obtain ⟨issued, -, supply⟩ := AcceptedRun.supply_capped run
  rw [List.map_singleton, List.sum_singleton, show firstBlock.header.height = 1 from rfl] at issued
  exact ⟨node, run, issued, supply⟩

end NodeState

end Jetsam
