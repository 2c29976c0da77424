import Jetsam.Acceptance.FeeArithmetic

/-!
# The fee constraints are the native fee rule

The comparison with precomputed counts selects the native region, and the adders compute the native
minimum without overflow once the counts are capped. The free wires are forced.
-/

namespace Jetsam

open Circuit Builder BinaryField List

variable {K : Type} [Field K]

variable {depth : ℕ}

theorem threshold_le_iff {bps active : ℕ} (atLeast : 24 ≤ depth) (atMost : depth ≤ 32)
    (small : bps ≤ 10000) (bound : active < 2 ^ 64) :
    occupancyThreshold depth bps ≤ active ↔ bps ≤ occupancyBps active depth := by
  have low : 2 ^ 24 ≤ 2 ^ depth := Nat.pow_le_pow_right two_pos atLeast
  have high : 2 ^ depth ≤ 2 ^ 32 := Nat.pow_le_pow_right two_pos atMost
  have product : 2 ^ depth * bps ≤ 2 ^ 32 * 10000 := Nat.mul_le_mul high small
  have threshold : occupancyThreshold depth bps = (2 ^ depth * bps + 9999) / 10000 := by
    rw [occupancyThreshold, u64Bound, Nat.mod_eq_of_lt]
    omega
  have occupancy : occupancyBps active depth = active * 10000 / 2 ^ depth := by
    have capacity : max (2 ^ depth) 1 = 2 ^ depth := by omega
    have quotient : active * 10000 / 2 ^ depth < 2 ^ 64 := by
      calc
        active * 10000 / 2 ^ depth ≤ active * 10000 / 2 ^ 24 := Nat.div_le_div_left low (by omega)
        _ < 2 ^ 64 := by omega
    rw [occupancyBps, if_pos (by omega), capacity, min_eq_left (by omega), u64Bound,
      Nat.mod_eq_of_lt quotient]
  rw [threshold, occupancy, Nat.le_div_iff_mul_le (Nat.two_pow_pos depth), Nat.mul_comm bps]
  omega

/-- The number of doublings of the state-growth charge. -/
def pressureRegion (active depth : ℕ) : ℕ :=
  let bps := occupancyBps active depth
  if 9000 ≤ bps then 3 else if 7500 ≤ bps then 2 else if 5000 ≤ bps then 1 else 0

theorem pressureMultiplier_eq (active depth : ℕ) :
    pressureMultiplier active depth = 2 ^ pressureRegion active depth := by
  simp only [pressureMultiplier, pressureRegion]
  split_ifs <;> rfl

theorem pressureRegion_lt (active depth : ℕ) : pressureRegion active depth < 4 := by
  simp only [pressureRegion]
  split_ifs <;> omega

theorem depthSelectedThresholdBits_ofDepth (words : WordBasis K 128) (atLeast : 24 ≤ depth)
    (atMost : depth ≤ 32) (bps : ℕ) :
    depthSelectedThresholdBits (StateDepthTrace.ofDepth words depth) bps =
      bitsOf u64Bits (occupancyThreshold depth bps) := by
  obtain ⟨index, rfl⟩ := Nat.exists_eq_add_of_le atLeast
  have inside : index < ((List.range exactStateDepthChoices).map fun index =>
      occupancyThreshold (minExactStateDepth + index) bps).length := by
    rw [length_map, length_range, exactStateDepthChoices, maxExactStateDepth, minExactStateDepth]
    omega
  have entry : ((List.range exactStateDepthChoices).map fun index =>
      occupancyThreshold (minExactStateDepth + index) bps).getD index 0 =
      occupancyThreshold (24 + index) bps := by
    rw [getD_eq_getElem _ _ inside, getElem_map, getElem_range]
    rfl
  have small : occupancyThreshold (24 + index) bps < 2 ^ 64 := Nat.mod_lt _ (Nat.two_pow_pos 64)
  have selected := @selectedConstantBits_oneHot K _ _ _ inside (by rwa [entry]) u64Bits
  rw [entry, length_map, length_range] at selected
  exact (congrArg (fun chosen => selectedConstantBits (oneHot exactStateDepthChoices chosen) _ _)
    (Nat.add_sub_cancel_left 24 index)).trans selected

section Circuits

variable [CharP K 2] [DecidableEq K] (words : WordBasis K 128)

omit [DecidableEq K] in
theorem regions_eq {active depth : ℕ} (atLeast : 24 ≤ depth) (atMost : depth ≤ 32)
    (bound : active < 2 ^ 64) :
    ([flag (decide (active < occupancyThreshold depth 5000)),
      flag (decide (active < occupancyThreshold depth 5000)) +
        flag (decide (active < occupancyThreshold depth 7500)),
      flag (decide (active < occupancyThreshold depth 7500)) +
        flag (decide (active < occupancyThreshold depth 9000)),
      flag (decide (active < occupancyThreshold depth 9000)) + 1] : List K) =
      oneHot 4 (pressureRegion active depth) := by
  have below : ∀ bps ≤ 10000, (active < occupancyThreshold depth bps ↔
      occupancyBps active depth < bps) := fun bps small => by
    rw [← not_le, threshold_le_iff atLeast atMost small bound, not_le]
  have placed : [5000, 7500, 9000].countP (· ≤ occupancyBps active depth) =
      pressureRegion active depth := by
    simp only [countP_cons, countP_nil, decide_eq_true_eq, pressureRegion]
    grind
  have selected := @zipWith_boundaries K _ _ (occupancyBps active depth) [5000, 7500, 9000]
    (by decide) false (by simp)
  rw [placed] at selected
  simpa [below, add_comm] using selected

theorem bindPressure_enforces (atLeast : 24 ≤ depth) (atMost : depth ≤ 32) (parentActiveCount : K) :
    (bindPressure words parentActiveCount (StateDepthTrace.ofDepth words depth)).Enforces
      (words.toNat parentActiveCount < 2 ^ 64)
      (words.ofNat (pressureMultiplier (words.toNat parentActiveCount) depth),
        oneHot 4 (pressureRegion (words.toNat parentActiveCount) depth)) := by
  set active := words.toNat parentActiveCount with activeDef
  have ranged := rangeCheckBits_enforces words parentActiveCount (show u64Bits ≤ 128 by decide)
  rw [← activeDef] at ranged
  have threshold : ∀ bps, occupancyThreshold depth bps < 2 ^ u64Bits :=
    fun bps => Nat.mod_lt _ (Nat.two_pow_pos 64)
  have region := pressureRegion_lt active depth
  have selected := @selectedConstantBits_oneHot K _ [1, 2, 4, 8] (pressureRegion active depth)
    region (by interval_cases pressureRegion active depth <;> decide) 4
  have multiplier : [1, 2, 4, 8].getD (pressureRegion active depth) 0 =
      pressureMultiplier active depth := by
    rw [pressureMultiplier_eq]
    interval_cases pressureRegion active depth <;> rfl
  have fits : pressureMultiplier active depth < 2 ^ 4 := by
    rw [← multiplier]
    interval_cases pressureRegion active depth <;> decide
  rw [multiplier] at selected
  apply ranged.bind_true
  intro bound
  have native : pressureMultiplier (active % u64Bound)
      (words.toNat (StateDepthTrace.ofDepth words depth).value % 2 ^ 32) =
      pressureMultiplier active depth := by
    rw [StateDepthTrace.ofDepth, words.toNat_ofNat (by omega),
      Nat.mod_eq_of_lt (show active < u64Bound from bound), Nat.mod_eq_of_lt (by omega)]
  have regions := @regions_eq K _ _ active depth atLeast atMost bound
  simp only [depthSelectedThresholdBits_ofDepth words atLeast atMost,
    lessThanBits_bitsOf bound (threshold _), regions, ← activeDef, native]
  have derived : reconstructBits words (selectedConstantBits
      (oneHot 4 (pressureRegion active depth) : List K) [1, 2, 4, 8] 4) =
      words.ofNat (pressureMultiplier active depth) := by
    rw [← reconstructBits_bitsOf words fits, ← selected]
    rfl
  rw [derived]
  exact Enforces.pinnedWire rfl (Enforces.pure _)

variable {words}

variable {inputs outputs : ℕ}

theorem bindNetGrowth_enforces {inputCount outputCount : K}
    (inputValue : words.toNat inputCount = inputs) (outputValue : words.toNat outputCount = outputs)
    (inputCap : inputs ≤ 1020) (outputCap : outputs ≤ 256) :
    (bindNetGrowth words (bitsOf 11 inputs) (bitsOf 9 outputs) inputCount outputCount).Enforces
      True (bitsOf 9 (outputs - inputs)) := by
  have inputFits : inputs < 2 ^ 11 := by omega
  have outputFits : outputs < 2 ^ 9 := by omega
  have outputElement : outputCount = words.ofNat outputs := by
    rw [← outputValue, words.ofNat_toNat]
  simp only [bindNetGrowth, resizeBits_bitsOf inputFits le_rfl,
    resizeBits_bitsOf outputFits (show 9 ≤ 11 by omega),
    lessThanBits_bitsOf inputFits (show outputs < 2 ^ 11 by omega), inputValue, outputValue]
  have ranged := fun net => rangeCheckBits_enforces words net (show 9 ≤ 128 by omega)
  apply Enforces.wire
  · intro net result accepted
    obtain ⟨netBits, checked, rest⟩ := accepts_bind.mp accepted
    obtain ⟨netFits, rfl⟩ := (ranged net).sound checked
    obtain ⟨⟨⟩, dead, rest⟩ := accepts_bind.mp rest
    obtain ⟨sum, added, rest⟩ := accepts_bind.mp rest
    rw [resizeBits_bitsOf netFits (show 9 ≤ 11 by omega)] at added
    have netFits' : words.toNat net < 2 ^ 11 := by omega
    obtain ⟨sumFits, rfl⟩ := (checkedAddBits_enforces inputFits netFits').sound added
    obtain ⟨⟨⟩, grown, -⟩ := accepts_bind.mp rest
    have deadNet := accepts_pinZero.mp dead
    have grownNet := accepts_pinZero.mp grown
    rw [reconstructBits_bitsOf words sumFits] at grownNet
    rcases lt_or_ge inputs outputs with growth | shrink
    · rw [decide_eq_true growth, flag_true, one_mul, CharTwo.add_eq_zero] at grownNet
      have total := congrArg words.toNat grownNet
      rw [words.toNat_ofNat (by omega), outputValue] at total
      rw [← words.ofNat_toNat net, ← total, Nat.add_sub_cancel_left]
    · rw [decide_eq_false (not_lt.mpr shrink), flag_false, zero_add, one_mul] at deadNet
      rw [deadNet, Nat.sub_eq_zero_of_le shrink, words.ofNat_zero]
  · have netFits : outputs - inputs < 2 ^ 9 := by omega
    have netValue : words.toNat (words.ofNat (outputs - inputs)) = outputs - inputs :=
      words.toNat_ofNat (by omega)
    have checked := ranged (words.ofNat (outputs - inputs))
    rw [netValue] at checked
    have netFits' : outputs - inputs < 2 ^ 11 := by omega
    have sumFits : inputs + (outputs - inputs) < 2 ^ 11 := by omega
    have added := @checkedAddBits_enforces K _ _ _ _ _ _ inputFits netFits'
    apply (checked.sure netFits).true_bind
    rw [resizeBits_bitsOf netFits (show 9 ≤ 11 by omega)]
    apply ((Enforces.pinZero _).sure ?_).true_bind
    · apply (added.sure sumFits).true_bind
      rw [reconstructBits_bitsOf words sumFits]
      apply ((Enforces.pinZero _).sure ?_).map
      rcases lt_or_ge inputs outputs with growth | shrink
      · rw [outputElement, Nat.add_sub_cancel' growth.le, CharTwo.add_self_eq_zero, mul_zero]
      · rw [decide_eq_false (not_lt.mpr shrink), flag_false, zero_mul]
    · rcases lt_or_ge inputs outputs with growth | shrink
      · rw [decide_eq_true growth, flag_true, CharTwo.add_self_eq_zero, zero_mul]
      · rw [Nat.sub_eq_zero_of_le shrink, words.ofNat_zero, mul_zero]

variable {region : ℕ}

omit [CharP K 2] [DecidableEq K] in
theorem burnBits_oneHot (inside : region < 4) {value : ℕ} (fits : value < 2 ^ smallFeeBits) :
    burnBits (oneHot 4 region) (bitsOf smallFeeBits value : List K) =
      bitsOf smallFeeBits (value * 2 ^ region) := by
  rw [← shiftedBits_bitsOf fits, burnBits, shiftedBits]
  apply map_congr_left
  intro bit _
  have selected := sum_oneHot inside (fun index => if index ≤ bit then
    (bitsOf smallFeeBits value : List K).getD (bit - index) 0 else 0) 0
  rw [zero_add] at selected
  rw [← selected]
  congr 1
  apply map_congr_left
  intro entry _
  rw [mul_ite, mul_zero]

omit [CharP K 2] [DecidableEq K] in
theorem baseBits_eq (live : Bool) :
    ((List.range smallFeeBits).map fun bit =>
      if minFeeBase.testBit bit then (flag live : K) else 0) =
      bitsOf smallFeeBits (if live then minFeeBase else 0) := by
  rw [bitsOf_eq_map]
  apply map_congr_left
  intro bit _
  cases live
  · simp
  · rw [if_pos rfl]
    rfl

def growthBurn (region inputs outputs : ℕ) : ℕ :=
  (outputs - inputs) * stateGrowthFeeBase * 2 ^ region

def groupMinimum (live : Bool) (region inputs outputs : ℕ) : ℕ :=
  (if live then minFeeBase else 0) + inputs * feePerInput + outputs * feePerOutput +
    growthBurn region inputs outputs

theorem feeBreakdown_eq {inputs outputs active depth : ℕ} (inputCap : inputs ≤ maxPagedSpendInputs)
    (outputCap : outputs ≤ maxPagedSpendOutputs) :
    (feeBreakdown inputs outputs active depth).requiredTotal =
        groupMinimum true (pressureRegion active depth) inputs outputs ∧
      (feeBreakdown inputs outputs active depth).burned =
        growthBurn (pressureRegion active depth) inputs outputs := by
  have region := pressureRegion_lt active depth
  rw [maxPagedSpendInputs] at inputCap
  rw [maxPagedSpendOutputs] at outputCap
  simp only [feeBreakdown, stateGrowthFeePerSlot, pressureMultiplier_eq, groupMinimum, growthBurn,
    satMul, satAdd, u64Max, minFeeBase, feePerInput, feePerOutput, stateGrowthFeeBase]
  generalize pressureRegion active depth = r at region
  have perSlot : min (2500 * 2 ^ r) (2 ^ 64 - 1) = 2500 * 2 ^ r := by
    interval_cases r <;> decide
  rw [perSlot]
  interval_cases r <;> simp only [if_true] <;> omega

def groupFeeTrace (words : WordBasis K 128) (group : PagedSpendGroupTrace K) (live : Bool)
    (region : ℕ) : LogicalGroupFeeArithmeticTrace K :=
  let inputs := words.toNat group.liveInputCount
  let outputs := words.toNat group.liveOutputCount
  let claimable := words.toNat group.fee - growthBurn region inputs outputs
  { liveInputCount := group.liveInputCount
    liveOutputCount := group.liveOutputCount
    minimumFee := words.ofNat (groupMinimum live region inputs outputs)
    burnedFee := words.ofNat (growthBurn region inputs outputs)
    claimableFee := words.ofNat claimable
    claimableBits := bitsOf u64Bits claimable }

theorem growthBurn_le {region inputs outputs : ℕ} (inside : region < 4)
    (outputCap : outputs ≤ 256) : growthBurn region inputs outputs ≤ 256 * 2500 * 8 := by
  apply Nat.mul_le_mul
  · exact Nat.mul_le_mul ((Nat.sub_le _ _).trans outputCap) le_rfl
  · interval_cases region <;> decide

theorem groupMinimum_le (live : Bool) (inside : region < 4) (inputCap : inputs ≤ 1020)
    (outputCap : outputs ≤ 256) :
    groupMinimum live region inputs outputs ≤ 5406200 := by
  have burnLe := @growthBurn_le region inputs outputs inside outputCap
  have base : (if live then minFeeBase else 0) ≤ 5000 := by
    cases live <;> decide
  rw [groupMinimum, feePerInput, feePerOutput]
  omega

theorem bindGroupFee_enforces {group : PagedSpendGroupTrace K} {live : Bool}
    (liveFlag : group.live = flag live) (inside : region < 4) :
    (bindGroupFee words group (oneHot 4 region)).Enforces
      (words.toNat group.liveInputCount ≤ maxPagedSpendInputs ∧
        words.toNat group.liveOutputCount ≤ maxPagedSpendOutputs ∧
        words.toNat group.fee < 2 ^ 64 ∧
        groupMinimum live region (words.toNat group.liveInputCount)
          (words.toNat group.liveOutputCount) ≤ words.toNat group.fee)
      (groupFeeTrace words group live region) := by
  set inputs := words.toNat group.liveInputCount with inputsDef
  set outputs := words.toNat group.liveOutputCount with outputsDef
  set fee := words.toNat group.fee with feeDef
  have cap : ∀ {value count : ℕ}, value < 2 ^ count → count ≤ 128 →
      (rangeCheckBits words (words.ofNat value) count).Enforces True (bitsOf count value) := by
    intro value count fits narrow
    have number := words.toNat_ofNat (fits.trans_le (Nat.pow_le_pow_right two_pos narrow))
    have ranged := rangeCheckBits_enforces words (words.ofNat value) narrow
    rw [number] at ranged
    exact ranged.sure fits
  have main : (bindGroupFee words group (oneHot 4 region)).Enforces
      (inputs < 2 ^ 11 ∧ outputs < 2 ^ 9 ∧ inputs < 1021 ∧ outputs < 257 ∧ fee < 2 ^ 64 ∧
        ¬ fee < groupMinimum live region inputs outputs)
      (groupFeeTrace words group live region) := by
    rw [bindGroupFee, liveFlag, baseBits_eq]
    apply (rangeCheckBits_enforces words group.liveInputCount (show 11 ≤ 128 by omega)).bind
    intro inputFits
    apply (rangeCheckBits_enforces words group.liveOutputCount (show 9 ≤ 128 by omega)).bind
    intro outputFits
    apply (cap (show 1021 < 2 ^ 11 by omega) (by omega)).true_bind
    apply (cap (show 257 < 2 ^ 9 by omega) (by omega)).true_bind
    apply (pinLtStrict_enforces inputFits (show 1021 < 2 ^ 11 by omega)).bind
    intro inputBelow
    apply (pinLtStrict_enforces outputFits (show 257 < 2 ^ 9 by omega)).bind
    intro outputBelow
    apply (constantProductBits_enforces inputFits (show feePerInput < 2 ^ 64 by decide)
      (show inputs * 100 < 2 ^ 32 by omega)).true_bind
    apply (constantProductBits_enforces outputFits (show feePerOutput < 2 ^ 64 by decide)
      (show outputs * 700 < 2 ^ 32 by omega)).true_bind
    apply (bindNetGrowth_enforces inputsDef.symm outputsDef.symm (by omega) (by omega)).true_bind
    have netFits : outputs - inputs < 2 ^ 9 := by omega
    have baseFits : (outputs - inputs) * stateGrowthFeeBase < 2 ^ smallFeeBits := by
      rw [stateGrowthFeeBase, smallFeeBits]
      omega
    apply (constantProductBits_enforces netFits (show stateGrowthFeeBase < 2 ^ 64 by decide)
      baseFits).true_bind
    have burnLe := @growthBurn_le region inputs outputs inside (by omega)
    have burnFits : growthBurn region inputs outputs < 2 ^ smallFeeBits := by
      rw [smallFeeBits]
      omega
    simp only [burnBits_oneHot inside baseFits]
    rw [show (outputs - inputs) * stateGrowthFeeBase * 2 ^ region =
      growthBurn region inputs outputs from rfl]
    set burn := growthBurn region inputs outputs with burnDef
    have baseLe : (if live then minFeeBase else 0) ≤ 5000 := by
      cases live <;> decide
    have total : groupMinimum live region inputs outputs =
        (if live then minFeeBase else 0) + inputs * feePerInput + outputs * feePerOutput + burn :=
      rfl
    set base := if live then minFeeBase else 0 with baseDef
    rw [feePerInput, feePerOutput] at total
    apply ((checkedAddBits_enforces (show base < 2 ^ 32 by omega)
      (show inputs * 100 < 2 ^ 32 by omega)).sure (by omega)).true_bind
    apply ((checkedAddBits_enforces (show base + inputs * 100 < 2 ^ 32 by omega)
      (show outputs * 700 < 2 ^ 32 by omega)).sure (by omega)).true_bind
    apply ((checkedAddBits_enforces (show base + inputs * 100 + outputs * 700 < 2 ^ 32 by omega)
      burnFits).sure (by omega)).true_bind
    rw [← total]
    set minimum := groupMinimum live region inputs outputs with minimumDef
    have minimumFits : minimum < 2 ^ 32 := by omega
    apply (rangeCheckBits_enforces words group.fee (show u64Bits ≤ 128 by decide)).bind
    intro feeFits
    rw [← feeDef] at feeFits ⊢
    rw [resizeBits_bitsOf minimumFits (show 32 ≤ u64Bits by decide),
      lessThanBits_bitsOf feeFits (show minimum < 2 ^ u64Bits by rw [u64Bits]; omega)]
    apply ((Enforces.pinZero _).congr (by rw [flag_eq_zero, decide_eq_false_iff_not])
      fun _ => rfl).bind_true
    intro enough
    have burnValue : words.toNat (words.ofNat burn) = burn := words.toNat_ofNat (by omega)
    rw [reconstructBits_bitsOf words burnFits, reconstructBits_bitsOf words minimumFits, burnValue,
      resizeBits_bitsOf burnFits (show 32 ≤ u64Bits by decide)]
    have burnFits' : burn < 2 ^ u64Bits := by
      omega
    apply Enforces.wire
    · intro claimable result accepted
      obtain ⟨bits, checked, rest⟩ := accepts_bind.mp accepted
      obtain ⟨fits, rfl⟩ := (rangeCheckBits_enforces words claimable (show u64Bits ≤ 128 by
        decide)).sound checked
      obtain ⟨sum, added, rest⟩ := accepts_bind.mp rest
      obtain ⟨sumFits, rfl⟩ := (checkedAddBits_enforces fits burnFits').sound added
      obtain ⟨⟨⟩, pinned, -⟩ := accepts_bind.mp rest
      have paid := congrArg words.toNat (accepts_pinEq.mp pinned)
      rw [reconstructBits_bitsOf words sumFits,
        words.toNat_ofNat (by rw [u64Bits] at sumFits; omega), ← feeDef] at paid
      rw [← words.ofNat_toNat claimable, ← paid, Nat.add_sub_cancel]
    · have claimFits : fee - burn < 2 ^ u64Bits := by omega
      have sumFits : fee - burn + burn < 2 ^ u64Bits := by omega
      apply (cap claimFits (by decide)).true_bind
      apply ((checkedAddBits_enforces claimFits burnFits').sure sumFits).true_bind
      apply ((Enforces.pinEq _ _).sure ?_).map
      rw [reconstructBits_bitsOf words sumFits, Nat.sub_add_cancel (by omega), feeDef,
        words.ofNat_toNat]
  apply main.congr
  · rw [maxPagedSpendInputs, maxPagedSpendOutputs]
    omega
  · exact fun _ => rfl

omit words in
theorem aggregateBits_enforces {traces : List (LogicalGroupFeeArithmeticTrace K)}
    {claim : LogicalGroupFeeArithmeticTrace K → ℕ}
    (bits : ∀ trace ∈ traces,
      trace.claimableBits = bitsOf u64Bits (claim trace) ∧ claim trace < 2 ^ u64Bits)
    (fits : (traces.map claim).sum < 2 ^ moneySumBits) :
    (aggregateBits traces).Enforces True (bitsOf moneySumBits (traces.map claim).sum) := by
  have wide : u64Bits ≤ moneySumBits := by decide
  have folds : ∀ (rest : List (LogicalGroupFeeArithmeticTrace K)) (start : ℕ),
      (∀ trace ∈ rest,
        trace.claimableBits = bitsOf u64Bits (claim trace) ∧ claim trace < 2 ^ u64Bits) →
      start + (rest.map claim).sum < 2 ^ moneySumBits →
      (rest.foldlM (fun sum group =>
          checkedAddBits sum (resizeBits group.claimableBits moneySumBits))
        (bitsOf moneySumBits start) : Builder K (List K)).Enforces True
        (bitsOf moneySumBits (start + (rest.map claim).sum)) := by
    intro rest
    induction rest with
    | nil => exact fun start _ _ => Enforces.pure _
    | cons trace rest ih =>
      intro start bits fits
      obtain ⟨own, small⟩ := bits trace mem_cons_self
      rw [map_cons, sum_cons, ← add_assoc] at fits ⊢
      rw [foldlM_cons, own, resizeBits_bitsOf small wide]
      apply ((checkedAddBits_enforces (by omega) (by omega)).sure (by omega)).true_bind
      exact ih _ (fun later member => bits later (mem_cons_of_mem _ member)) fits
  cases traces with
  | nil => exact (Enforces.pure _).congr Iff.rfl fun _ => (bitsOf_zero _).symm
  | cons first rest =>
    obtain ⟨own, small⟩ := bits first mem_cons_self
    rw [aggregateBits, own, resizeBits_bitsOf small wide]
    exact folds rest _ (fun later member => bits later (mem_cons_of_mem _ member)) fits

/-- A claimed group record: the flag is a bit, the fee has 64 bits and a dead record is zero. -/
structure PagedSpendGroupTrace.IsRecord (words : WordBasis K 128) (group : PagedSpendGroupTrace K) :
    Prop where
  live : group.live = 0 ∨ group.live = 1
  dead : group.live = 0 →
    group.fee = 0 ∧ group.liveInputCount = 0 ∧ group.liveOutputCount = 0
  fee : words.toNat group.fee < 2 ^ 64

def nativeGroupFees (words : WordBasis K 128) (active depth : ℕ) (group : PagedSpendGroupTrace K) :
    ℕ × ℕ × ℕ :=
  if group.live = 1 then
    let inputs := words.toNat group.liveInputCount
    let outputs := words.toNat group.liveOutputCount
    let breakdown := feeBreakdown inputs outputs active depth
    (breakdown.requiredTotal, breakdown.burned,
      claimableFee (words.toNat group.fee) inputs outputs active depth)
  else (0, 0, 0)

omit [CharP K 2] in
theorem groupFeeTrace_native {group : PagedSpendGroupTrace K} (record : group.IsRecord words)
    {active depth : ℕ}
    (capped : group.live = 1 → words.toNat group.liveInputCount ≤ maxPagedSpendInputs ∧
      words.toNat group.liveOutputCount ≤ maxPagedSpendOutputs) :
    let inputs := words.toNat group.liveInputCount
    let outputs := words.toNat group.liveOutputCount
    let region := pressureRegion active depth
    nativeGroupFees words active depth group =
      (groupMinimum (decide (group.live = 1)) region inputs outputs,
        growthBurn region inputs outputs,
        words.toNat group.fee - growthBurn region inputs outputs) := by
  intro inputs outputs region
  rcases record.live with dead | live
  · obtain ⟨fee, noInputs, noOutputs⟩ := record.dead dead
    have zeros : inputs = 0 ∧ outputs = 0 := by
      simp only [inputs, outputs, noInputs, noOutputs, words.toNat_zero, and_self]
    simp [nativeGroupFees, dead, fee, words.toNat_zero, zeros, groupMinimum, growthBurn]
  · obtain ⟨inputCap, outputCap⟩ := capped live
    obtain ⟨required, burned⟩ := @feeBreakdown_eq inputs outputs active depth inputCap outputCap
    simp only [nativeGroupFees, live, if_true, claimableFee, decide_true]
    rw [required, burned]

end Circuits

/-- The native money rule of a block with the given group records. -/
structure NativeFeeRule [DecidableEq K] (words : WordBasis K 128)
    (groups : List (PagedSpendGroupTrace K)) (active depth subsidy coinbaseAmount : ℕ) : Prop where
  paid : ∀ group ∈ groups, group.live = 1 →
    words.toNat group.liveInputCount ≤ maxPagedSpendInputs ∧
      words.toNat group.liveOutputCount ≤ maxPagedSpendOutputs ∧
      (feeBreakdown (words.toNat group.liveInputCount) (words.toNat group.liveOutputCount) active
        depth).requiredTotal ≤ words.toNat group.fee
  coinbase : coinbaseAmount ≤ subsidy +
    ((groups.filter fun group => group.live = 1).map fun group =>
      words.toNat group.fee - (feeBreakdown (words.toNat group.liveInputCount)
        (words.toNat group.liveOutputCount) active depth).burned).sum

section Block

variable [CharP K 2] [DecidableEq K] {words : WordBasis K 128}
  {groups : List (PagedSpendGroupTrace K)} {active depth : ℕ}

omit [CharP K 2] in
theorem sum_claimable (records : ∀ group ∈ groups, group.IsRecord words)
    (capped : ∀ group ∈ groups, group.live = 1 →
      words.toNat group.liveInputCount ≤ maxPagedSpendInputs ∧
      words.toNat group.liveOutputCount ≤ maxPagedSpendOutputs) :
    ((groups.filter fun group => group.live = 1).map fun group =>
        words.toNat group.fee - (feeBreakdown (words.toNat group.liveInputCount)
          (words.toNat group.liveOutputCount) active depth).burned).sum =
      (groups.map fun group => words.toNat group.fee -
        growthBurn (pressureRegion active depth) (words.toNat group.liveInputCount)
          (words.toNat group.liveOutputCount)).sum := by
  induction groups with
  | nil => rfl
  | cons group groups ih =>
    have rest := ih (fun other mem => records other (mem_cons_of_mem _ mem))
      (fun other mem => capped other (mem_cons_of_mem _ mem))
    rw [filter_cons, map_cons, sum_cons, ← rest]
    rcases (records group mem_cons_self).live with dead | live
    · obtain ⟨fee, -, -⟩ := (records group mem_cons_self).dead dead
      rw [if_neg (by simp [dead]), fee, words.toNat_zero, Nat.zero_sub, Nat.zero_add]
    · obtain ⟨inputCap, outputCap⟩ := capped group mem_cons_self live
      rw [if_pos (by simp [live]), map_cons, sum_cons, (feeBreakdown_eq inputCap outputCap).2]

omit [CharP K 2] [DecidableEq K] in
theorem sum_claimable_lt (few : groups.length ≤ 255)
    (records : ∀ group ∈ groups, group.IsRecord words) (burn : PagedSpendGroupTrace K → ℕ) :
    (groups.map fun group => words.toNat group.fee - burn group).sum ≤ 255 * (2 ^ 64 - 1) := by
  have bounded := sum_le_card_nsmul
    (groups.map fun group => words.toNat group.fee - burn group) (2 ^ 64 - 1) fun value mem => by
      obtain ⟨group, inside, rfl⟩ := mem_map.mp mem
      have := (records group inside).fee
      omega
  rw [length_map, smul_eq_mul] at bounded
  exact bounded.trans (Nat.mul_le_mul_right _ few)

def blockFeeTrace (words : WordBasis K 128) (groups : List (PagedSpendGroupTrace K))
    (active depth : ℕ) (emissionTiers : List K) (coinbaseSubsidy : K) :
    BlockFeeArithmeticTrace K :=
  let region := pressureRegion active depth
  let sum := (groups.map fun group => words.toNat group.fee - growthBurn region
    (words.toNat group.liveInputCount) (words.toNat group.liveOutputCount)).sum
  { pressureMultiplier := words.ofNat (pressureMultiplier active depth)
    groups := groups.map fun group => groupFeeTrace words group (decide (group.live = 1)) region
    claimableFeeSum := words.ofNat sum
    blockReward := reconstructBits words
      (selectedConstantBits emissionTiers tierRewards moneySumBits)
    coinbaseSubsidy
    maxCoinbaseValue := words.ofNat (sum + words.toNat coinbaseSubsidy) }

theorem bindBlockFeeArithmetic_enforces (few : groups.length ≤ 255)
    (records : ∀ group ∈ groups, group.IsRecord words) {parentActiveCount : K}
    (activeValue : words.toNat parentActiveCount = active) (activeBound : active < 2 ^ 64)
    (atLeast : 24 ≤ depth) (atMost : depth ≤ 32) (emissionTiers : List K) {coinbaseSubsidy : K}
    (subsidyBound : words.toNat coinbaseSubsidy < 2 ^ 64) {coinbaseAmount : ℕ}
    (amountBound : coinbaseAmount < 2 ^ 64) :
    (bindBlockFeeArithmetic words groups parentActiveCount (StateDepthTrace.ofDepth words depth)
      emissionTiers coinbaseSubsidy (words.ofNat coinbaseAmount)
      (bitsOf u64Bits coinbaseAmount)).Enforces
      (NativeFeeRule words groups active depth (words.toNat coinbaseSubsidy) coinbaseAmount)
      (blockFeeTrace words groups active depth emissionTiers coinbaseSubsidy) := by
  set region := pressureRegion active depth with regionDef
  set sum := (groups.map fun group => words.toNat group.fee - growthBurn region
    (words.toNat group.liveInputCount) (words.toNat group.liveOutputCount)).sum with sumDef
  have sumLe : sum ≤ 255 * (2 ^ 64 - 1) := sum_claimable_lt few records _
  have pressure := bindPressure_enforces words atLeast atMost parentActiveCount
  rw [activeValue] at pressure
  have each : ∀ group ∈ groups, (bindGroupFee words group (oneHot 4 region)).Enforces
      (words.toNat group.liveInputCount ≤ maxPagedSpendInputs ∧
        words.toNat group.liveOutputCount ≤ maxPagedSpendOutputs ∧
        words.toNat group.fee < 2 ^ 64 ∧
        groupMinimum (decide (group.live = 1)) region (words.toNat group.liveInputCount)
          (words.toNat group.liveOutputCount) ≤ words.toNat group.fee)
      (groupFeeTrace words group (decide (group.live = 1)) region) := by
    intro group member
    apply bindGroupFee_enforces _ (pressureRegion_lt active depth)
    rcases (records group member).live with dead | live
    · simp [dead]
    · simp [live]
  have claims : ((groups.map fun group => groupFeeTrace words group (decide (group.live = 1))
      region).map fun trace => words.toNat trace.claimableFee).sum = sum := by
    rw [map_map, sumDef]
    congr 1
    apply map_congr_left
    intro group member
    have := words.toNat_lt group.fee
    exact words.toNat_ofNat (by omega)
  have aggregate := @aggregateBits_enforces K _ _ _
    (groups.map fun group => groupFeeTrace words group (decide (group.live = 1)) region)
    (fun trace => words.toNat trace.claimableFee) (fun trace member => by
      obtain ⟨group, inside, rfl⟩ := mem_map.mp member
      have fee := (records group inside).fee
      have value : words.toNat
          (groupFeeTrace words group (decide (group.live = 1)) region).claimableFee =
          words.toNat group.fee - growthBurn region (words.toNat group.liveInputCount)
            (words.toNat group.liveOutputCount) := words.toNat_ofNat (by omega)
      rw [value]
      exact ⟨rfl, (Nat.sub_le _ _).trans_lt fee⟩) (by rw [claims, moneySumBits]; omega)
  rw [claims] at aggregate
  have sumFits : sum < 2 ^ moneySumBits := by
    rw [moneySumBits]
    omega
  have wide : u64Bits ≤ moneySumBits := by decide
  have subsidyFits : words.toNat coinbaseSubsidy < 2 ^ u64Bits := subsidyBound
  have amountFits : coinbaseAmount < 2 ^ u64Bits := amountBound
  have main : (bindBlockFeeArithmetic words groups parentActiveCount
      (StateDepthTrace.ofDepth words depth) emissionTiers coinbaseSubsidy
      (words.ofNat coinbaseAmount) (bitsOf u64Bits coinbaseAmount)).Enforces
      ((∀ group ∈ groups, words.toNat group.liveInputCount ≤ maxPagedSpendInputs ∧
        words.toNat group.liveOutputCount ≤ maxPagedSpendOutputs ∧
        words.toNat group.fee < 2 ^ 64 ∧
        groupMinimum (decide (group.live = 1)) region (words.toNat group.liveInputCount)
          (words.toNat group.liveOutputCount) ≤ words.toNat group.fee) ∧
        ¬ sum + words.toNat coinbaseSubsidy < coinbaseAmount)
      (blockFeeTrace words groups active depth emissionTiers coinbaseSubsidy) := by
    apply (pressure.sure activeBound).true_bind
    apply (Enforces.mapM each).bind
    intro capped
    apply aggregate.true_bind
    rw [reconstructBits_bitsOf words sumFits]
    apply Enforces.pinnedWire (by rw [words.ofNat_toNat])
    apply ((rangeCheckBits_enforces words coinbaseSubsidy (show u64Bits ≤ 128 by decide)).sure
      subsidyFits).true_bind
    rw [resizeBits_bitsOf subsidyFits wide, resizeBits_bitsOf amountFits wide]
    have totalFits : sum + words.toNat coinbaseSubsidy < 2 ^ moneySumBits := by
      rw [moneySumBits]
      omega
    apply ((checkedAddBits_enforces sumFits (show words.toNat coinbaseSubsidy < 2 ^ moneySumBits by
      rw [moneySumBits]; omega)).sure totalFits).true_bind
    apply ((Enforces.pinEq _ _).sure (reconstructBits_bitsOf words amountFits).symm).true_bind
    rw [lessThanBits_bitsOf totalFits (show coinbaseAmount < 2 ^ moneySumBits by
      rw [moneySumBits]; omega), reconstructBits_bitsOf words totalFits]
    apply ((Enforces.pinZero _).congr (by rw [flag_eq_zero, decide_eq_false_iff_not])
      fun _ => rfl).map
  apply main.congr _ fun _ => rfl
  constructor
  · rintro ⟨paid, ceiling⟩
    have capped : ∀ group ∈ groups, group.live = 1 →
        words.toNat group.liveInputCount ≤ maxPagedSpendInputs ∧
        words.toNat group.liveOutputCount ≤ maxPagedSpendOutputs :=
      fun group member _ => ⟨(paid group member).1, (paid group member).2.1⟩
    refine ⟨fun group member live => ?_, ?_⟩
    · obtain ⟨inputCap, outputCap, -, enough⟩ := paid group member
      rw [decide_eq_true live] at enough
      rw [(feeBreakdown_eq inputCap outputCap).1]
      exact ⟨inputCap, outputCap, enough⟩
    · rw [sum_claimable records capped, ← regionDef, ← sumDef]
      omega
  · rintro ⟨paid, ceiling⟩
    have capped : ∀ group ∈ groups, group.live = 1 →
        words.toNat group.liveInputCount ≤ maxPagedSpendInputs ∧
        words.toNat group.liveOutputCount ≤ maxPagedSpendOutputs :=
      fun group member live => ⟨(paid group member live).1, (paid group member live).2.1⟩
    rw [sum_claimable records capped, ← regionDef, ← sumDef] at ceiling
    refine ⟨fun group member => ?_, by omega⟩
    rcases (records group member).live with dead | live
    · obtain ⟨fee, noInputs, noOutputs⟩ := (records group member).dead dead
      simp [dead, fee, noInputs, noOutputs, words.toNat_zero, groupMinimum, growthBurn]
    · obtain ⟨inputCap, outputCap, enough⟩ := paid group member live
      rw [(feeBreakdown_eq inputCap outputCap).1] at enough
      rw [decide_eq_true live]
      exact ⟨inputCap, outputCap, (records group member).fee, enough⟩

/-- The fee constraints have a satisfying assignment exactly under the native money rule, and every
satisfying assignment gives the native amounts. -/
theorem feeConstraints_iff_native (few : groups.length ≤ 255)
    (records : ∀ group ∈ groups, group.IsRecord words) {parentActiveCount : K}
    (activeBound : words.toNat parentActiveCount < 2 ^ 64) (atLeast : 24 ≤ depth)
    (atMost : depth ≤ 32) (emissionTiers : List K) {coinbaseSubsidy : K}
    (subsidyBound : words.toNat coinbaseSubsidy < 2 ^ 64) {coinbaseAmount : ℕ}
    (amountBound : coinbaseAmount < 2 ^ 64) :
    let constraints := bindBlockFeeArithmetic words groups parentActiveCount
      (StateDepthTrace.ofDepth words depth) emissionTiers coinbaseSubsidy
      (words.ofNat coinbaseAmount) (bitsOf u64Bits coinbaseAmount)
    let active := words.toNat parentActiveCount
    ((∃ trace, constraints.Accepts trace) ↔
      NativeFeeRule words groups active depth (words.toNat coinbaseSubsidy) coinbaseAmount) ∧
    ∀ trace, constraints.Accepts trace →
      words.toNat trace.pressureMultiplier = pressureMultiplier active depth ∧
      (trace.groups.map fun fees => (words.toNat fees.minimumFee, words.toNat fees.burnedFee,
        words.toNat fees.claimableFee)) = groups.map (nativeGroupFees words active depth) ∧
      words.toNat trace.claimableFeeSum =
        ((groups.filter fun group => group.live = 1).map fun group =>
          words.toNat group.fee - (feeBreakdown (words.toNat group.liveInputCount)
            (words.toNat group.liveOutputCount) active depth).burned).sum := by
  intro constraints active
  have enforces := @bindBlockFeeArithmetic_enforces K _ _ _ words groups active depth few records
    parentActiveCount rfl activeBound atLeast atMost emissionTiers coinbaseSubsidy subsidyBound
    coinbaseAmount amountBound
  constructor
  · constructor
    · rintro ⟨trace, accepted⟩
      exact (enforces.sound accepted).1
    · exact fun rule => ⟨_, enforces.accepts_iff.mpr ⟨rule, rfl⟩⟩
  · intro trace accepted
    obtain ⟨⟨paid, -⟩, rfl⟩ := enforces.sound accepted
    have capped : ∀ group ∈ groups, group.live = 1 →
        words.toNat group.liveInputCount ≤ maxPagedSpendInputs ∧
        words.toNat group.liveOutputCount ≤ maxPagedSpendOutputs :=
      fun group member live => ⟨(paid group member live).1, (paid group member live).2.1⟩
    refine ⟨?_, ?_, ?_⟩
    · have region := pressureRegion_lt active depth
      have small : pressureMultiplier active depth ≤ 8 := by
        rw [pressureMultiplier_eq]
        interval_cases pressureRegion active depth <;> decide
      exact words.toNat_ofNat (by omega)
    · rw [blockFeeTrace, List.map_map]
      apply List.map_congr_left
      intro group member
      have native := @groupFeeTrace_native K _ _ words group (records group member) active depth
        (capped group member)
      obtain ⟨inputCap, outputCap⟩ : words.toNat group.liveInputCount ≤ 1020 ∧
          words.toNat group.liveOutputCount ≤ 256 := by
        rcases (records group member).live with dead | live
        · obtain ⟨-, noInputs, noOutputs⟩ := (records group member).dead dead
          simp [noInputs, noOutputs, words.toNat_zero]
        · exact capped group member live
      have burnLe := @growthBurn_le _ (words.toNat group.liveInputCount) _
        (pressureRegion_lt active depth) outputCap
      have minimumLe := groupMinimum_le (decide (group.live = 1))
        (pressureRegion_lt active depth) inputCap outputCap
      have feeLt := words.toNat_lt group.fee
      rw [native, Function.comp_apply, groupFeeTrace]
      rw [words.toNat_ofNat (by omega), words.toNat_ofNat (by omega), words.toNat_ofNat (by omega)]
    · rw [sum_claimable records capped]
      have sumLe := sum_claimable_lt few records fun group => growthBurn
        (pressureRegion active depth) (words.toNat group.liveInputCount)
        (words.toNat group.liveOutputCount)
      exact words.toNat_ofNat (by omega)

theorem feeConstraints_one_group :
    let words := towerWords
    let group : PagedSpendGroupTrace Tower.Block128 :=
      ⟨1, (0, 0), (0, 0), words.ofNat 6700, words.ofNat 3, words.ofNat 2, 0⟩
    let constraints := bindBlockFeeArithmetic words [group] (words.ofNat 1000)
      (StateDepthTrace.ofDepth words 24) [] (words.ofNat 45000000) (words.ofNat 45006700)
      (bitsOf u64Bits 45006700)
    ∃ trace, constraints.Accepts trace ∧ words.toNat trace.claimableFeeSum = 6700 := by
  intro words group constraints
  have value : ∀ {n : ℕ}, n < 2 ^ 128 → words.toNat (words.ofNat n) = n := words.toNat_ofNat
  have records : ∀ other ∈ [group], other.IsRecord words := by
    intro other member
    obtain rfl := List.mem_singleton.mp member
    exact ⟨.inr rfl, fun dead => absurd dead one_ne_zero, by rw [value (by norm_num)]; norm_num⟩
  obtain ⟨satisfiable, forced⟩ := @feeConstraints_iff_native Tower.Block128 _ _ _ words [group] 24
    (by decide) records (words.ofNat 1000) (by rw [value (by norm_num)]; norm_num) (by norm_num)
    (by norm_num) [] (words.ofNat 45000000) (by rw [value (by norm_num)]; norm_num) 45006700
    (by norm_num)
  have sum : (([group].filter fun other => other.live = 1).map fun other =>
      words.toNat other.fee - (feeBreakdown (words.toNat other.liveInputCount)
        (words.toNat other.liveOutputCount) (words.toNat (words.ofNat 1000)) 24).burned).sum =
      6700 := by
    decide
  obtain ⟨trace, accepted⟩ := satisfiable.mpr ⟨fun other member live => by
    obtain rfl := List.mem_singleton.mp member
    decide, by rw [sum, value (by norm_num)]⟩
  refine ⟨trace, accepted, ?_⟩
  rw [(forced trace accepted).2.2, sum]

end Block

end Jetsam
