import Jetsam.Acceptance.FeeArithmetic
import Jetsam.Consensus.Allocation

/-!
# The emission schedule in the circuit

The circuit divides the height by an interval through a quotient and a remainder that the prover
writes, and locates it among the halving boundaries. One division by 480 serves both cadences.
-/

namespace Jetsam

open Circuit Builder BinaryField List

variable {K : Type} [Field K]

def heightBits : ℕ := 64

def payoutQuotientBits : ℕ := 55

def payoutRemainderBits : ℕ := 10

def payoutQuotientBits180s : ℕ := 56

def payoutRemainderBits180s : ℕ := 9

/-- The last height of the window is this and half the activation height. -/
def v1_5EndHeightBase : ℕ := developmentAllocationPayouts * developmentPayoutInterval180s

structure DevelopmentAllocationTrace (K : Type) where
  active : K
  payoutDue : K
  shareEach : K
  minerSubsidy : K
  payoutEach : K
  emissionTiers : List K

def constantBits (value width : ℕ) : List K :=
  (List.range width).map fun bit => if value.testBit bit then 1 else 0

def zeroBits (bits : List K) : K := bits.foldl (fun zero bit => zero * (bit + 1)) 1

/-- Selectors of the emission tiers: neighboring comparisons differ at the tier. -/
def halvingTierOneHot (bits : List K) : List K :=
  let below := halvingBoundaries.map fun boundary =>
    lessThanBits bits (constantBits boundary heightBits)
  zipWith (fun left right => right + left) (0 :: below) (below ++ [1])

section Bind

variable (words : WordBasis K 128)

def shiftedIntegerFromBits (bits : List K) (shift : ℕ) : K := packBits words shift bits

def selectedTierConstant (tiers : List K) (values : List ℕ) : K :=
  ((tiers.zip values).map fun (selector, value) => selector * words.ofNat value).sum

def integerAddNoOverflow (a c : K) (width : ℕ) : Builder K K := do
  let aBits ← rangeCheckBits words a width
  let cBits ← rangeCheckBits words c width
  return reconstructBits words (← checkedAddBits aBits cBits)

/-- Pin the height to a quotient times a sum of powers of two and a remainder. -/
def recomposeHeight (height : K) (divisor : ℕ) (shifts : List ℕ) (quotientBits : List K)
    (remainder : K) (remainderWidth : ℕ) : Builder K (List K × K) := do
  let remainderBits ← rangeCheckBits words remainder remainderWidth
  let divisorBits ← rangeCheckBits words (words.ofNat divisor) remainderWidth
  pinLtStrict remainderBits divisorBits
  let terms := shifts.map (shiftedIntegerFromBits words quotientBits)
  let product ← terms.tail.foldlM (integerAddNoOverflow words · · heightBits) (terms.headD 0)
  let recomposed ← integerAddNoOverflow words product remainder heightBits
  pinEq height recomposed
  return (quotientBits, zeroBits remainderBits)

/-- The quotient of a height, and whether the remainder is zero. -/
def divideByFourBitConstant (height : K) (nativeHeight divisor : ℕ) (shifts : List ℕ)
    (quotientWidth remainderWidth : ℕ) : Builder K (List K × K) := do
  let quotient ← wire (words.ofNat (nativeHeight / divisor))
  let quotientBits ← rangeCheckBits words quotient quotientWidth
  let remainder ← wire (words.ofNat (nativeHeight % divisor))
  recomposeHeight words height divisor shifts quotientBits remainder remainderWidth

/-- The rewards of the selected tier, split by the schedule; a due payout has its amount. -/
def bindTierRewards (bits : List K) (active payoutDue : K) (payoutForEra : List K → K)
    (payoutRawAmount : K) : Builder K (DevelopmentAllocationTrace K) := do
  let tiers := halvingTierOneHot bits
  let shares := tierRewards.map (· / developmentShareDenominator)
  let minerActive := tierRewards.map fun reward =>
    reward - 2 * (reward / developmentShareDenominator)
  let fullSubsidy := selectedTierConstant words tiers tierRewards
  let expectedPayout := payoutDue * payoutForEra tiers
  pinEq (payoutDue * payoutRawAmount) expectedPayout
  return {
    active, payoutDue
    shareEach := active * selectedTierConstant words tiers shares
    minerSubsidy := fullSubsidy +
      active * (fullSubsidy + selectedTierConstant words tiers minerActive)
    payoutEach := expectedPayout
    emissionTiers := tiers }

def payoutsFor (interval : ℕ) (tiers : List K) : K :=
  selectedTierConstant words tiers
    (tierRewards.map fun reward => reward / developmentShareDenominator * interval)

def bindDevelopmentAllocation (childHeight payoutRawAmount : K) :
    Builder K (DevelopmentAllocationTrace K) := do
  let bits ← rangeCheckBits words childHeight heightBits
  let belowEnd := lessThanBits bits
    (constantBits (developmentAllocationEndHeightWith none + 1) heightBits)
  let active := belowEnd * (zeroBits bits + 1)
  let (_, intervalBoundary) ← divideByFourBitConstant words childHeight (words.toNat childHeight)
    developmentPayoutInterval90s [9, 8, 7, 6] payoutQuotientBits payoutRemainderBits
  bindTierRewards words bits active (active * intervalBoundary)
    (payoutsFor words developmentPayoutInterval90s) payoutRawAmount

def bindDevelopmentAllocationV1_5 (childHeight payoutRawAmount activation : K) :
    Builder K (DevelopmentAllocationTrace K) := do
  let bits ← rangeCheckBits words childHeight heightBits
  let activationBits ← rangeCheckBits words activation heightBits
  let halfActivation := shiftedIntegerFromBits words activationBits.tail 0
  let endHeight ← integerAddNoOverflow words halfActivation (words.ofNat v1_5EndHeightBase)
    heightBits
  let endBits ← rangeCheckBits words endHeight heightBits
  let active := (lessThanBits endBits bits + 1) * (zeroBits bits + 1)
  let after := lessThanBits activationBits bits
  let (quotientBits, on480) ← divideByFourBitConstant words childHeight (words.toNat childHeight)
    developmentPayoutInterval180s [8, 7, 6, 5] payoutQuotientBits180s payoutRemainderBits180s
  let quotientEven := quotientBits.headD 0 + 1
  let onCadence := on480 * (quotientEven + after * (quotientEven + 1))
  let payout90s := payoutsFor words developmentPayoutInterval90s
  let payout180s := payoutsFor words developmentPayoutInterval180s
  bindTierRewards words bits active (active * onCadence)
    (fun tiers => payout90s tiers + after * (payout90s tiers + payout180s tiers)) payoutRawAmount

def v1_5ActivationFromRootHeight (rootHeight : K) : Builder K K := do
  let rootBits ← rangeCheckBits words rootHeight heightBits
  let next ← integerAddNoOverflow words rootHeight (words.ofNat 1) heightBits
  return (zeroBits rootBits + 1) * next

end Bind

section Tiers

variable {height : ℕ}

theorem constantBits_eq (value width : ℕ) :
    (constantBits value width : List K) = bitsOf width value :=
  (bitsOf_eq_map width value).symm

theorem halvingBoundaries_eq : halvingBoundaries =
    [28800, 172800, 831800, 1490800, 2149800, 2808800, 3467664] := by
  decide

theorem countP_halvingBoundaries (height : ℕ) :
    halvingBoundaries.countP (· ≤ height) = halvingsAt height := by
  simp only [halvingBoundaries_eq, countP_cons, countP_nil, decide_eq_true_eq, halvingsAt,
    emissionEndHeight_eq, halvingCount, h1Height, h2Height, halvingInterval]
  grind

theorem halvingsAt_lt (height : ℕ) : halvingsAt height < tierRewards.length := by
  rw [← countP_halvingBoundaries, tierRewards, length_map, length_cons]
  exact Nat.lt_succ_of_le countP_le_length

theorem tierRewards_halvingsAt (height : ℕ) :
    tierRewards.getD (halvingsAt height) 0 = blockReward height := by
  have table : tierRewards = (List.range 8).map fun tier =>
      if halvingCount ≤ tier then 0 else baseRewardMicro >>> tier := by
    decide
  have inside : halvingsAt height < 8 := halvingsAt_lt height
  rw [table, getD_eq_getElem?_getD, getElem?_map, getElem?_range inside]
  rfl

theorem selectedTierConstant_oneHot (words : WordBasis K 128) (read : ℕ → ℕ) (height : ℕ) :
    selectedTierConstant words (oneHot tierRewards.length (halvingsAt height))
      (tierRewards.map read) = words.ofNat (read (blockReward height)) := by
  have inside := halvingsAt_lt height
  have entry : (tierRewards.map read).getD (halvingsAt height) 0 = read (blockReward height) := by
    rw [← tierRewards_halvingsAt, getD_eq_getElem _ _ inside,
      getD_eq_getElem _ _ (by rwa [length_map]), getElem_map]
  have summed := sum_oneHot inside (fun tier => words.ofNat ((tierRewards.map read).getD tier 0)) 0
  rw [zero_add, entry] at summed
  rw [← summed, selectedTierConstant]
  rfl

variable [CharP K 2]

theorem halvingTierOneHot_eq (bound : height < 2 ^ 64) :
    halvingTierOneHot (bitsOf heightBits height : List K) =
      oneHot tierRewards.length (halvingsAt height) := by
  have below (boundary : ℕ) (mem : boundary ∈ halvingBoundaries) :
      lessThanBits (bitsOf heightBits height) (constantBits boundary heightBits) =
        (flag (decide (height < boundary)) : K) := by
    rw [constantBits_eq]
    refine lessThanBits_bitsOf bound ?_
    revert boundary
    rw [halvingBoundaries_eq]
    decide
  have selected := @zipWith_boundaries K _ _ height halvingBoundaries (by decide) false (by simp)
  rw [countP_halvingBoundaries] at selected
  rw [halvingTierOneHot, map_congr_left below]
  exact selected

theorem zeroBits_bitsOf {count value : ℕ} (bound : value < 2 ^ count) :
    zeroBits (bitsOf count value : List K) = flag (decide (value = 0)) := by
  have folded (zero : Bool) :
      (bitsOf count value : List K).foldl (fun zero bit => zero * (bit + 1)) (flag zero) =
        flag (zero && decide (value = 0)) := by
    induction count generalizing value zero with
    | zero =>
      obtain rfl : value = 0 := by omega
      simp [bitsOf]
    | succ count ih =>
      rw [pow_succ] at bound
      rw [bitsOf, foldl_cons, flag_add_one, flag_mul, ih (by omega), Bool.and_assoc]
      congr 2
      rw [Nat.testBit_zero, ← decide_not, ← Bool.decide_and, decide_eq_decide]
      omega
  exact folded true

end Tiers

section Gadgets

variable [CharP K 2] [DecidableEq K] (words : WordBasis K 128)

variable {value width : ℕ}

omit [CharP K 2] [DecidableEq K] in
theorem shiftedIntegerFromBits_bitsOf (bound : value < 2 ^ width) (shift : ℕ) :
    shiftedIntegerFromBits words (bitsOf width value) shift = words.ofNat (value * 2 ^ shift) := by
  rw [shiftedIntegerFromBits, packBits_bitsOf, Nat.mod_eq_of_lt bound]

theorem rangeCheckBits_ofNat (fits : width ≤ 128) (bound : value < 2 ^ width) :
    (rangeCheckBits words (words.ofNat value) width).Enforces True (bitsOf width value) := by
  have ranged := rangeCheckBits_enforces words (words.ofNat value) fits
  rw [words.toNat_ofNat (bound.trans_le (Nat.pow_le_pow_right two_pos fits))] at ranged
  exact ranged.sure bound

theorem integerAddNoOverflow_enforces {first second : ℕ} (bound : first < 2 ^ 64)
    (bound' : second < 2 ^ 64) :
    (integerAddNoOverflow words (words.ofNat first) (words.ofNat second) heightBits).Enforces
      (first + second < 2 ^ 64) (words.ofNat (first + second)) := by
  apply (rangeCheckBits_ofNat words (by decide) bound).true_bind
  apply (rangeCheckBits_ofNat words (by decide) bound').true_bind
  refine (checkedAddBits_enforces bound bound').bind_true fun fits => ?_
  rw [reconstructBits_bitsOf words fits]
  exact .pure _

theorem shifted_lt {shift : ℕ} (bound : value < 2 ^ width) (fits : width + shift ≤ 64) :
    value * 2 ^ shift < 2 ^ 64 := by
  calc
    value * 2 ^ shift < 2 ^ width * 2 ^ shift :=
      Nat.mul_lt_mul_of_pos_right bound (Nat.two_pow_pos shift)
    _ = 2 ^ (width + shift) := (pow_add 2 width shift).symm
    _ ≤ 2 ^ 64 := Nat.pow_le_pow_right two_pos fits

theorem foldlM_shifted_enforces {start : ℕ} (bound : value < 2 ^ width) {shifts : List ℕ}
    (fits : ∀ shift ∈ shifts, width + shift ≤ 64) (bound' : start < 2 ^ 64) :
    ((shifts.map (shiftedIntegerFromBits words (bitsOf width value))).foldlM
      (integerAddNoOverflow words · · heightBits) (words.ofNat start)).Enforces
      (start + value * (shifts.map (2 ^ ·)).sum < 2 ^ 64)
      (words.ofNat (start + value * (shifts.map (2 ^ ·)).sum)) := by
  induction shifts generalizing start with
  | nil => exact (Enforces.pure _).congr (by simpa using bound') fun _ => by simp
  | cons shift shifts ih =>
    obtain ⟨here, later⟩ := forall_mem_cons.mp fits
    rw [map_cons, foldlM_cons, shiftedIntegerFromBits_bitsOf words bound, map_cons, sum_cons,
      mul_add, ← add_assoc]
    refine ((integerAddNoOverflow_enforces words bound' (shifted_lt bound here)).bind
      fun small => ih later small).congr ?_ fun _ => rfl
    exact ⟨And.right, fun small => ⟨by omega, small⟩⟩

section Divide

variable {height divisor quotientWidth remainderWidth shift : ℕ} {shifts : List ℕ}
  (bound : height < 2 ^ 64) (sum : divisor = ((shift :: shifts).map (2 ^ ·)).sum)
  (fits : ∀ place ∈ shift :: shifts, quotientWidth + place ≤ 64)
  (small : divisor < 2 ^ remainderWidth) (narrow : remainderWidth ≤ 64)

include bound sum fits small narrow

theorem recomposeHeight_enforces {quotient : ℕ} (inside : quotient < 2 ^ quotientWidth)
    (remainder : K) :
    (recomposeHeight words (words.ofNat height) divisor (shift :: shifts)
      (bitsOf quotientWidth quotient) remainder remainderWidth).Enforces
      (words.toNat remainder < divisor ∧ height = quotient * divisor + words.toNat remainder)
      (bitsOf quotientWidth quotient, flag (decide (words.toNat remainder = 0))) := by
  obtain ⟨here, later⟩ := forall_mem_cons.mp fits
  have term := shifted_lt inside here
  have ranged := rangeCheckBits_enforces words remainder (narrow.trans (by decide : 64 ≤ 128))
  have narrowed : 2 ^ remainderWidth ≤ 2 ^ 64 := Nat.pow_le_pow_right two_pos narrow
  have product : quotient * 2 ^ shift + quotient * (shifts.map (2 ^ ·)).sum =
      quotient * divisor := by
    rw [sum, map_cons, sum_cons, mul_add]
  have folded := foldlM_shifted_enforces words inside later term
  rw [product, ← shiftedIntegerFromBits_bitsOf words inside] at folded
  have checked : (recomposeHeight words (words.ofNat height) divisor (shift :: shifts)
      (bitsOf quotientWidth quotient) remainder remainderWidth).Enforces
      (words.toNat remainder < 2 ^ remainderWidth ∧ words.toNat remainder < divisor ∧
        quotient * divisor < 2 ^ 64 ∧ quotient * divisor + words.toNat remainder < 2 ^ 64 ∧
        words.ofNat height = words.ofNat (quotient * divisor + words.toNat remainder))
      (bitsOf quotientWidth quotient, flag (decide (words.toNat remainder = 0))) := by
    refine ranged.bind fun bounded => ?_
    apply (rangeCheckBits_ofNat words (narrow.trans (by decide)) small).true_bind
    refine (pinLtStrict_enforces bounded small).bind fun less => ?_
    refine folded.bind fun fitting => ?_
    have added := integerAddNoOverflow_enforces words fitting (bounded.trans_le narrowed)
    rw [words.ofNat_toNat] at added
    refine added.bind fun _ => ?_
    rw [← zeroBits_bitsOf bounded]
    exact (Enforces.pinEq _ _).map _
  refine checked.congr ?_ fun _ => rfl
  constructor
  · rintro ⟨-, less, -, fitting, same⟩
    have equal := congrArg words.toNat same
    rw [words.toNat_ofNat (bound.trans (by decide)),
      words.toNat_ofNat (fitting.trans (by decide))] at equal
    exact ⟨less, equal⟩
  · rintro ⟨less, rfl⟩
    exact ⟨less.trans small, less, by omega, bound, rfl⟩

theorem divideByFourBitConstant_enforces (pos : 0 < divisor)
    (wide : 2 ^ 64 ≤ divisor * 2 ^ quotientWidth) :
    (divideByFourBitConstant words (words.ofNat height) height divisor (shift :: shifts)
      quotientWidth remainderWidth).Enforces True
      (bitsOf quotientWidth (height / divisor), flag (decide (height % divisor = 0))) := by
  have unique {quotient remainder : ℕ} (less : remainder < divisor)
      (same : height = quotient * divisor + remainder) :
      height / divisor = quotient ∧ height % divisor = remainder :=
    (Nat.div_mod_unique pos).mpr ⟨by rw [same]; ring, less⟩
  have inside : height / divisor < 2 ^ quotientWidth := Nat.div_lt_of_lt_mul (bound.trans_le wide)
  have recomposed := fun {quotient : ℕ} (inside : quotient < 2 ^ quotientWidth) =>
    recomposeHeight_enforces words bound sum fits small narrow inside
  have quotientFits : quotientWidth ≤ 128 := by
    have := fits shift mem_cons_self
    omega
  apply Enforces.wire
  · intro assigned result accepted
    obtain ⟨bits, ranged, rest⟩ := accepts_bind.mp accepted
    obtain ⟨inside, rfl⟩ := (rangeCheckBits_enforces words assigned quotientFits).sound ranged
    obtain ⟨remainder, -, rest⟩ := accepts_bind.mp rest
    obtain ⟨less, same⟩ := ((recomposed inside remainder).sound rest).1
    rw [(unique less same).1, words.ofNat_toNat]
  · apply (rangeCheckBits_ofNat words quotientFits inside).true_bind
    apply Enforces.wire
    · intro assigned result accepted
      obtain ⟨less, same⟩ := ((recomposed inside assigned).sound accepted).1
      rw [(unique less same).2, words.ofNat_toNat]
    · have last := recomposed inside (words.ofNat (height % divisor))
      have less := Nat.mod_lt height pos
      rw [words.toNat_ofNat ((Nat.mod_le height divisor).trans_lt
        (bound.trans (by decide)))] at last
      exact last.sure ⟨less, (Nat.div_add_mod' height divisor).symm⟩

end Divide

section Schedule

variable {height : ℕ} (bound : height < 2 ^ heightBits)

def allocationTrace (height : ℕ) (allocation : DevelopmentAllocation) :
    DevelopmentAllocationTrace K where
  active := flag allocation.active
  payoutDue := flag allocation.payoutDue
  shareEach := words.ofNat allocation.shareEach
  minerSubsidy := words.ofNat allocation.minerSubsidy
  payoutEach := words.ofNat (allocation.payoutEach.getD 0)
  emissionTiers := oneHot tierRewards.length (halvingsAt height)

def PaysNative (allocation : DevelopmentAllocation) (amount : K) : Prop :=
  allocation.payoutDue = true → allocation.payoutEach.map words.ofNat = some amount

include bound

theorem bindTierRewards_enforces {activation : Option ℕ} {active payoutDue : K}
    (activeFlag : active = flag (developmentAllocationActiveWith height activation))
    (dueFlag : payoutDue = flag (developmentPayoutDueWith height activation))
    {payoutForEra : List K → K}
    (era : payoutForEra (oneHot tierRewards.length (halvingsAt height)) =
      words.ofNat (blockReward height / developmentShareDenominator *
        developmentPayoutIntervalWith height activation)) (payoutRawAmount : K) :
    (bindTierRewards words (bitsOf heightBits height) active payoutDue payoutForEra
      payoutRawAmount).Enforces
      (PaysNative words (developmentScheduleAt activation height) payoutRawAmount)
      (allocationTrace words height (developmentScheduleAt activation height)) := by
  have full := selectedTierConstant_oneHot words id height
  rw [map_id] at full
  simp only [bindTierRewards, halvingTierOneHot_eq bound, era, full,
    selectedTierConstant_oneHot words, activeFlag, dueFlag]
  refine ((Enforces.pinEq _ _).map _).congr ?_ fun _ => ?_
  · rw [PaysNative, developmentScheduleAt]
    cases developmentPayoutDueWith height activation <;> simp [eq_comm]
  · rw [allocationTrace, developmentScheduleAt, minerSubsidyWith]
    cases developmentAllocationActiveWith height activation <;>
      cases developmentPayoutDueWith height activation <;>
        simp [words.ofNat_zero, CharTwo.add_cancel_left]

theorem bindDevelopmentAllocation_enforces (payoutRawAmount : K) :
    (bindDevelopmentAllocation words (words.ofNat height) payoutRawAmount).Enforces
      (PaysNative words (developmentScheduleAt none height) payoutRawAmount)
      (allocationTrace words height (developmentScheduleAt none height)) := by
  have divided := divideByFourBitConstant_enforces words bound
    (show developmentPayoutInterval90s = ([9, 8, 7, 6].map (2 ^ ·)).sum from rfl)
    (show ∀ shift ∈ [9, 8, 7, 6], payoutQuotientBits + shift ≤ 64 by decide)
    (show developmentPayoutInterval90s < 2 ^ payoutRemainderBits by decide) (by decide) (by decide)
    (by decide)
  rw [bindDevelopmentAllocation, words.toNat_ofNat (bound.trans (by decide))]
  apply (rangeCheckBits_ofNat words (by decide) bound).true_bind
  apply divided.true_bind
  have active : lessThanBits (bitsOf heightBits height)
      (constantBits (developmentAllocationEndHeightWith none + 1) heightBits) *
        (zeroBits (bitsOf heightBits height) + 1) =
      (flag (developmentAllocationActiveWith height none) : K) := by
    rw [constantBits_eq, lessThanBits_bitsOf bound (show _ < 2 ^ heightBits by decide),
      zeroBits_bitsOf bound, flag_add_one, flag_mul, developmentAllocationActiveWith]
    congr 1
    rw [← decide_not, ← Bool.decide_and, decide_eq_decide]
    omega
  refine bindTierRewards_enforces words bound active ?_ ?_ payoutRawAmount
  · rw [active, flag_mul]
    rfl
  · exact selectedTierConstant_oneHot words _ height

theorem bindDevelopmentAllocationV1_5_enforces {activation : ℕ}
    (valid : ValidActivation (some activation)) (payoutRawAmount : K) :
    (bindDevelopmentAllocationV1_5 words (words.ofNat height) payoutRawAmount
      (words.ofNat activation)).Enforces
      (PaysNative words (developmentScheduleAt (some activation) height) payoutRawAmount)
      (allocationTrace words height (developmentScheduleAt (some activation) height)) := by
  obtain ⟨early, bounded, rfl⟩ := validActivation_some valid
  have divided := divideByFourBitConstant_enforces words bound
    (show developmentPayoutInterval180s = ([8, 7, 6, 5].map (2 ^ ·)).sum from rfl)
    (show ∀ shift ∈ [8, 7, 6, 5], payoutQuotientBits180s + shift ≤ 64 by decide)
    (show developmentPayoutInterval180s < 2 ^ payoutRemainderBits180s by decide) (by decide)
    (by decide) (by decide)
  have opened : 960 * early < 2 ^ heightBits := show 960 * early < 2 ^ 64 by omega
  have half : 960 * early / 2 = 480 * early := by omega
  have ends : 480 * early + v1_5EndHeightBase < 2 ^ heightBits :=
    show 480 * early + 350400 < 2 ^ 64 by omega
  have added := integerAddNoOverflow_enforces words (show 480 * early < 2 ^ 64 by omega)
    (show v1_5EndHeightBase < 2 ^ 64 by decide)
  have halved : shiftedIntegerFromBits words (bitsOf heightBits (960 * early) : List K).tail 0 =
      words.ofNat (480 * early) := by
    have shifted := shiftedIntegerFromBits_bitsOf words (show 480 * early < 2 ^ 63 by omega) 0
    rw [pow_zero, mul_one, ← half] at shifted
    rw [← half]
    exact shifted
  rw [← halved] at added
  rw [bindDevelopmentAllocationV1_5, words.toNat_ofNat (bound.trans (by decide))]
  apply (rangeCheckBits_ofNat words (by decide) bound).true_bind
  apply (rangeCheckBits_ofNat words (by decide) opened).true_bind
  apply (added.sure ends).true_bind
  apply (rangeCheckBits_ofNat words (by decide) ends).true_bind
  apply divided.true_bind
  have active : (lessThanBits (bitsOf heightBits (480 * early + v1_5EndHeightBase))
      (bitsOf heightBits height) + 1) * (zeroBits (bitsOf heightBits height) + 1) =
      (flag (developmentAllocationActiveWith height (some (960 * early))) : K) := by
    rw [lessThanBits_bitsOf ends bound, zeroBits_bitsOf bound, flag_add_one, flag_add_one, flag_mul,
      developmentAllocationActiveWith, developmentAllocationEndHeightWith_some]
    congr 1
    rw [← decide_not, ← decide_not, ← Bool.decide_and, decide_eq_decide,
      show v1_5EndHeightBase = 350400 from rfl]
    omega
  have after := @lessThanBits_bitsOf K _ _ _ _ _ opened bound
  refine bindTierRewards_enforces words bound active ?_ ?_ payoutRawAmount
  · have parity : (bitsOf payoutQuotientBits180s (height / developmentPayoutInterval180s) :
        List K).headD 0 = flag ((height / developmentPayoutInterval180s).testBit 0) := rfl
    rw [active, parity, after, flag_add_one, flag_add_one, flag_mul, flag_add, flag_mul, flag_mul]
    congr 1
    rw [Bool.eq_iff_iff, payoutDue_iff_phase, payoutPhase_some, Bool.and_eq_true,
      developmentAllocationActiveWith, decide_eq_true_eq, Nat.testBit_zero]
    refine and_congr_right fun _ => ?_
    rw [show developmentPayoutInterval180s = 480 from rfl]
    split_ifs with later
    · simp [later]
      omega
    · simp [later]
      omega
  · simp only [payoutsFor, selectedTierConstant_oneHot words, after,
      developmentPayoutIntervalWith_some]
    split_ifs with later
    · simp [later, CharTwo.add_cancel_left]
      rfl
    · simp [later]
      rfl

theorem v1_5ActivationFromRootHeight_enforces :
    (v1_5ActivationFromRootHeight words (words.ofNat height)).Enforces (height + 1 < 2 ^ 64)
      (words.ofNat (if height = 0 then 0 else height + 1)) := by
  apply (rangeCheckBits_ofNat words (by decide) bound).true_bind
  refine (integerAddNoOverflow_enforces words bound (by decide)).bind_true fun _ => ?_
  have value : (zeroBits (bitsOf heightBits height) + 1) * words.ofNat (height + 1) =
      words.ofNat (if height = 0 then 0 else height + 1) := by
    rw [zeroBits_bitsOf bound, flag_add_one]
    split_ifs with zero <;> simp [zero, words.ofNat_zero]
  rw [value]
  exact .pure _

/-- The tiers select the reward of the height, and both gadgets force the fields of the native
allocation and accept exactly its payout. -/
theorem developmentAllocation_native :
    (halvingsAt height < tierRewards.length ∧
      tierRewards.getD (halvingsAt height) 0 = blockReward height) ∧
    (∀ activation, 960 ∣ activation → activation ≤ 700800 →
      ∃ allocation, developmentAllocationWith height (some activation) = .ok allocation ∧
        ∀ amount, (bindDevelopmentAllocationV1_5 words (words.ofNat height) amount
          (words.ofNat activation)).Enforces (PaysNative words allocation amount)
          (allocationTrace words height allocation)) ∧
    (∃ allocation, developmentAllocationWith height none = .ok allocation ∧
      ∀ amount, (bindDevelopmentAllocation words (words.ofNat height) amount).Enforces
        (PaysNative words allocation amount) (allocationTrace words height allocation)) ∧
    (v1_5ActivationFromRootHeight words (words.ofNat height)).Enforces (height + 1 < 2 ^ 64)
      (words.ofNat (if height = 0 then 0 else height + 1)) := by
  refine ⟨⟨halvingsAt_lt height, tierRewards_halvingsAt height⟩, ?_, ?_, ?_⟩
  · rintro activation ⟨early, rfl⟩ latest
    have valid : ValidActivation (some (960 * early)) := by
      rintro _ ⟨⟩
      exact decide_eq_true (show 960 * early % 960 = 0 ∧ 960 * early / 960 ≤ 730 by omega)
    exact ⟨_, developmentAllocationWith_eq valid height,
      bindDevelopmentAllocationV1_5_enforces words bound valid⟩
  · exact ⟨_, developmentAllocationWith_eq (by simp [ValidActivation]) height,
      bindDevelopmentAllocation_enforces words bound⟩
  · exact v1_5ActivationFromRootHeight_enforces words bound

end Schedule

end Gadgets

theorem developmentAllocation_native_firstPayout :
    ∃ allocation, developmentAllocationWith 960 none = .ok allocation ∧
      ∀ amount, (bindDevelopmentAllocation towerWords (towerWords.ofNat 960) amount).Enforces
        (PaysNative towerWords allocation amount) (allocationTrace towerWords 960 allocation) :=
  (developmentAllocation_native towerWords (by decide)).2.2.1

end Jetsam
