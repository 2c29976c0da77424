import Jetsam.Consensus.Params

/-!
# Issuance

The block reward halves by height, and the last tier is cut so that the schedule sums to the cap.
Inside the launch window a twentieth of each reward is withheld for each of two funds; a payout
never exceeds what was withheld.
-/

namespace Jetsam

open Finset

def baseRewardMicro : Nat := 50000000

/-- The supply cap of 21,000,000 JTM, in μJTM. -/
def maxSupplyMicro : Nat := 21000000 * 1000000

def h1Height : Nat := 28800

def h2Height : Nat := 172800

def halvingInterval : Nat := 659000

def halvingCount : Nat := 7

/-- First height without a reward: the last tier trimmed to the cap. -/
def emissionEndHeight : Nat :=
  let finalTierReward := baseRewardMicro >>> (halvingCount - 1)
  let naiveTotal := (h1Height - 1) * baseRewardMicro +
    (h2Height - h1Height) * (baseRewardMicro >>> 1) +
    halvingInterval * ((baseRewardMicro >>> 2) + (baseRewardMicro >>> 3) +
      (baseRewardMicro >>> 4) + (baseRewardMicro >>> 5) + finalTierReward)
  let excess := naiveTotal - maxSupplyMicro
  h2Height + 5 * halvingInterval - excess / finalTierReward

def halvingsAt (height : Nat) : Nat :=
  if emissionEndHeight ≤ height then halvingCount
  else
    min halvingCount
      (if height < h1Height then 0
        else if height < h2Height then 1
        else 2 + (height - h2Height) / halvingInterval)

def blockReward (height : Nat) : Nat :=
  if halvingCount ≤ halvingsAt height then 0 else baseRewardMicro >>> halvingsAt height

theorem emissionEndHeight_eq : emissionEndHeight = 3467664 := by decide

/-- The tiers, spelled out. -/
theorem blockReward_eq (height : Nat) :
    blockReward height =
      if height < 28800 then 50000000
      else if height < 172800 then 25000000
      else if height < 831800 then 12500000
      else if height < 1490800 then 6250000
      else if height < 2149800 then 3125000
      else if height < 2808800 then 1562500
      else if height < 3467664 then 781250
      else 0 := by
  have tiers : halvingsAt height =
      if height < 28800 then 0
      else if height < 172800 then 1
      else if height < 831800 then 2
      else if height < 1490800 then 3
      else if height < 2149800 then 4
      else if height < 2808800 then 5
      else if height < 3467664 then 6
      else 7 := by
    simp only [halvingsAt, emissionEndHeight_eq, halvingCount, h1Height, h2Height, halvingInterval]
    grind
  have values : baseRewardMicro >>> 0 = 50000000 ∧ baseRewardMicro >>> 1 = 25000000 ∧
      baseRewardMicro >>> 2 = 12500000 ∧ baseRewardMicro >>> 3 = 6250000 ∧
      baseRewardMicro >>> 4 = 3125000 ∧ baseRewardMicro >>> 5 = 1562500 ∧
      baseRewardMicro >>> 6 = 781250 := by decide
  simp only [blockReward, tiers, halvingCount]
  grind

theorem blockReward_antitone : Antitone blockReward := by
  refine antitone_nat_of_succ_le fun height => ?_
  rw [blockReward_eq, blockReward_eq]
  grind

def rewardsThrough (height : Nat) : Nat := ∑ h ∈ Ico 1 (height + 1), blockReward h

private theorem tier_sum {low high reward : Nat}
    (constant : ∀ height, low ≤ height → height < high → blockReward height = reward) :
    ∑ height ∈ Ico low high, blockReward height = (high - low) * reward := by
  rw [sum_congr rfl fun height mem =>
    constant height (mem_Ico.mp mem).1 (mem_Ico.mp mem).2]
  simp

theorem sum_blockReward : ∑ height ∈ Ico 1 3467664, blockReward height = maxSupplyMicro := by
  have tier (low high reward : Nat)
      (constant : ∀ height, low ≤ height → height < high → blockReward height = reward) :
      ∑ height ∈ Ico low high, blockReward height = (high - low) * reward := tier_sum constant
  rw [← sum_Ico_consecutive _ (show 1 ≤ 28800 by norm_num) (show 28800 ≤ 3467664 by norm_num),
    ← sum_Ico_consecutive _ (show 28800 ≤ 172800 by norm_num)
      (show 172800 ≤ 3467664 by norm_num),
    ← sum_Ico_consecutive _ (show 172800 ≤ 831800 by norm_num)
      (show 831800 ≤ 3467664 by norm_num),
    ← sum_Ico_consecutive _ (show 831800 ≤ 1490800 by norm_num)
      (show 1490800 ≤ 3467664 by norm_num),
    ← sum_Ico_consecutive _ (show 1490800 ≤ 2149800 by norm_num)
      (show 2149800 ≤ 3467664 by norm_num),
    ← sum_Ico_consecutive _ (show 2149800 ≤ 2808800 by norm_num)
      (show 2808800 ≤ 3467664 by norm_num),
    tier 1 28800 50000000, tier 28800 172800 25000000, tier 172800 831800 12500000,
    tier 831800 1490800 6250000, tier 1490800 2149800 3125000, tier 2149800 2808800 1562500,
    tier 2808800 3467664 781250]
  · rfl
  all_goals
    intro height low high
    rw [blockReward_eq]
    grind

theorem rewardsThrough_le (height : Nat) : rewardsThrough height ≤ maxSupplyMicro := by
  rw [rewardsThrough, ← sum_blockReward]
  by_cases within : height + 1 ≤ 3467664
  · exact sum_le_sum_of_subset (Ico_subset_Ico_right within)
  · rw [← sum_Ico_consecutive _ (show 1 ≤ 3467664 by norm_num) (show 3467664 ≤ height + 1 by omega)]
    have ended : ∑ h ∈ Ico 3467664 (height + 1), blockReward h = 0 := by
      refine sum_eq_zero fun h mem => ?_
      rw [blockReward_eq]
      grind
    omega

def developmentPayoutInterval90s : Nat := 960

def developmentPayoutInterval180s : Nat := 480

def developmentAllocationPayouts : Nat := 365 * 2

/-- One fund's share is a twentieth of the reward. -/
def developmentShareDenominator : Nat := 20

/-- Activation height of the 480-block cadence on the public network. -/
def v1_5ActivationHeight : Option Nat := some 38400

def v1_5ActivationIsValid (activation : Nat) : Bool :=
  activation % developmentPayoutInterval90s = 0 ∧
    activation / developmentPayoutInterval90s ≤ developmentAllocationPayouts

def developmentAllocationEndHeightWith : Option Nat → Nat
  | none => developmentAllocationPayouts * developmentPayoutInterval90s
  | some activation =>
    activation + (developmentAllocationPayouts - activation / developmentPayoutInterval90s) *
      developmentPayoutInterval180s

def developmentAllocationActiveWith (height : Nat) (activation : Option Nat) : Bool :=
  0 < height ∧ height ≤ developmentAllocationEndHeightWith activation

def developmentPayoutDueWith (height : Nat) (activation : Option Nat) : Bool :=
  developmentAllocationActiveWith height activation &&
    match activation with
    | some activation =>
      if activation < height then (height - activation) % developmentPayoutInterval180s == 0
      else height % developmentPayoutInterval90s == 0
    | none => height % developmentPayoutInterval90s == 0

def developmentPayoutIntervalWith (height : Nat) : Option Nat → Nat
  | some activation =>
    if activation < height then developmentPayoutInterval180s else developmentPayoutInterval90s
  | none => developmentPayoutInterval90s

structure DevelopmentAllocation where
  active : Bool
  payoutDue : Bool
  shareEach : Nat
  payoutEach : Option Nat
  minerSubsidy : Nat
  deriving DecidableEq

inductive DevelopmentAllocationError where
  | inexactRewardShare
  | payoutOverflow
  | invalidV1_5Activation
  deriving DecidableEq

def developmentShareEach (subsidy : Nat) : Except DevelopmentAllocationError Nat :=
  if subsidy % developmentShareDenominator = 0 then .ok (subsidy / developmentShareDenominator)
  else .error .inexactRewardShare

def developmentAllocationWith (childHeight : Nat) (activation : Option Nat) :
    Except DevelopmentAllocationError DevelopmentAllocation := do
  if activation.any fun height => !v1_5ActivationIsValid height then
    throw .invalidV1_5Activation
  let subsidy := blockReward childHeight
  if developmentAllocationActiveWith childHeight activation then
    let shareEach ← developmentShareEach subsidy
    let payoutDue := developmentPayoutDueWith childHeight activation
    let payout := shareEach * developmentPayoutIntervalWith childHeight activation
    if payoutDue ∧ u64Bound ≤ payout then
      throw .payoutOverflow
    return { active := true, payoutDue, shareEach,
             payoutEach := if payoutDue then some payout else none,
             minerSubsidy := subsidy - 2 * shareEach }
  else
    return { active := false, payoutDue := false, shareEach := 0, payoutEach := none,
             minerSubsidy := subsidy }

def minerSubsidyWith (height : Nat) (activation : Option Nat) : Nat :=
  let subsidy := blockReward height
  if developmentAllocationActiveWith height activation then
    subsidy - 2 * (subsidy / developmentShareDenominator)
  else
    subsidy

/-- Amount of each payout output, zero where none is due. -/
def developmentPayoutEach (height : Nat) (activation : Option Nat) : Nat :=
  if developmentPayoutDueWith height activation then
    blockReward height / developmentShareDenominator *
      developmentPayoutIntervalWith height activation
  else
    0

variable {height : Nat} {activation : Option Nat}

theorem developmentAllocationWith_eq_ok {allocation : DevelopmentAllocation}
    (accepted : developmentAllocationWith height activation = .ok allocation) :
    allocation.minerSubsidy = minerSubsidyWith height activation ∧
      allocation.payoutEach.getD 0 = developmentPayoutEach height activation ∧
      allocation.payoutDue = developmentPayoutDueWith height activation ∧
      allocation.payoutEach.isSome = allocation.payoutDue := by
  simp only [developmentAllocationWith] at accepted
  split at accepted
  · cases accepted
  · cases active : developmentAllocationActiveWith height activation with
    | false =>
      have due : developmentPayoutDueWith height activation = false := by
        simp [developmentPayoutDueWith, active]
      simp only [active, Bool.false_eq_true, if_false] at accepted
      cases accepted
      simp [minerSubsidyWith, developmentPayoutEach, active, due]
    | true =>
      simp only [active, if_true, developmentShareEach] at accepted
      split at accepted
      · simp only [bind, Except.bind] at accepted
        split at accepted
        · cases accepted
        · cases accepted
          cases due : developmentPayoutDueWith height activation <;>
            simp [minerSubsidyWith, developmentPayoutEach, active, due]
      · cases accepted

def payoutPhase (height : Nat) : Option Nat → Nat
  | some activation =>
    if activation < height then (height - activation) % developmentPayoutInterval180s
    else height % developmentPayoutInterval90s
  | none => height % developmentPayoutInterval90s

/-- An activation that the allocation accepts. -/
def ValidActivation (activation : Option Nat) : Prop :=
  ∀ height ∈ activation, v1_5ActivationIsValid height = true

instance (activation : Option Nat) : Decidable (ValidActivation activation) := by
  unfold ValidActivation
  infer_instance

/-- A block either closes the running batch or lengthens it by one. -/
theorem payoutPhase_succ (valid : ValidActivation activation) (height : Nat) :
    payoutPhase (height + 1) activation = payoutPhase height activation + 1 ∨
      payoutPhase (height + 1) activation = 0 ∧
        developmentPayoutIntervalWith (height + 1) activation =
          payoutPhase height activation + 1 := by
  cases activation with
  | none =>
    simp only [payoutPhase, developmentPayoutIntervalWith, developmentPayoutInterval90s]
    omega
  | some activation =>
    have aligned : activation % 960 = 0 := by
      have := valid activation rfl
      simp only [v1_5ActivationIsValid, decide_eq_true_eq] at this
      exact this.1
    simp only [payoutPhase, developmentPayoutIntervalWith, developmentPayoutInterval90s,
      developmentPayoutInterval180s]
    split_ifs <;> omega

theorem developmentPayoutDueWith_eq
    (active : developmentAllocationActiveWith height activation = true) :
    developmentPayoutDueWith height activation = decide (payoutPhase height activation = 0) := by
  cases activation with
  | none =>
    simp only [developmentPayoutDueWith, active, payoutPhase, Bool.true_and]
    rfl
  | some activation =>
    simp only [developmentPayoutDueWith, active, payoutPhase, Bool.true_and]
    split <;> simp [beq_eq_decide]

/-- What the two funds are withheld at a height. -/
def developmentWithheld (height : Nat) (activation : Option Nat) : Nat :=
  if developmentAllocationActiveWith height activation then
    2 * (blockReward height / developmentShareDenominator)
  else
    0

theorem sum_heights_succ (issued : Nat → Nat) (height : Nat) :
    ∑ h ∈ Ico 1 (height + 1 + 1), issued h =
      ∑ h ∈ Ico 1 (height + 1), issued h + issued (height + 1) :=
  sum_Ico_succ_top (Nat.le_add_left 1 height) issued

/-- Inside the window, the payouts made and the batch running never exceed what was withheld. -/
theorem payouts_add_running_le (valid : ValidActivation activation)
    (inWindow : height ≤ developmentAllocationEndHeightWith activation) :
    ∑ h ∈ Ico 1 (height + 1), 2 * developmentPayoutEach h activation +
        2 * (blockReward height / developmentShareDenominator * payoutPhase height activation) ≤
      ∑ h ∈ Ico 1 (height + 1), developmentWithheld h activation := by
  induction height with
  | zero => cases activation <;> simp [payoutPhase]
  | succ height ih =>
    have active : developmentAllocationActiveWith (height + 1) activation = true := by
      simp [developmentAllocationActiveWith, inWindow]
    rw [sum_heights_succ, sum_heights_succ]
    -- The tier of the new block is no higher than the tier of the batch it closes or extends.
    have share_le : blockReward (height + 1) / developmentShareDenominator ≤
        blockReward height / developmentShareDenominator :=
      Nat.div_le_div_right (blockReward_antitone (Nat.le_succ height))
    have batch_le := Nat.mul_le_mul_right (payoutPhase height activation) share_le
    have withheld : developmentWithheld (height + 1) activation =
        2 * (blockReward (height + 1) / developmentShareDenominator) := by
      simp [developmentWithheld, active]
    rcases payoutPhase_succ valid height with extended | ⟨closed, interval⟩
    · have notDue : developmentPayoutEach (height + 1) activation = 0 := by
        simp [developmentPayoutEach, developmentPayoutDueWith_eq active, extended]
      rw [notDue, withheld, extended, mul_add]
      omega
    · have due : developmentPayoutEach (height + 1) activation =
          blockReward (height + 1) / developmentShareDenominator *
            (payoutPhase height activation + 1) := by
        simp [developmentPayoutEach, developmentPayoutDueWith_eq active, closed, interval]
      rw [due, withheld, closed, mul_add]
      omega

/-- Payouts never exceed what was withheld, inside the window and after it. -/
theorem payouts_le_withheld (valid : ValidActivation activation) (height : Nat) :
    ∑ h ∈ Ico 1 (height + 1), 2 * developmentPayoutEach h activation ≤
      ∑ h ∈ Ico 1 (height + 1), developmentWithheld h activation := by
  induction height with
  | zero => simp
  | succ height ih =>
    by_cases inWindow : height + 1 ≤ developmentAllocationEndHeightWith activation
    · exact (Nat.le_add_right _ _).trans (payouts_add_running_le valid inWindow)
    · have notDue : developmentPayoutEach (height + 1) activation = 0 := by
        simp [developmentPayoutEach, developmentPayoutDueWith, developmentAllocationActiveWith,
          inWindow]
      rw [sum_heights_succ, sum_heights_succ, notDue]
      omega

theorem minerSubsidyWith_add_withheld (height : Nat) (activation : Option Nat) :
    minerSubsidyWith height activation + developmentWithheld height activation =
      blockReward height := by
  have half : 2 * (blockReward height / developmentShareDenominator) ≤ blockReward height := by
    have := Nat.div_mul_le_self (blockReward height) developmentShareDenominator
    simp only [developmentShareDenominator] at this ⊢
    omega
  simp only [minerSubsidyWith, developmentWithheld]
  split_ifs <;> omega

/-- Miners and funds together are never issued more than the rewards of the applied heights. -/
theorem issuance_le_rewardsThrough (valid : ValidActivation activation) (height : Nat) :
    ∑ h ∈ Ico 1 (height + 1),
        (minerSubsidyWith h activation + 2 * developmentPayoutEach h activation) ≤
      rewardsThrough height := by
  calc
    _ = ∑ h ∈ Ico 1 (height + 1), minerSubsidyWith h activation +
          ∑ h ∈ Ico 1 (height + 1), 2 * developmentPayoutEach h activation := sum_add_distrib
    _ ≤ ∑ h ∈ Ico 1 (height + 1), minerSubsidyWith h activation +
          ∑ h ∈ Ico 1 (height + 1), developmentWithheld h activation :=
      Nat.add_le_add_left (payouts_le_withheld valid height) _
    _ = ∑ h ∈ Ico 1 (height + 1),
          (minerSubsidyWith h activation + developmentWithheld h activation) :=
      sum_add_distrib.symm
    _ = rewardsThrough height :=
      sum_congr rfl fun h _ => minerSubsidyWith_add_withheld h activation

end Jetsam
