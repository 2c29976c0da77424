import Mathlib.Order.SuccPred.IntervalSucc
import Jetsam.Consensus.Emission

/-!
# The development schedule

Payout heights form a sequence of boundaries: it starts at genesis, takes steps of 960 blocks up to
the activation height and of 480 after it, and its 730th member closes the window. A payout pays for
the step that ends in it.
-/

namespace Jetsam

open Finset

/-- The height of a payout counted from one; the zeroth boundary is genesis. -/
def payoutBoundary : Option Nat → Nat → Nat
  | none, count => developmentPayoutInterval90s * count
  | some activation, count =>
    let early := activation / developmentPayoutInterval90s
    if count ≤ early then developmentPayoutInterval90s * count
    else activation + developmentPayoutInterval180s * (count - early)

def paidHeights (height : Nat) (activation : Option Nat) : Finset Nat :=
  Ioc (height - developmentPayoutIntervalWith height activation) height

variable {height : Nat}

theorem validActivation_some (valid : ValidActivation (some height)) :
    ∃ early ≤ 730, height = 960 * early := by
  have checked : height % 960 = 0 ∧ height / 960 ≤ 730 := of_decide_eq_true (valid height rfl)
  exact ⟨height / 960, checked.2, by omega⟩

theorem payoutBoundary_some (early count : Nat) :
    payoutBoundary (some (960 * early)) count =
      if count ≤ early then 960 * count else 960 * early + 480 * (count - early) := by
  have cancel : 960 * early / developmentPayoutInterval90s = early :=
    Nat.mul_div_cancel_left early (by decide)
  simp only [payoutBoundary, cancel]
  rfl

theorem developmentAllocationEndHeightWith_some (early : Nat) :
    developmentAllocationEndHeightWith (some (960 * early)) =
      960 * early + (730 - early) * 480 := by
  have cancel : 960 * early / developmentPayoutInterval90s = early :=
    Nat.mul_div_cancel_left early (by decide)
  simp only [developmentAllocationEndHeightWith, cancel]
  rfl

theorem developmentPayoutIntervalWith_some (height opened : Nat) :
    developmentPayoutIntervalWith height (some opened) = if opened < height then 480 else 960 :=
  rfl

theorem payoutPhase_some (height opened : Nat) :
    payoutPhase height (some opened) =
      if opened < height then (height - opened) % 480 else height % 960 :=
  rfl

variable {activation : Option Nat}

/-- A payout is due where the window is open and a batch is complete. -/
theorem payoutDue_iff_phase :
    developmentPayoutDueWith height activation = true ↔
      (0 < height ∧ height ≤ developmentAllocationEndHeightWith activation) ∧
        payoutPhase height activation = 0 := by
  cases active : developmentAllocationActiveWith height activation with
  | false =>
    have outside := of_decide_eq_false active
    simp [developmentPayoutDueWith, active, outside]
  | true =>
    have inside := of_decide_eq_true active
    rw [developmentPayoutDueWith_eq active, decide_eq_true_eq]
    exact (and_iff_right inside).symm

theorem payoutBoundary_zero (activation : Option Nat) : payoutBoundary activation 0 = 0 := by
  cases activation <;> simp [payoutBoundary]

section Boundaries

variable {activation : Option Nat} (valid : ValidActivation activation)
include valid

theorem payoutBoundary_last :
    payoutBoundary activation developmentAllocationPayouts =
      developmentAllocationEndHeightWith activation := by
  cases activation with
  | none => rfl
  | some height =>
    obtain ⟨early, bounded, rfl⟩ := validActivation_some valid
    rw [payoutBoundary_some, developmentAllocationEndHeightWith_some,
      show developmentAllocationPayouts = 730 from rfl]
    split_ifs <;> omega

theorem payoutBoundary_succ (count : Nat) :
    payoutBoundary activation (count + 1) = payoutBoundary activation count +
      developmentPayoutIntervalWith (payoutBoundary activation (count + 1)) activation := by
  cases activation with
  | none => exact Nat.mul_succ developmentPayoutInterval90s count
  | some height =>
    obtain ⟨early, bounded, rfl⟩ := validActivation_some valid
    rw [developmentPayoutIntervalWith_some, payoutBoundary_some, payoutBoundary_some]
    split_ifs <;> omega

theorem payoutBoundary_strictMono : StrictMono (payoutBoundary activation) := by
  apply strictMono_nat_of_lt_succ
  intro count
  have step := payoutBoundary_succ valid count
  have pos : 0 < developmentPayoutIntervalWith (payoutBoundary activation (count + 1))
      activation := by
    cases activation with
    | none => exact Nat.zero_lt_succ 959
    | some height =>
      rw [developmentPayoutIntervalWith_some]
      split_ifs <;> norm_num
  omega

variable {height : Nat}

theorem developmentPayoutDueWith_iff :
    developmentPayoutDueWith height activation = true ↔
      ∃ count < developmentAllocationPayouts, payoutBoundary activation (count + 1) = height := by
  rw [payoutDue_iff_phase]
  cases activation with
  | none =>
    change (0 < height ∧ height ≤ 730 * 960) ∧ height % 960 = 0 ↔
      ∃ count < 730, 960 * (count + 1) = height
    constructor
    · intro due
      exact ⟨height / 960 - 1, by omega, by omega⟩
    · rintro ⟨count, inside, rfl⟩
      omega
  | some opened =>
    obtain ⟨early, bounded, rfl⟩ := validActivation_some valid
    simp only [developmentAllocationEndHeightWith_some, payoutPhase_some, payoutBoundary_some]
    change _ ↔ ∃ count < 730, _
    constructor
    · rintro ⟨active, due⟩
      -- The batch that ends here is one of the long ones or one of the short ones.
      split_ifs at due with after
      · refine ⟨early + (height - 960 * early) / 480 - 1, by omega, ?_⟩
        rw [if_neg (by omega)]
        omega
      · refine ⟨height / 960 - 1, by omega, ?_⟩
        rw [if_pos (by omega)]
        omega
    · rintro ⟨count, inside, rfl⟩
      split_ifs <;> omega

theorem encard_payouts :
    {height | developmentPayoutDueWith height activation = true}.encard =
      developmentAllocationPayouts := by
  have boundaries : {height | developmentPayoutDueWith height activation = true} =
      (fun count => payoutBoundary activation (count + 1)) ''
        {count | count < developmentAllocationPayouts} := by
    ext height
    exact developmentPayoutDueWith_iff valid
  have injective : Function.Injective fun count => payoutBoundary activation (count + 1) := by
    intro first second same
    exact Nat.succ_injective ((payoutBoundary_strictMono valid).injective same)
  rw [boundaries, injective.encard_image, Set.Nat.encard_range]

theorem paidHeights_boundary (count : Nat) :
    paidHeights (payoutBoundary activation (count + 1)) activation =
      Ioc (payoutBoundary activation count) (payoutBoundary activation (count + 1)) := by
  have step := payoutBoundary_succ valid count
  rw [paidHeights]
  congr 1
  omega

theorem card_paidHeights (due : developmentPayoutDueWith height activation = true) :
    (paidHeights height activation).card = developmentPayoutIntervalWith height activation := by
  obtain ⟨count, inside, rfl⟩ := (developmentPayoutDueWith_iff valid).mp due
  have step := payoutBoundary_succ valid count
  rw [paidHeights_boundary valid, Nat.card_Ioc]
  omega

theorem paidHeights_subset (due : developmentPayoutDueWith height activation = true) :
    paidHeights height activation ⊆ Icc 1 (developmentAllocationEndHeightWith activation) := by
  obtain ⟨count, inside, rfl⟩ := (developmentPayoutDueWith_iff valid).mp due
  intro paid mem
  rw [paidHeights_boundary valid, mem_Ioc] at mem
  have last := (payoutBoundary_strictMono valid).monotone (Nat.succ_le_of_lt inside)
  rw [Nat.succ_eq_add_one, payoutBoundary_last valid] at last
  rw [mem_Icc]
  omega

theorem existsUnique_payout (pos : 1 ≤ height)
    (inWindow : height ≤ developmentAllocationEndHeightWith activation) :
    ∃! payout, developmentPayoutDueWith payout activation = true ∧
      height ∈ paidHeights payout activation := by
  have increasing := (payoutBoundary_strictMono valid).monotone
  have covered : height ∈ ⋃ count ∈ Set.Ico 0 developmentAllocationPayouts,
      Set.Ioc (payoutBoundary activation count) (payoutBoundary activation (count + 1)) := by
    have steps := increasing.biUnion_Ico_Ioc_map_succ 0 developmentAllocationPayouts
    rw [payoutBoundary_last valid, payoutBoundary_zero] at steps
    exact steps ▸ ⟨pos, inWindow⟩
  simp only [Set.mem_iUnion, exists_prop] at covered
  obtain ⟨count, inside, paid⟩ := covered
  refine ⟨payoutBoundary activation (count + 1),
    ⟨(developmentPayoutDueWith_iff valid).mpr ⟨count, inside.2, rfl⟩, ?_⟩, ?_⟩
  · rw [paidHeights_boundary valid]
    exact mem_Ioc.mpr paid
  · rintro payout ⟨due, otherPaid⟩
    obtain ⟨other, -, rfl⟩ := (developmentPayoutDueWith_iff valid).mp due
    rw [paidHeights_boundary valid, mem_Ioc] at otherPaid
    have same : other = count := by
      by_contra different
      have disjoint := increasing.pairwise_disjoint_on_Ioc_succ different
      exact Set.disjoint_left.mp disjoint otherPaid paid
    rw [same]

theorem developmentAllocationEndHeightWith_le :
    developmentAllocationEndHeightWith activation ≤ 700800 := by
  cases activation with
  | none => exact le_rfl
  | some height =>
    obtain ⟨early, bounded, rfl⟩ := validActivation_some valid
    rw [developmentAllocationEndHeightWith_some]
    omega

end Boundaries

theorem blockReward_divisible (inWindow : height ≤ 700800) :
    blockReward height % developmentShareDenominator = 0 := by
  rw [blockReward_eq, developmentShareDenominator]
  split_ifs <;> omega

theorem blockReward_le (height : Nat) : blockReward height ≤ baseRewardMicro := by
  rw [blockReward_eq, baseRewardMicro]
  split_ifs <;> norm_num

theorem payout_lt_u64Bound (height : Nat) (activation : Option Nat) :
    blockReward height / developmentShareDenominator *
      developmentPayoutIntervalWith height activation < u64Bound := by
  have interval_le : developmentPayoutIntervalWith height activation ≤ 960 := by
    cases activation with
    | none => exact le_rfl
    | some opened =>
      rw [developmentPayoutIntervalWith_some]
      split_ifs <;> norm_num
  calc
    _ ≤ baseRewardMicro * 960 :=
      Nat.mul_le_mul ((Nat.div_le_self _ _).trans (blockReward_le height)) interval_le
    _ < u64Bound := by decide

def developmentScheduleAt (activation : Option Nat) (height : Nat) : DevelopmentAllocation where
  active := developmentAllocationActiveWith height activation
  payoutDue := developmentPayoutDueWith height activation
  shareEach :=
    if developmentAllocationActiveWith height activation then
      blockReward height / developmentShareDenominator
    else 0
  payoutEach :=
    if developmentPayoutDueWith height activation then
      some (blockReward height / developmentShareDenominator *
        developmentPayoutIntervalWith height activation)
    else none
  minerSubsidy := minerSubsidyWith height activation

theorem developmentAllocationWith_eq (valid : ValidActivation activation) (height : Nat) :
    developmentAllocationWith height activation =
      .ok (developmentScheduleAt activation height) := by
  have accepted : (activation.any fun height => !v1_5ActivationIsValid height) = false := by
    cases activation with
    | none => rfl
    | some opened => simp [valid opened rfl]
  cases active : developmentAllocationActiveWith height activation with
  | false =>
    have due : developmentPayoutDueWith height activation = false := by
      simp [developmentPayoutDueWith, active]
    simp [developmentAllocationWith, developmentScheduleAt, minerSubsidyWith, accepted, active,
      due, pure, Except.pure]
  | true =>
    have inWindow := (of_decide_eq_true active).2
    have exactShare := blockReward_divisible
      (inWindow.trans (developmentAllocationEndHeightWith_le valid))
    have fits := not_le.mpr (payout_lt_u64Bound height activation)
    simp [developmentAllocationWith, developmentScheduleAt, developmentShareEach,
      minerSubsidyWith, accepted, active, exactShare, fits, bind, Except.bind, pure, Except.pure]

theorem developmentScheduleAt_dormant {opened : Nat} (valid : ValidActivation (some opened))
    (before : height ≤ opened) :
    developmentScheduleAt (some opened) height = developmentScheduleAt none height := by
  have active : developmentAllocationActiveWith height (some opened) =
      developmentAllocationActiveWith height none := by
    obtain ⟨early, bounded, rfl⟩ := validActivation_some valid
    have dormantEnd : developmentAllocationEndHeightWith none = 700800 := rfl
    rw [developmentAllocationActiveWith, developmentAllocationActiveWith,
      developmentAllocationEndHeightWith_some, dormantEnd, decide_eq_decide]
    omega
  have due : developmentPayoutDueWith height (some opened) =
      developmentPayoutDueWith height none := by
    simp [developmentPayoutDueWith, active, not_lt.mpr before]
  have interval : developmentPayoutIntervalWith height (some opened) =
      developmentPayoutIntervalWith height none := if_neg (not_lt.mpr before)
  simp only [developmentScheduleAt, minerSubsidyWith, active, due, interval]

/-- The schedule answers at every height, pays 730 times and for every height of the window once,
changes nothing before its activation and issues no more than the rewards. -/
structure SoundSchedule (activation : Option Nat) (schedule : Nat → DevelopmentAllocation) :
    Prop where
  answers : ∀ height, developmentAllocationWith height activation = .ok (schedule height)
  payouts : {height | (schedule height).payoutDue = true}.encard = 730
  priced : ∀ height, (schedule height).payoutDue = true →
    (schedule height).payoutEach =
      some ((schedule height).shareEach * (paidHeights height activation).card)
  inside : ∀ height, (schedule height).payoutDue = true →
    paidHeights height activation ⊆ Icc 1 (developmentAllocationEndHeightWith activation)
  covered : ∀ height ∈ Icc 1 (developmentAllocationEndHeightWith activation),
    ∃! payout, (schedule payout).payoutDue = true ∧ height ∈ paidHeights payout activation
  dormant : ∀ opened ∈ activation, ∀ height ≤ opened,
    developmentAllocationWith height none = .ok (schedule height)
  bounded : ∀ height,
    ∑ h ∈ Ico 1 (height + 1), ((schedule h).minerSubsidy + 2 * (schedule h).payoutEach.getD 0) ≤
      ∑ h ∈ Ico 1 (height + 1), blockReward h

/-- A multiple of 960 no later than the dormant window's end, or no activation at all, gives a sound
schedule. -/
theorem sound_developmentSchedule (activation : Option Nat)
    (valid : ∀ opened ∈ activation, 960 ∣ opened ∧ opened ≤ 700800) :
    ∃ schedule, SoundSchedule activation schedule := by
  have accepted : ValidActivation activation := by
    intro opened member
    obtain ⟨⟨early, rfl⟩, inside⟩ := valid opened member
    exact decide_eq_true (show 960 * early % 960 = 0 ∧ 960 * early / 960 ≤ 730 by omega)
  refine ⟨developmentScheduleAt activation, ?_, encard_payouts accepted, ?_, ?_, ?_, ?_, ?_⟩
  · exact developmentAllocationWith_eq accepted
  · intro height (due : developmentPayoutDueWith height activation = true)
    have active := decide_eq_true (payoutDue_iff_phase.mp due).1
    rw [card_paidHeights accepted due]
    simp only [developmentScheduleAt, due, if_true]
    rw [developmentAllocationActiveWith, active, if_pos rfl]
  · intro height due
    exact paidHeights_subset accepted due
  · intro height member
    obtain ⟨positive, inWindow⟩ := mem_Icc.mp member
    exact existsUnique_payout accepted positive inWindow
  · intro opened member height before
    obtain rfl := Option.mem_def.mp member
    rw [developmentScheduleAt_dormant accepted before]
    exact developmentAllocationWith_eq (by simp [ValidActivation]) height
  · intro height
    have payout (h : Nat) : ((developmentScheduleAt activation h).payoutEach.getD 0) =
        developmentPayoutEach h activation := by
      simp only [developmentScheduleAt, developmentPayoutEach]
      split <;> rfl
    simp only [payout]
    exact issuance_le_rewardsThrough accepted height

theorem sound_developmentSchedule_public :
    ∃ schedule, SoundSchedule v1_5ActivationHeight schedule :=
  sound_developmentSchedule v1_5ActivationHeight (by decide)

end Jetsam
