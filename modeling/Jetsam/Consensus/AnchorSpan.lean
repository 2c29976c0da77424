import Mathlib.Data.List.ReduceOption
import Jetsam.Consensus.Difficulty
import Jetsam.Consensus.HeaderRules

/-!
# The span of the difficulty rule

The rule compares the time from a reference block to the parent with the ideal time of the blocks in
between. The anchor is raised to every activation the parent has reached, so all blocks of a span
are on the parent's side of every activation.
-/

namespace Jetsam.DifficultySchedule

def anchorHeight (schedule : DifficultySchedule) (currentHeight : ℕ) : ℕ :=
  let epoch := currentHeight / epochLength * epochLength
  let v1_4 := floorAnchor currentHeight epoch schedule.v1_4Activation
  let v1_5 := floorAnchor currentHeight v1_4 schedule.v1_5Activation
  floorAnchor currentHeight v1_5 schedule.v1_6Activation

/-- The block from which the rule measures: the anchor, or the block below it under the v1.6 rule.
-/
def referenceHeight (schedule : DifficultySchedule) (currentHeight : ℕ) : ℕ :=
  if schedule.v1_6RuleAt (currentHeight + 1) then schedule.anchorHeight currentHeight - 1
  else schedule.anchorHeight currentHeight

def activations (schedule : DifficultySchedule) : List ℕ :=
  [schedule.v1_4Activation, schedule.v1_5Activation, schedule.v1_6Activation].reduceOption

variable (schedule : DifficultySchedule)

variable {currentHeight activation : ℕ}

theorem le_floorAnchor {anchor : ℕ} (reached : activation ≤ currentHeight) :
    activation ≤ floorAnchor currentHeight anchor (some activation) := by
  rw [floorAnchor]
  split <;> omega

theorem asertAnchorHeight_eq_anchorHeight {D : Type} {rules : HeaderRules D}
    (v1_4 : rules.v1_4Activation = schedule.v1_4Activation)
    (v1_5 : rules.v1_5Activation = schedule.v1_5Activation)
    (v1_6 : rules.v1_6Activation = schedule.v1_6Activation) (currentHeight : ℕ) :
    asertAnchorHeight rules currentHeight = schedule.anchorHeight currentHeight := by
  rw [asertAnchorHeight, anchorHeight, v1_4, v1_5, v1_6]

theorem anchorHeight_bounds (currentHeight : ℕ) :
    currentHeight ≤ schedule.anchorHeight currentHeight + 5 ∧
      schedule.anchorHeight currentHeight ≤ currentHeight := by
  let rules : HeaderRules Unit :=
    { checkpoints := []
      v1_4Activation := schedule.v1_4Activation
      v1_5Activation := schedule.v1_5Activation
      v1_6Activation := schedule.v1_6Activation
      expectedTarget := fun _ _ _ => 0
      powValid := fun _ => true }
  have same : asertAnchorHeight rules currentHeight = schedule.anchorHeight currentHeight :=
    schedule.asertAnchorHeight_eq_anchorHeight rfl rfl rfl currentHeight
  exact asertAnchorHeight_bounds rules currentHeight

theorem mem_activations :
    activation ∈ schedule.activations ↔
      schedule.v1_4Activation = some activation ∨ schedule.v1_5Activation = some activation ∨
        schedule.v1_6Activation = some activation := by
  simp [activations, List.reduceOption_mem_iff, eq_comm]

theorem activation_le_anchorHeight (armed : activation ∈ schedule.activations)
    (reached : activation ≤ currentHeight) :
    activation ≤ schedule.anchorHeight currentHeight := by
  have epoch : currentHeight / epochLength * epochLength ≤ currentHeight :=
    Nat.div_mul_le_self _ _
  have first := floorAnchor_bounds epoch schedule.v1_4Activation
  have second := floorAnchor_bounds first.2 schedule.v1_5Activation
  have third := floorAnchor_bounds second.2 schedule.v1_6Activation
  rw [anchorHeight]
  rcases schedule.mem_activations.mp armed with v1_4 | v1_5 | v1_6
  · rw [v1_4] at first second third ⊢
    exact (le_floorAnchor reached).trans (second.1.trans third.1)
  · rw [v1_5] at second third ⊢
    exact (le_floorAnchor reached).trans third.1
  · rw [v1_6]
    exact le_floorAnchor reached

theorem slowIntervals_zero (reference : ℕ) : schedule.slowIntervals reference 0 = 0 := by
  rw [slowIntervals]
  cases schedule.v1_5Activation <;> rfl

theorem slowIntervals_succ (reference intervals : ℕ) :
    schedule.slowIntervals reference (intervals + 1) =
      schedule.slowIntervals reference intervals +
        if schedule.v1_5Activation.any (· ≤ reference + (intervals + 1)) then 1 else 0 := by
  cases armed : schedule.v1_5Activation with
  | none => simp [slowIntervals, armed]
  | some activation =>
    simp only [slowIntervals, armed, Option.any_some, decide_eq_true_eq]
    split_ifs <;> omega

theorem slowIntervals_le (reference intervals : ℕ) :
    schedule.slowIntervals reference intervals ≤ intervals := by
  induction intervals with
  | zero => exact (schedule.slowIntervals_zero reference).le
  | succ intervals ih =>
    rw [slowIntervals_succ]
    split <;> omega

theorem sum_blockTimeAt (reference intervals : ℕ) :
    ∑ block ∈ Finset.Ioc reference (reference + intervals), schedule.blockTimeAt block =
      (intervals - schedule.slowIntervals reference intervals) * blockTime +
        schedule.slowIntervals reference intervals * blockTimeV1_5 := by
  induction intervals with
  | zero => simp [slowIntervals_zero]
  | succ intervals ih =>
    have low := schedule.slowIntervals_le reference intervals
    rw [← add_assoc, Finset.sum_Ioc_succ_top (by omega), ih, slowIntervals_succ, blockTimeAt,
      add_assoc reference]
    simp only [blockTime, blockTimeV1_5]
    split <;> omega

theorem asI64_of_lt {seconds : ℕ} (small : seconds < 2 ^ 63) : asI64 seconds = seconds :=
  if_pos small

variable {parent : ℕ}

theorem idealElapsed_eq_sum {reference : ℕ} (low : reference ≤ parent)
    (short : (parent - reference) * blockTimeV1_5 < 2 ^ 63) :
    schedule.idealElapsed reference (parent + 1) =
      ∑ block ∈ Finset.Ioc reference parent, (schedule.blockTimeAt block : ℤ) := by
  obtain ⟨intervals, rfl⟩ := Nat.exists_eq_add_of_le low
  have few := schedule.slowIntervals_le reference intervals
  have span : reference + intervals + 1 - reference - 1 = intervals := by omega
  have sum := schedule.sum_blockTimeAt reference intervals
  rw [← Nat.cast_sum, sum]
  dsimp only [idealElapsed]
  rw [span]
  simp only [blockTime, blockTimeV1_5, saturatingMul, saturatingAdd] at short ⊢
  split
  case isTrue none =>
      rw [none, asI64_of_lt (by omega)]
      omega
  case isFalse =>
      rw [asI64_of_lt (by omega)]
      omega

theorem referenceHeight_bounds (parent : ℕ) :
    parent ≤ schedule.referenceHeight parent + 6 ∧
      schedule.referenceHeight parent ≤ schedule.anchorHeight parent ∧
      schedule.anchorHeight parent ≤ schedule.referenceHeight parent + 1 := by
  have bounds := schedule.anchorHeight_bounds parent
  rw [referenceHeight]
  split <;> omega

variable {block : ℕ}

theorem activation_le_iff_of_counted (armed : activation ∈ schedule.activations)
    (counted : block ∈ Finset.Ioc (schedule.referenceHeight parent) parent) :
    activation ≤ block ↔ activation ≤ parent := by
  obtain ⟨above, below⟩ := Finset.mem_Ioc.mp counted
  have near := (schedule.referenceHeight_bounds parent).2.2
  constructor
  · intro reached
    exact reached.trans below
  · intro reached
    have floored := schedule.activation_le_anchorHeight armed reached
    omega

theorem blockTimeAt_of_counted
    (counted : block ∈ Finset.Ioc (schedule.referenceHeight parent) parent) :
    schedule.blockTimeAt block = schedule.blockTimeAt parent := by
  rw [blockTimeAt, blockTimeAt]
  cases v1_5 : schedule.v1_5Activation with
  | none => rfl
  | some activation =>
    have armed : activation ∈ schedule.activations :=
      schedule.mem_activations.mpr (.inr (.inl v1_5))
    simp only [Option.any_some, decide_eq_true_eq,
      schedule.activation_le_iff_of_counted armed counted]

theorem expectedTargetIn_eq_reference (floorActive : Bool) (dates : ℕ → ℕ)
    (anchorTarget : Bytes32) (parent : ℕ)
    (ordinary : schedule.boundaryTarget (parent + 1) = none) :
    expectedTargetIn floorActive schedule (schedule.anchorHeight parent)
        (dates (schedule.anchorHeight parent)) (dates (schedule.anchorHeight parent - 1))
        anchorTarget (parent + 1) (dates parent) =
      let asert := nextTargetIn floorActive schedule (schedule.referenceHeight parent)
        (dates (schedule.referenceHeight parent)) anchorTarget (parent + 1) (dates parent)
      if schedule.isV1_5Activation (parent + 1) then v1_5ActivationTarget asert else asert := by
  simp only [expectedTargetIn, ordinary, referenceHeight]
  cases schedule.v1_6RuleAt (parent + 1) <;> rfl

/-- The ideal time is the sum of the intervals of the blocks between the reference block and the
parent, and all of these are on the parent's side of every activation. -/
theorem difficulty_span_within_regime (parent : ℕ) :
    (∀ (floorActive : Bool) (dates : ℕ → ℕ) (anchorTarget : Bytes32),
      schedule.boundaryTarget (parent + 1) = none →
      expectedTargetIn floorActive schedule (schedule.anchorHeight parent)
          (dates (schedule.anchorHeight parent)) (dates (schedule.anchorHeight parent - 1))
          anchorTarget (parent + 1) (dates parent) =
        let asert := nextTargetIn floorActive schedule (schedule.referenceHeight parent)
          (dates (schedule.referenceHeight parent)) anchorTarget (parent + 1) (dates parent)
        if schedule.isV1_5Activation (parent + 1) then v1_5ActivationTarget asert else asert) ∧
      schedule.idealElapsed (schedule.referenceHeight parent) (parent + 1) =
        ∑ block ∈ Finset.Ioc (schedule.referenceHeight parent) parent,
          (schedule.blockTimeAt block : ℤ) ∧
      (∀ activation ∈ schedule.activations, activation ≤ parent →
        activation ≤ schedule.anchorHeight parent) ∧
      ∀ block ∈ Finset.Ioc (schedule.referenceHeight parent) parent,
        (∀ activation ∈ schedule.activations, activation ≤ block ↔ activation ≤ parent) ∧
          schedule.blockTimeAt block = schedule.blockTimeAt parent := by
  have anchor := (schedule.anchorHeight_bounds parent).2
  obtain ⟨near, low, -⟩ := schedule.referenceHeight_bounds parent
  refine ⟨?_, ?_, ?_, ?_⟩
  · intro floorActive dates anchorTarget ordinary
    exact schedule.expectedTargetIn_eq_reference floorActive dates anchorTarget parent ordinary
  · apply schedule.idealElapsed_eq_sum (low.trans anchor)
    rw [blockTimeV1_5]
    omega
  · intro activation armed reached
    exact schedule.activation_le_anchorHeight armed reached
  · intro block counted
    constructor
    · intro activation armed
      exact schedule.activation_le_iff_of_counted armed counted
    · exact schedule.blockTimeAt_of_counted counted

end Jetsam.DifficultySchedule
