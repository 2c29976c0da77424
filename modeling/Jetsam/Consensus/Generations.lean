import Jetsam.Consensus.Params

/-!
# Generations of the block relation

Three activation heights, each possibly dormant, cut the chain into generations. A relation is
rooted at the header before its first block: a terminal proves what lies above that root only.
-/

namespace Jetsam

/-- The activation heights of a deployment; a dormant clock has none. -/
structure ActivationSchedule where
  v1_3 : Option Nat
  v1_5 : Option Nat
  v1_6 : Option Nat
  deriving DecidableEq

def activeWith (height : Nat) (activation : Option Nat) : Bool :=
  activation.any fun start => decide (start ≤ height)

namespace HistoryStepPackGeneration

/-- The generation of a height with the last clock dormant; the later clock wins. -/
def atSchedule (height : Nat) (v1_3Activation v1_5Activation : Option Nat) :
    HistoryStepPackGeneration :=
  if activeWith height v1_5Activation then .v1_5
  else if activeWith height v1_3Activation then .v1_3
  else .v1

def atFullSchedule (height : Nat) (schedule : ActivationSchedule) : HistoryStepPackGeneration :=
  if activeWith height schedule.v1_6 then .v1_6
  else atSchedule height schedule.v1_3 schedule.v1_5

end HistoryStepPackGeneration

def historyStepRelationRootHeightWith (height : Nat) (v1_3Activation v1_5Activation : Option Nat) :
    Nat :=
  let activation :=
    match HistoryStepPackGeneration.atSchedule height v1_3Activation v1_5Activation with
    | .v1 => none
    | .v1_3 => v1_3Activation
    | .v1_5 => v1_5Activation
    | .v1_6 => none
  match activation with
  | some activation => activation - 1
  | none => 0

def historyStepRelationRootHeight (schedule : ActivationSchedule) (height : Nat) : Nat :=
  match schedule.v1_6 with
  | some activation =>
    if activation ≤ height then activation - 1
    else historyStepRelationRootHeightWith height schedule.v1_3 schedule.v1_5
  | none => historyStepRelationRootHeightWith height schedule.v1_3 schedule.v1_5

def ActivationSchedule.starts (schedule : ActivationSchedule) : List Nat :=
  schedule.v1_3.toList ++ schedule.v1_5.toList ++ schedule.v1_6.toList

def ActivationSchedule.roots (schedule : ActivationSchedule) : List Nat :=
  schedule.starts.map (· - 1)

theorem ActivationSchedule.root_cases {schedule : ActivationSchedule} {start height : Nat}
    (known : start ∈ schedule.starts) (reached : start ≤ height) :
    start - 1 = 0 ∨ start - 1 ∈ schedule.roots ∧ start - 1 < height := by
  rcases Nat.eq_zero_or_pos (start - 1) with zero | pos
  · exact .inl zero
  · exact .inr ⟨List.mem_map_of_mem known, by omega⟩

theorem exists_of_activeWith {height : Nat} {clock : Option Nat}
    (active : activeWith height clock = true) : ∃ start, clock = some start ∧ start ≤ height := by
  cases clock with
  | none => cases active
  | some start => exact ⟨start, rfl, of_decide_eq_true active⟩

/-- A relation is rooted at genesis or at an activation root below the block. -/
theorem historyStepRelationRootHeight_cases (schedule : ActivationSchedule) (height : Nat) :
    historyStepRelationRootHeight schedule height = 0 ∨
      historyStepRelationRootHeight schedule height ∈ schedule.roots ∧
        historyStepRelationRootHeight schedule height < height := by
  have earlier : historyStepRelationRootHeightWith height schedule.v1_3 schedule.v1_5 = 0 ∨
      historyStepRelationRootHeightWith height schedule.v1_3 schedule.v1_5 ∈ schedule.roots ∧
        historyStepRelationRootHeightWith height schedule.v1_3 schedule.v1_5 < height := by
    rw [historyStepRelationRootHeightWith, HistoryStepPackGeneration.atSchedule]
    by_cases later : activeWith height schedule.v1_5 = true
    · obtain ⟨start, clock, reached⟩ := exists_of_activeWith later
      rw [if_pos later, clock]
      exact ActivationSchedule.root_cases (by simp [ActivationSchedule.starts, clock]) reached
    · by_cases first : activeWith height schedule.v1_3 = true
      · obtain ⟨start, clock, reached⟩ := exists_of_activeWith first
        rw [if_neg later, if_pos first, clock]
        exact ActivationSchedule.root_cases (by simp [ActivationSchedule.starts, clock]) reached
      · rw [if_neg later, if_neg first]
        exact .inl rfl
  rw [historyStepRelationRootHeight]
  cases clock : schedule.v1_6 with
  | none => exact earlier
  | some start =>
    dsimp only
    split
    · exact ActivationSchedule.root_cases (by simp [ActivationSchedule.starts, clock]) ‹_›
    · exact earlier

end Jetsam
