import Jetsam.Consensus.Expansion
import Jetsam.Control.Windows

/-!
# The header relation

The timeless header rules with everything they read: the parent, the last eleven timestamps, the
anchor of the difficulty rule with the block below it, and the finalized occupancy counts.
-/

namespace Jetsam

open Control

def epochLength : Nat := 6

def medianTimeBlocks : Nat := 11

/-- Seconds a block may be dated below its parent under the v1.6 rules. -/
def v1_6ParentTimestampLag : Nat := 600

structure AnchorInfo where
  anchorHeight : Nat
  anchorTimestamp : Nat
  anchorParentTimestamp : Nat
  anchorTarget : BitVec 256
  deriving DecidableEq

structure HeaderRules (D : Type) where
  checkpoints : List (Nat × Digest)
  v1_4Activation : Option Nat
  v1_5Activation : Option Nat
  v1_6Activation : Option Nat
  expectedTarget : AnchorInfo → Nat → Nat → BitVec 256
  powValid : BlockHeader D → Bool

/-- The median of the last timestamps; zero when there is none. -/
def medianTimePast (prevTimestamps : List Nat) : Nat :=
  let count := min prevTimestamps.length medianTimeBlocks
  let sorted := (prevTimestamps.drop (prevTimestamps.length - count)).insertionSort (· ≤ ·)
  sorted.getD (count / 2) 0

/-- Raise an anchor to an activation height that was reached. -/
def floorAnchor (currentHeight : Nat) (anchor : Nat) : Option Nat → Nat
  | none => anchor
  | some activation =>
    if activation ≤ currentHeight ∧ anchor < activation then activation else anchor

variable {D : Type}

def asertAnchorHeight (rules : HeaderRules D) (currentHeight : Nat) : Nat :=
  let epoch := currentHeight / epochLength * epochLength
  let v1_4 := floorAnchor currentHeight epoch rules.v1_4Activation
  let v1_5 := floorAnchor currentHeight v1_4 rules.v1_5Activation
  floorAnchor currentHeight v1_5 rules.v1_6Activation

def parentTimestampFloor (rules : HeaderRules D) (height parentTimestamp : Nat) : Nat :=
  if rules.v1_6Activation.any (· ≤ height) then parentTimestamp - v1_6ParentTimestampLag else 0

theorem floorAnchor_bounds {currentHeight anchor : Nat} (low : anchor ≤ currentHeight)
    (activation : Option Nat) :
    anchor ≤ floorAnchor currentHeight anchor activation ∧
      floorAnchor currentHeight anchor activation ≤ currentHeight := by
  cases activation with
  | none => exact ⟨Nat.le_refl _, low⟩
  | some activation =>
    rw [floorAnchor]
    split <;> omega

theorem asertAnchorHeight_bounds (rules : HeaderRules D) (currentHeight : Nat) :
    currentHeight ≤ asertAnchorHeight rules currentHeight + 5 ∧
      asertAnchorHeight rules currentHeight ≤ currentHeight := by
  have epoch : currentHeight / epochLength * epochLength ≤ currentHeight :=
    Nat.div_mul_le_self _ _
  have near : currentHeight ≤ currentHeight / epochLength * epochLength + 5 := by
    rw [epochLength]
    omega
  have first := floorAnchor_bounds epoch rules.v1_4Activation
  have second := floorAnchor_bounds first.2 rules.v1_5Activation
  have third := floorAnchor_bounds second.2 rules.v1_6Activation
  rw [asertAnchorHeight]
  omega

end Jetsam
