import Mathlib.Algebra.Order.Floor.Semifield
import Jetsam.Consensus.Work

/-!
# The difficulty rule

The target of a block is the target of its anchor, scaled by a power of two whose exponent is the
delay of its parent in halflives, in fixed point: a polynomial for the fraction, a limb product and
a shift of the 320-bit result.
-/

namespace Jetsam

def blockTime : ℕ := 90

def blockTimeV1_5 : ℕ := 180

def halflife : ℕ := 540

def halflifeV1_5 : ℕ := 540

def halflifeV1_6 : ℕ := 2160

def genesisTarget : Bytes32 :=
  ⟨List.replicate 29 0#8 ++ 0x40#8 :: List.replicate 2 0#8, rfl⟩

def minTarget : Bytes32 := ⟨1#8 :: List.replicate 31 0#8, rfl⟩

def maxTarget : Bytes32 := .max

structure DifficultySchedule where
  polynomialFixHeight : ℕ
  v1_4Activation : Option ℕ
  v1_4AnchorTarget : Option Bytes32
  v1_5Activation : Option ℕ
  v1_6Activation : Option ℕ

def saturatingMul (a b : ℕ) : ℕ := min (a * b) (2 ^ 64 - 1)

def saturatingAdd (a b : ℕ) : ℕ := min (a + b) (2 ^ 64 - 1)

def asI64 (a : ℕ) : ℤ := if a < 2 ^ 63 then a else a - 2 ^ 64

namespace DifficultySchedule

/-- The target that the block at a height carries whatever its parent is. -/
def boundaryTarget (schedule : DifficultySchedule) (height : ℕ) : Option Bytes32 :=
  match schedule.v1_4Activation, schedule.v1_4AnchorTarget with
  | some activation, some target => if height = activation then some target else none
  | _, _ => none

def isV1_5Activation (schedule : DifficultySchedule) (height : ℕ) : Bool :=
  schedule.v1_5Activation == some height

def v1_6RuleAt (schedule : DifficultySchedule) (height : ℕ) : Bool :=
  schedule.v1_6Activation.any fun activation => activation < height

def blockTimeAt (schedule : DifficultySchedule) (height : ℕ) : ℕ :=
  if schedule.v1_5Activation.any (· ≤ height) then blockTimeV1_5 else blockTime

def halflifeAt (schedule : DifficultySchedule) (height : ℕ) : ℕ :=
  if schedule.v1_6RuleAt height then halflifeV1_6
  else if schedule.v1_5Activation.any (· ≤ height) then halflifeV1_5
  else halflife

/-- How many of the intervals between anchor and parent are slow ones. -/
def slowIntervals (schedule : DifficultySchedule) (anchorHeight intervals : ℕ) : ℕ :=
  match schedule.v1_5Activation with
  | none => 0
  | some activation =>
    if intervals = 0 then 0
    else
      let last := anchorHeight + intervals
      let first := anchorHeight + 1
      if last < activation then 0
      else if activation ≤ first then intervals
      else last - activation + 1

/-- The ideal time between the anchor and the parent of the child at a height. -/
def idealElapsed (schedule : DifficultySchedule) (anchorHeight height : ℕ) : ℤ :=
  let intervals := height - anchorHeight - 1
  let slow := schedule.slowIntervals anchorHeight intervals
  if slow = 0 then asI64 (saturatingMul intervals blockTime)
  else
    asI64 (saturatingAdd (saturatingMul (intervals - slow) blockTime)
      (saturatingMul slow blockTimeV1_5))

/-- The time from the anchor to the parent: signed under the v1.6 rule, clamped before it. -/
def elapsed (schedule : DifficultySchedule) (height anchorTimestamp timestamp : ℕ) : ℤ :=
  if schedule.v1_6RuleAt height then timestamp - anchorTimestamp
  else (min (timestamp - anchorTimestamp) (2 ^ 63 - 1) : ℕ)

/-- The exponent in fixed point, rounded toward zero. -/
def rawExponent (schedule : DifficultySchedule)
    (anchorHeight anchorTimestamp height timestamp : ℕ) : ℤ :=
  ((schedule.elapsed height anchorTimestamp timestamp -
    schedule.idealElapsed anchorHeight height) * 65536).tdiv (schedule.halflifeAt height)

end DifficultySchedule

def asertA : ℕ := 195766423245049

def asertB : ℕ := 971821376

def asertC : ℕ := 5127

def asertFactorLegacy (frac : ℕ) : ℕ :=
  65536 + (asertA * frac + asertB * frac * frac / 65536 +
    asertC * (frac / 65536) * (frac / 65536) * frac + 2 ^ 47) >>> 48

def asertFactorFixed (frac : ℕ) : ℕ :=
  65536 + (asertA * frac + asertB * frac * frac + asertC * frac * frac * frac + 2 ^ 47) >>> 48

def DifficultySchedule.asertFactor (schedule : DifficultySchedule) (height frac : ℕ) : ℕ :=
  if height < schedule.polynomialFixHeight then asertFactorLegacy frac else asertFactorFixed frac

def limbOfBytes (bytes : List (BitVec 8)) : BitVec 64 := BitVec.ofNat 64 (Limbs.value bytes)

def bytesToLimbs (target : Bytes32) : List (BitVec 64) :=
  (List.range 4).map fun index => limbOfBytes ((target.bytes.drop (8 * index)).take 8)

def bytesOfLimb (limb : BitVec 64) : List (BitVec 8) :=
  (List.range 8).map fun index => (limb >>> (8 * index)).setWidth 8

def limbsToBytes (l0 l1 l2 l3 : BitVec 64) : Bytes32 :=
  ⟨bytesOfLimb l0 ++ bytesOfLimb l1 ++ bytesOfLimb l2 ++ bytesOfLimb l3, rfl⟩

def mulLimbsU64 (limbs : List (BitVec 64)) (factor : ℕ) : List (BitVec 64) :=
  let product := Limbs.mulCarry factor limbs 0
  product.1 ++ [BitVec.ofNat 64 product.2]

def shl320 (wide : List (BitVec 64)) (count : ℕ) : List (BitVec 64) :=
  if count = 0 then wide
  else
    let words := min (count / 64) 5
    let out := List.replicate words 0#64 ++ wide.take (5 - words)
    if count % 64 = 0 then out else Limbs.shiftLeftBits (count % 64) out 0#64

def shr320 (wide : List (BitVec 64)) (count : ℕ) : List (BitVec 64) :=
  if count = 0 then wide
  else
    let words := min (count / 64) 5
    let out := wide.drop words ++ List.replicate words 0#64
    if count % 64 = 0 then out else (Limbs.shiftRightBits (count % 64) out).1

/-- Shift to the left by a positive amount, to the right by a negative one. -/
def shiftWide (wide : List (BitVec 64)) (net : ℤ) : List (BitVec 64) :=
  if 0 ≤ net then shl320 wide (min net 319).toNat else shr320 wide (min (-net) 319).toNat

/-- Clamp the low limbs of a result; the fifth limb says that they overflowed. -/
def clampTarget (result : Bytes32) (overflowWord : BitVec 64) : Bytes32 :=
  if overflowWord ≠ 0#64 ∨ le256Lt maxTarget result then maxTarget
  else if result = .zero ∨ le256Lt result minTarget then minTarget
  else result

/-- The anchor's target scaled by an exponent in fixed point. In builds for tests the floor is not
active. -/
def targetFromExponent (floorActive : Bool) (factor : ℕ → ℕ) (anchorTarget : Bytes32)
    (exponent : ℤ) : Bytes32 :=
  let shifts := exponent >>> (16 : ℕ)
  let frac := (exponent - shifts * 65536).toNat
  let wide := mulLimbsU64 (bytesToLimbs anchorTarget) (factor frac)
  let net := shifts - 16
  let easiest := if floorActive then genesisTarget else maxTarget
  if 46 ≤ net then easiest
  else if net ≤ -320 then minTarget
  else
    let wide := shiftWide wide net
    if 0 < net ∧ wide = List.replicate 5 0#64 then easiest
    else
      let result := limbsToBytes (wide.getD 0 0#64) (wide.getD 1 0#64) (wide.getD 2 0#64)
        (wide.getD 3 0#64)
      let clamped := clampTarget result (wide.getD 4 0#64)
      if floorActive ∧ le256Lt genesisTarget clamped then genesisTarget else clamped

def nextTargetIn (floorActive : Bool) (schedule : DifficultySchedule) (anchorHeight : ℕ)
    (anchorTimestamp : ℕ) (anchorTarget : Bytes32) (height timestamp : ℕ) : Bytes32 :=
  let raw := schedule.rawExponent anchorHeight anchorTimestamp height timestamp
  let exponent := max (-2 ^ 63) (min raw (2 ^ 63 - 1))
  targetFromExponent floorActive (schedule.asertFactor height) anchorTarget exponent

/-- Half a target, but never below the hardest one. -/
def v1_5ActivationTarget (ninetySecondTarget : Bytes32) : Bytes32 :=
  let halved : Bytes32 := ⟨(Limbs.shiftRightBits 1 ninetySecondTarget.bytes).1, by
    rw [Limbs.length_shiftRightBits, ninetySecondTarget.length]⟩
  if le256Lt halved minTarget then minTarget else halved

def expectedTargetIn (floorActive : Bool) (schedule : DifficultySchedule)
    (anchorHeight anchorTimestamp anchorParentTimestamp : ℕ) (anchorTarget : Bytes32)
    (height parentTimestamp : ℕ) : Bytes32 :=
  match schedule.boundaryTarget height with
  | some target => target
  | none =>
    let asert :=
      if schedule.v1_6RuleAt height then
        nextTargetIn floorActive schedule (anchorHeight - 1) anchorParentTimestamp anchorTarget
          height parentTimestamp
      else
        nextTargetIn floorActive schedule anchorHeight anchorTimestamp anchorTarget height
          parentTimestamp
    if schedule.isV1_5Activation height then v1_5ActivationTarget asert else asert

end Jetsam
