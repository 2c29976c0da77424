import Jetsam.Consensus.Difficulty

/-!
# Laws of the difficulty rule

The limb computation is exact, so the next target is the scaled target rounded down and clamped. It
grows with the parent's timestamp and the anchor's target, and one halflife doubles it below the
short cut for large shifts.
-/

namespace Jetsam

open List

theorem toNat_genesisTarget : genesisTarget.toNat = 2 ^ 238 := by decide

theorem toNat_minTarget : minTarget.toNat = 1 := by rfl

theorem toNat_limbOfBytes {bytes : List (BitVec 8)} (few : bytes.length ≤ 8) :
    (limbOfBytes bytes).toNat = Limbs.value bytes := by
  have bound := Limbs.value_lt bytes
  have wide : 2 ^ (8 * bytes.length) ≤ 2 ^ 64 := Nat.pow_le_pow_right two_pos (by omega)
  rw [limbOfBytes, BitVec.toNat_ofNat, Nat.mod_eq_of_lt (bound.trans_le wide)]

theorem value_bytesToLimbs (target : Bytes32) :
    Limbs.value (bytesToLimbs target) = target.toNat := by
  have step : ∀ (count : ℕ) (bytes : List (BitVec 8)), bytes.length = 8 * count →
      Limbs.value ((List.range count).map fun index =>
        limbOfBytes ((bytes.drop (8 * index)).take 8)) = Limbs.value bytes := by
    intro count
    induction count with
    | zero =>
      intro bytes empty
      rw [length_eq_zero_iff.mp empty]
      rfl
    | succ count ih =>
      intro bytes length
      have rest := ih (bytes.drop 8) (by rw [length_drop]; omega)
      have inside : 8 ≤ bytes.length := by omega
      have split := Limbs.value_take_add bytes inside
      simp only [drop_drop] at rest
      rw [range_succ_eq_map, map_cons, map_map, Limbs.value_cons,
        toNat_limbOfBytes (length_take_le _ _), ← split, ← rest]
      simp only [Nat.mul_zero, drop_zero, Function.comp_def, Nat.succ_eq_add_one,
        Nat.mul_succ, Nat.add_comm]
  exact step 4 target.bytes target.length

theorem value_bytesOfLimb (limb : BitVec 64) : Limbs.value (bytesOfLimb limb) = limb.toNat := by
  have digits := Limbs.value_digits (w := 8) limb 8
  rwa [Nat.mod_eq_of_lt limb.isLt] at digits

theorem toNat_limbsToBytes (l0 l1 l2 l3 : BitVec 64) :
    (limbsToBytes l0 l1 l2 l3).toNat = Limbs.value [l0, l1, l2, l3] := by
  have length : ∀ limb, (bytesOfLimb limb).length = 8 := fun _ => rfl
  rw [Bytes32.toNat, limbsToBytes]
  simp only [Limbs.value_append, length_append, length, value_bytesOfLimb, Limbs.value_cons,
    Limbs.value_nil]
  ring

theorem length_mulLimbsU64 {limbs : List (BitVec 64)} (four : limbs.length = 4) (factor : ℕ) :
    (mulLimbsU64 limbs factor).length = 5 := by
  rw [mulLimbsU64, length_append, Limbs.length_mulCarry, four]
  rfl

theorem value_mulLimbsU64 {limbs : List (BitVec 64)} (four : limbs.length = 4) {factor : ℕ}
    (small : factor < 2 ^ 64) : Limbs.value (mulLimbsU64 limbs factor) =
      Limbs.value limbs * factor := by
  have product := Limbs.value_mulCarry factor limbs 0
  have bound := Limbs.value_lt limbs
  rw [four, add_zero] at product
  rw [four] at bound
  have carry : (Limbs.mulCarry factor limbs 0).2 < 2 ^ 64 := by
    have total : Limbs.value limbs * factor < 2 ^ (64 * 4) * 2 ^ 64 :=
      Nat.mul_lt_mul'' bound small
    omega
  rw [mulLimbsU64, Limbs.value_append, Limbs.length_mulCarry, four, Limbs.value_cons,
    BitVec.toNat_ofNat, Nat.mod_eq_of_lt carry, ← product]
  rfl

variable {wide : List (BitVec 64)}

theorem value_shl320 (five : wide.length = 5) {count : ℕ} (inside : count < 320) :
    (shl320 wide count).length = 5 ∧
      Limbs.value (shl320 wide count) = Limbs.value wide * 2 ^ count % 2 ^ 320 := by
  have bound : Limbs.value wide < 2 ^ 320 := by
    rw [show 320 = 64 * wide.length by omega]
    exact Limbs.value_lt wide
  have words : min (count / 64) 5 = count / 64 := min_eq_left (by omega)
  have parts : 64 * (count / 64) + count % 64 = count := Nat.div_add_mod count 64
  have out : Limbs.value (List.replicate (count / 64) 0#64 ++ wide.take (5 - count / 64)) =
      2 ^ (64 * (count / 64)) * Limbs.value wide % 2 ^ 320 := by
    have whole : 2 ^ 320 = 2 ^ (64 * (count / 64)) * 2 ^ (64 * (5 - count / 64)) := by
      rw [← pow_add]
      congr 1
      omega
    rw [Limbs.value_append, Limbs.value_replicate_zero, length_replicate, zero_add,
      Limbs.value_take wide (by omega), whole, Nat.mul_mod_mul_left]
  have length : (List.replicate (count / 64) 0#64 ++ wide.take (5 - count / 64)).length = 5 := by
    rw [length_append, length_replicate, length_take, five]
    omega
  rw [shl320, words]
  split
  · rename_i none
    rw [none, pow_zero, mul_one]
    exact ⟨five, (Nat.mod_eq_of_lt bound).symm⟩
  · dsimp only
    split
    · rename_i aligned
      rw [aligned, add_zero] at parts
      rw [out, parts, mul_comm]
      exact ⟨length, rfl⟩
    · have bits : count % 64 ≤ 64 := (Nat.mod_lt count (by decide)).le
      have zero : (0#64).toNat < 2 ^ (count % 64) := Nat.two_pow_pos _
      have shifted := Limbs.value_shiftLeftBits bits
        (List.replicate (count / 64) 0#64 ++ wide.take (5 - count / 64)) zero
      rw [length, out, BitVec.toNat_zero, add_zero] at shifted
      refine ⟨by rw [Limbs.length_shiftLeftBits, length], shifted.trans ?_⟩
      rw [Nat.mul_mod_mod, ← mul_assoc, ← pow_add, add_comm, parts, mul_comm]

theorem value_shr320 (five : wide.length = 5) {count : ℕ} (inside : count < 320) :
    (shr320 wide count).length = 5 ∧
      Limbs.value (shr320 wide count) = Limbs.value wide / 2 ^ count := by
  have words : min (count / 64) 5 = count / 64 := min_eq_left (by omega)
  have few : count / 64 ≤ wide.length := by omega
  have parts : 64 * (count / 64) + count % 64 = count := Nat.div_add_mod count 64
  have out : Limbs.value (wide.drop (count / 64) ++ List.replicate (count / 64) 0#64) =
      Limbs.value wide / 2 ^ (64 * (count / 64)) := by
    rw [Limbs.value_append, Limbs.value_replicate_zero, Nat.mul_zero, add_zero,
      Limbs.value_drop wide few]
  have length : (wide.drop (count / 64) ++ List.replicate (count / 64) 0#64).length = 5 := by
    rw [length_append, length_replicate, length_drop, five]
    omega
  rw [shr320, words]
  split
  · rename_i none
    rw [none, pow_zero, Nat.div_one]
    exact ⟨five, rfl⟩
  · dsimp only
    split
    · rename_i aligned
      rw [aligned, add_zero] at parts
      rw [out, parts]
      exact ⟨length, rfl⟩
    · have bits : count % 64 ≤ 64 := (Nat.mod_lt count (by decide)).le
      have shifted := (Limbs.value_shiftRightBits bits
        (wide.drop (count / 64) ++ List.replicate (count / 64) 0#64)).1
      rw [out, Nat.div_div_eq_div_mul, ← pow_add, parts] at shifted
      exact ⟨by rw [Limbs.length_shiftRightBits, length], shifted⟩

theorem value_shiftWide (five : wide.length = 5) (small : Limbs.value wide < 2 ^ 256) {net : ℤ}
    (low : -320 < net) (high : net < 46) :
    (shiftWide wide net).length = 5 ∧
      Limbs.value (shiftWide wide net) = ⌊(Limbs.value wide : ℚ) * 2 ^ net⌋₊ := by
  rw [shiftWide]
  split
  · rename_i left
    obtain ⟨count, rfl⟩ := Int.eq_ofNat_of_zero_le left
    have least : (min (count : ℤ) 319).toNat = count := by omega
    have inside : count < 320 := by omega
    obtain ⟨length, value⟩ := value_shl320 five inside
    rw [least, value]
    refine ⟨length, ?_⟩
    have fits : Limbs.value wide * 2 ^ count < 2 ^ 320 := by
      calc
        Limbs.value wide * 2 ^ count < 2 ^ 256 * 2 ^ 64 :=
          Nat.mul_lt_mul'' small (Nat.pow_lt_pow_right one_lt_two (by omega))
        _ = 2 ^ 320 := by rw [← pow_add]
    rw [Nat.mod_eq_of_lt fits, zpow_natCast]
    exact_mod_cast (Nat.floor_natCast (R := ℚ) (Limbs.value wide * 2 ^ count)).symm
  · rename_i right
    obtain ⟨count, rfl⟩ : ∃ count : ℕ, net = -count := ⟨(-net).toNat, by omega⟩
    have least : (min (- -(count : ℤ)) 319).toNat = count := by omega
    have inside : count < 320 := by omega
    obtain ⟨length, value⟩ := value_shr320 five inside
    rw [least, value]
    refine ⟨length, ?_⟩
    have quotient := Nat.floor_div_eq_div (K := ℚ) (Limbs.value wide) (2 ^ count)
    rw [← quotient, zpow_neg, zpow_natCast, div_eq_mul_inv]
    push_cast
    rfl

theorem toNat_clampTarget {l0 l1 l2 l3 l4 : BitVec 64} :
    (if le256Lt genesisTarget (clampTarget (limbsToBytes l0 l1 l2 l3) l4) then genesisTarget
      else clampTarget (limbsToBytes l0 l1 l2 l3) l4).toNat =
      max 1 (min (Limbs.value [l0, l1, l2, l3, l4]) (2 ^ 238)) := by
  have low := toNat_limbsToBytes l0 l1 l2 l3
  have bound := (limbsToBytes l0 l1 l2 l3).toNat_lt
  have whole : Limbs.value [l0, l1, l2, l3, l4] =
      (limbsToBytes l0 l1 l2 l3).toNat + 2 ^ 256 * l4.toNat := by
    have split := Limbs.value_append [l0, l1, l2, l3] [l4]
    rw [low]
    simpa using split
  generalize limbsToBytes l0 l1 l2 l3 = result at bound whole ⊢
  have clamped : (clampTarget result l4).toNat =
      if l4.toNat = 0 then max 1 result.toNat else 2 ^ 256 - 1 := by
    have top : ¬le256Lt maxTarget result = true := by
      rw [le256Lt_iff, maxTarget, Bytes32.toNat_max]
      omega
    rw [clampTarget]
    by_cases overflow : l4 = 0#64
    · have none : l4.toNat = 0 := by rw [overflow]; rfl
      have inside : ¬(l4 ≠ 0#64 ∨ le256Lt maxTarget result = true) := by
        rintro (nonzero | above)
        · exact nonzero overflow
        · exact top above
      rw [if_neg inside, if_pos none]
      split
      · rename_i low
        rw [toNat_minTarget]
        rcases low with rfl | below
        · rfl
        · rw [le256Lt_iff, toNat_minTarget] at below
          omega
      · rename_i valid
        rw [not_or, le256Lt_iff, toNat_minTarget] at valid
        omega
    · have some : l4.toNat ≠ 0 := fun zero => overflow (BitVec.eq_of_toNat_eq zero)
      rw [if_pos (Or.inl overflow), if_neg some, maxTarget, Bytes32.toNat_max]
  have compare : le256Lt genesisTarget (clampTarget result l4) = true ↔
      2 ^ 238 < (clampTarget result l4).toNat := by
    rw [le256Lt_iff, toNat_genesisTarget]
  split
  · rename_i above
    rw [compare, clamped] at above
    rw [toNat_genesisTarget]
    split at above <;> omega
  · rename_i fits
    rw [compare, clamped] at fits
    rw [clamped]
    by_cases none : l4.toNat = 0
    · rw [if_pos none] at fits ⊢
      omega
    · rw [if_neg none] at fits
      omega

variable {frac : ℕ}

theorem asertFactorFixed_mono {frac' : ℕ} (less : frac ≤ frac') :
    asertFactorFixed frac ≤ asertFactorFixed frac' := by
  rw [asertFactorFixed, asertFactorFixed, Nat.shiftRight_eq_div_pow, Nat.shiftRight_eq_div_pow]
  gcongr

theorem asertFactorFixed_le (inside : frac ≤ 65535) :
    asertFactorFixed frac ≤ 131072 :=
  (asertFactorFixed_mono inside).trans (by decide)

theorem asertFactorLegacy_le (inside : frac ≤ 65535) :
    asertFactorLegacy frac ≤ 131072 := by
  have cubic : frac / 65536 = 0 := Nat.div_eq_of_lt (by omega)
  have fixed := asertFactorFixed_le inside
  refine le_trans ?_ fixed
  rw [asertFactorLegacy, asertFactorFixed, Nat.shiftRight_eq_div_pow, Nat.shiftRight_eq_div_pow,
    cubic]
  apply Nat.add_le_add_left
  omega

theorem asertFactor_bounds (schedule : DifficultySchedule) (height : ℕ) (inside : frac ≤ 65535) :
    65536 ≤ schedule.asertFactor height frac ∧ schedule.asertFactor height frac ≤ 131072 := by
  rw [DifficultySchedule.asertFactor]
  split
  · exact ⟨Nat.le_add_right _ _, asertFactorLegacy_le inside⟩
  · exact ⟨Nat.le_add_right _ _, asertFactorFixed_le inside⟩

/-- The scaled target: the exponent is split into whole halflives and a fraction. -/
def scaledTarget (factor : ℕ → ℕ) (target : ℕ) (exponent : ℤ) : ℚ :=
  target * factor (exponent % 65536).toNat * 2 ^ (exponent / 65536 - 16)

/-- The scaled target rounded down and clamped; from 62 halflives on, the easiest target. -/
def asertTarget (factor : ℕ → ℕ) (target : ℕ) (exponent : ℤ) : ℕ :=
  if 62 ≤ exponent / 65536 then 2 ^ 238
  else max 1 (min ⌊scaledTarget factor target exponent⌋₊ (2 ^ 238))

variable {target : ℕ} {exponent : ℤ}

theorem floor_scaledTarget_eq_zero {factor : ℕ → ℕ}
    (small : target * factor (exponent % 65536).toNat < 2 ^ 256)
    (low : exponent / 65536 - 16 ≤ -320) : ⌊scaledTarget factor target exponent⌋₊ = 0 := by
  rw [Nat.floor_eq_zero, scaledTarget]
  have product : (target * factor (exponent % 65536).toNat : ℚ) < 2 ^ 256 := by exact_mod_cast small
  calc
    (target * factor (exponent % 65536).toNat : ℚ) * 2 ^ (exponent / 65536 - 16)
      ≤ (target * factor (exponent % 65536).toNat : ℚ) * 2 ^ (-320 : ℤ) := by
        gcongr
        · norm_num
    _ < 2 ^ 256 * 2 ^ (-320 : ℤ) := by
        gcongr
    _ = 2 ^ (-64 : ℤ) := by
        rw [← zpow_natCast, ← zpow_add₀ two_ne_zero]
        rfl
    _ < 1 := by norm_num

theorem toNat_targetFromExponent {factor : ℕ → ℕ}
    (bounded : ∀ frac ≤ 65535, 65536 ≤ factor frac ∧ factor frac ≤ 131072) {anchorTarget : Bytes32}
    (anchored : 1 ≤ anchorTarget.toNat ∧ anchorTarget.toNat ≤ 2 ^ 238) (exponent : ℤ) :
    (targetFromExponent true factor anchorTarget exponent).toNat =
      asertTarget factor anchorTarget.toNat exponent := by
  have shifts : exponent >>> (16 : ℕ) = exponent / 65536 := Int.shiftRight_eq_div_pow exponent 16
  have frac : (exponent - exponent / 65536 * 65536).toNat = (exponent % 65536).toNat := by
    omega
  obtain ⟨least, most⟩ := bounded (exponent % 65536).toNat (by omega)
  have four : (bytesToLimbs anchorTarget).length = 4 := rfl
  have five := length_mulLimbsU64 four (factor (exponent % 65536).toNat)
  have product := value_mulLimbsU64 four (show factor (exponent % 65536).toNat < 2 ^ 64 by omega)
  rw [value_bytesToLimbs] at product
  have small : anchorTarget.toNat * factor (exponent % 65536).toNat < 2 ^ 256 := by
    calc
      anchorTarget.toNat * factor (exponent % 65536).toNat ≤ 2 ^ 238 * 131072 :=
        Nat.mul_le_mul anchored.2 most
      _ < 2 ^ 256 := by norm_num
  simp only [targetFromExponent, shifts, frac, if_true, true_and]
  rw [asertTarget]
  by_cases large : 46 ≤ exponent / 65536 - 16
  · rw [if_pos large, if_pos (show 62 ≤ exponent / 65536 by omega), toNat_genesisTarget]
  rw [if_neg large, if_neg (show ¬62 ≤ exponent / 65536 by omega)]
  by_cases tiny : exponent / 65536 - 16 ≤ -320
  · rw [if_pos tiny, floor_scaledTarget_eq_zero small tiny, toNat_minTarget]
    rfl
  rw [if_neg tiny]
  obtain ⟨length, value⟩ :=
    value_shiftWide five (product ▸ small) (Int.not_le.mp tiny) (Int.not_le.mp large)
  have scaled : ((anchorTarget.toNat * factor (exponent % 65536).toNat : ℕ) : ℚ) *
      2 ^ (exponent / 65536 - 16) = scaledTarget factor anchorTarget.toNat exponent := by
    push_cast
    rfl
  rw [product, scaled] at value
  generalize shiftWide _ _ = wide at length value ⊢
  -- a shift to the left keeps at least the anchor's target
  have nonzero : ¬(0 < exponent / 65536 - 16 ∧ wide = List.replicate 5 0#64) := by
    rintro ⟨left, rfl⟩
    rw [Limbs.value_replicate_zero, eq_comm, Nat.floor_eq_zero, ← scaled] at value
    have power : (1 : ℚ) ≤ 2 ^ (exponent / 65536 - 16) := one_le_zpow₀ one_le_two left.le
    have base : (1 : ℚ) ≤ ((anchorTarget.toNat * factor (exponent % 65536).toNat : ℕ) : ℚ) := by
      exact_mod_cast Nat.mul_pos anchored.1 (by omega)
    exact absurd (one_le_mul_of_one_le_of_one_le base power) (not_le.mpr value)
  rw [if_neg nonzero, toNat_clampTarget, ← value]
  obtain ⟨l0, l1, l2, l3, l4, rfl⟩ : ∃ l0 l1 l2 l3 l4, wide = [l0, l1, l2, l3, l4] := by
    match wide, length with
    | [l0, l1, l2, l3, l4], _ => exact ⟨l0, l1, l2, l3, l4, rfl⟩
  rfl

/-- The rule computes the clamped scaled target; saturating the exponent to 64 bits changes nothing.
-/
theorem toNat_nextTargetIn {schedule : DifficultySchedule} {anchorTarget : Bytes32}
    (anchored : 1 ≤ anchorTarget.toNat ∧ anchorTarget.toNat ≤ 2 ^ 238)
    (anchorHeight anchorTimestamp height timestamp : ℕ) :
    (nextTargetIn true schedule anchorHeight anchorTimestamp anchorTarget height timestamp).toNat =
      asertTarget (schedule.asertFactor height) anchorTarget.toNat
        (schedule.rawExponent anchorHeight anchorTimestamp height timestamp) := by
  have bounded : ∀ frac ≤ 65535, 65536 ≤ schedule.asertFactor height frac ∧
      schedule.asertFactor height frac ≤ 131072 :=
    fun frac inside => asertFactor_bounds schedule height inside
  rw [nextTargetIn, toNat_targetFromExponent bounded anchored]
  generalize schedule.rawExponent anchorHeight anchorTimestamp height timestamp = raw
  have vanishes : ∀ exponent : ℤ, exponent / 65536 - 16 ≤ -320 →
      asertTarget (schedule.asertFactor height) anchorTarget.toNat exponent = 1 := by
    intro exponent low
    have small : anchorTarget.toNat *
        schedule.asertFactor height (exponent % 65536).toNat < 2 ^ 256 := by
      calc
        anchorTarget.toNat * schedule.asertFactor height (exponent % 65536).toNat
          ≤ 2 ^ 238 * 131072 :=
            Nat.mul_le_mul anchored.2 (bounded (exponent % 65536).toNat (by omega)).2
        _ < 2 ^ 256 := by norm_num
    rw [asertTarget, if_neg (by omega), floor_scaledTarget_eq_zero small low]
    rfl
  rcases lt_or_ge (2 ^ 63 - 1) raw with above | inside
  · rw [asertTarget, asertTarget, if_pos (by omega), if_pos (by omega)]
  · rcases lt_or_ge raw (-2 ^ 63) with below | inside'
    · rw [vanishes raw (by omega), vanishes _ (by omega)]
    · rw [min_eq_left inside, max_eq_right inside']

/-- The sum of the target intervals of the blocks between the anchor and the child. -/
def idealTime (schedule : DifficultySchedule) (anchorHeight height : ℕ) : ℕ :=
  ∑ block ∈ Finset.Ico (anchorHeight + 1) height, schedule.blockTimeAt block

theorem slowIntervals_succ (schedule : DifficultySchedule) (anchorHeight intervals : ℕ) :
    schedule.slowIntervals anchorHeight (intervals + 1) =
      schedule.slowIntervals anchorHeight intervals +
        if schedule.v1_5Activation.any (· ≤ anchorHeight + intervals + 1) then 1 else 0 := by
  cases armed : schedule.v1_5Activation with
  | none => simp [DifficultySchedule.slowIntervals, armed]
  | some activation =>
    simp only [DifficultySchedule.slowIntervals, armed, Option.any_some, decide_eq_true_iff]
    split_ifs <;> omega

theorem slowIntervals_le (schedule : DifficultySchedule) (anchorHeight intervals : ℕ) :
    schedule.slowIntervals anchorHeight intervals ≤ intervals := by
  induction intervals with
  | zero =>
    rw [DifficultySchedule.slowIntervals]
    split <;> simp
  | succ intervals ih =>
    rw [slowIntervals_succ]
    split <;> omega

theorem sum_blockTimeAt (schedule : DifficultySchedule) (anchorHeight intervals : ℕ) :
    ∑ block ∈ Finset.Ico (anchorHeight + 1) (anchorHeight + 1 + intervals),
        schedule.blockTimeAt block =
      (intervals - schedule.slowIntervals anchorHeight intervals) * blockTime +
        schedule.slowIntervals anchorHeight intervals * blockTimeV1_5 := by
  induction intervals with
  | zero =>
    have none := Nat.le_zero.mp (slowIntervals_le schedule anchorHeight 0)
    simp [none]
  | succ intervals ih =>
    have some := slowIntervals_le schedule anchorHeight intervals
    rw [← add_assoc, Finset.sum_Ico_succ_top (by omega), ih, slowIntervals_succ,
      DifficultySchedule.blockTimeAt, add_right_comm anchorHeight 1 intervals]
    simp only [blockTime, blockTimeV1_5]
    split <;> omega

theorem idealElapsed_eq {schedule : DifficultySchedule} {anchorHeight height : ℕ}
    (near : height - anchorHeight < 2 ^ 32) :
    schedule.idealElapsed anchorHeight height = idealTime schedule anchorHeight height := by
  have sum := sum_blockTimeAt schedule anchorHeight (height - anchorHeight - 1)
  have slow := slowIntervals_le schedule anchorHeight (height - anchorHeight - 1)
  have window : Finset.Ico (anchorHeight + 1) (anchorHeight + 1 + (height - anchorHeight - 1)) =
      Finset.Ico (anchorHeight + 1) height := by
    rcases lt_or_ge (anchorHeight + 1) height with above | below
    · congr 1
      omega
    · rw [Finset.Ico_eq_empty_of_le below, Finset.Ico_eq_empty_of_le (by omega)]
  rw [window] at sum
  rw [idealTime, sum, DifficultySchedule.idealElapsed]
  simp only [blockTime, blockTimeV1_5, saturatingMul, saturatingAdd, asI64]
  split_ifs <;> omega

theorem tdiv_add_le {a h : ℤ} (pos : 0 < h) (count : ℕ) :
    (a + h * count).tdiv h ≤ a.tdiv h + count := by
  rw [Int.tdiv_eq_ediv, Int.tdiv_eq_ediv, Int.add_mul_ediv_left _ _ pos.ne',
    Int.sign_eq_one_of_pos pos]
  have later : 0 ≤ a ∨ h ∣ a → 0 ≤ a + h * count ∨ h ∣ a + h * count := by
    rintro (nonneg | divides)
    · exact Or.inl (add_nonneg nonneg (mul_nonneg pos.le (Int.natCast_nonneg count)))
    · exact Or.inr (dvd_add divides (dvd_mul_right h _))
  by_cases exact : 0 ≤ a ∨ h ∣ a
  · rw [if_pos exact, if_pos (later exact)]
    omega
  · rw [if_neg exact]
    split <;> omega

namespace DifficultySchedule

section

variable (schedule : DifficultySchedule)

include schedule

theorem halflifeAt_pos (height : ℕ) :
    0 < schedule.halflifeAt height := by
  rw [halflifeAt]
  split
  · decide
  · split <;> decide

theorem elapsed_mono (height anchorTimestamp : ℕ) {timestamp timestamp' : ℕ}
    (later : timestamp ≤ timestamp') :
    schedule.elapsed height anchorTimestamp timestamp ≤
      schedule.elapsed height anchorTimestamp timestamp' := by
  rw [elapsed, elapsed]
  split <;> omega

theorem elapsed_add_le (height anchorTimestamp timestamp : ℕ) (delay : ℕ) :
    schedule.elapsed height anchorTimestamp (timestamp + delay) ≤
      schedule.elapsed height anchorTimestamp timestamp + delay := by
  rw [elapsed, elapsed]
  split <;> omega

theorem rawExponent_mono (anchorHeight anchorTimestamp height : ℕ) {timestamp timestamp' : ℕ}
    (later : timestamp ≤ timestamp') :
    schedule.rawExponent anchorHeight anchorTimestamp height timestamp ≤
      schedule.rawExponent anchorHeight anchorTimestamp height timestamp' := by
  have pos : (0 : ℤ) < schedule.halflifeAt height := by
    exact_mod_cast schedule.halflifeAt_pos height
  apply Int.tdiv_le_tdiv pos
  have longer := schedule.elapsed_mono height anchorTimestamp later
  omega

theorem rawExponent_delay (anchorHeight anchorTimestamp height timestamp : ℕ) :
    schedule.rawExponent anchorHeight anchorTimestamp height
        (timestamp + schedule.halflifeAt height) ≤
      schedule.rawExponent anchorHeight anchorTimestamp height timestamp + 65536 := by
  have pos : (0 : ℤ) < schedule.halflifeAt height := by
    exact_mod_cast schedule.halflifeAt_pos height
  have longer := schedule.elapsed_add_le height anchorTimestamp timestamp
    (schedule.halflifeAt height)
  refine le_trans (Int.tdiv_le_tdiv pos ?_) (tdiv_add_le pos 65536)
  omega

end

end DifficultySchedule

variable {exponent' : ℤ}

/-- A whole halflife is worth as much as the largest fraction. -/
theorem scaledTarget_mono (target : ℕ) (less : exponent ≤ exponent') :
    scaledTarget asertFactorFixed target exponent ≤
      scaledTarget asertFactorFixed target exponent' := by
  rw [scaledTarget, scaledTarget, mul_assoc, mul_assoc]
  refine mul_le_mul_of_nonneg_left ?_ (Nat.cast_nonneg target)
  rcases eq_or_lt_of_le (Int.ediv_le_ediv (by decide : (0 : ℤ) < 65536) less) with same | next
  · have fraction : (exponent % 65536).toNat ≤ (exponent' % 65536).toNat := by omega
    have factor : (asertFactorFixed (exponent % 65536).toNat : ℚ) ≤
        asertFactorFixed (exponent' % 65536).toNat := by
      exact_mod_cast asertFactorFixed_mono fraction
    rw [same]
    gcongr
  · have top : (asertFactorFixed (exponent % 65536).toNat : ℚ) ≤ 65536 * 2 := by
      exact_mod_cast asertFactorFixed_le (show (exponent % 65536).toNat ≤ 65535 by omega)
    have bottom : (65536 : ℚ) ≤ asertFactorFixed (exponent' % 65536).toNat := by
      exact_mod_cast Nat.le_add_right 65536 _
    calc
      (asertFactorFixed (exponent % 65536).toNat : ℚ) * 2 ^ (exponent / 65536 - 16)
        ≤ 65536 * 2 * 2 ^ (exponent / 65536 - 16) := by gcongr
      _ = 65536 * 2 ^ (exponent / 65536 + 1 - 16) := by
          rw [mul_assoc, ← zpow_one_add₀ two_ne_zero]
          congr 2
          ring
      _ ≤ 65536 * 2 ^ (exponent' / 65536 - 16) := by
          gcongr
          · norm_num
          · omega
      _ ≤ asertFactorFixed (exponent' % 65536).toNat * 2 ^ (exponent' / 65536 - 16) := by gcongr

variable (factor : ℕ → ℕ)

theorem asertTarget_le (target : ℕ) (exponent : ℤ) :
    asertTarget factor target exponent ≤ 2 ^ 238 := by
  rw [asertTarget]
  split <;> omega

theorem asertTarget_mono_exponent (target : ℕ) (less : exponent ≤ exponent') :
    asertTarget asertFactorFixed target exponent ≤
      asertTarget asertFactorFixed target exponent' := by
  by_cases last : 62 ≤ exponent' / 65536
  · rw [asertTarget, asertTarget, if_pos last]
    exact asertTarget_le asertFactorFixed target exponent
  · have first : ¬62 ≤ exponent / 65536 := by omega
    have rounded := Nat.floor_mono (scaledTarget_mono target less)
    rw [asertTarget, asertTarget, if_neg first, if_neg last]
    omega

theorem asertTarget_mono_target {target' : ℕ} (less : target ≤ target') (exponent : ℤ) :
    asertTarget factor target exponent ≤ asertTarget factor target' exponent := by
  have scaled : scaledTarget factor target exponent ≤ scaledTarget factor target' exponent := by
    rw [scaledTarget, scaledTarget]
    gcongr
  have rounded := Nat.floor_mono scaled
  rw [asertTarget, asertTarget]
  split <;> omega

theorem scaledTarget_add_halflife (target : ℕ) (exponent : ℤ) :
    scaledTarget factor target (exponent + 65536) = 2 * scaledTarget factor target exponent := by
  have whole : (exponent + 65536) / 65536 - 16 = exponent / 65536 - 16 + 1 := by omega
  have fraction : (exponent + 65536) % 65536 = exponent % 65536 := by omega
  rw [scaledTarget, scaledTarget, whole, fraction, zpow_add_one₀ two_ne_zero]
  ring

theorem floor_two_mul_le {x : ℚ} (nonneg : 0 ≤ x) : ⌊2 * x⌋₊ ≤ 2 * ⌊x⌋₊ + 1 := by
  have next := Nat.lt_floor_add_one x
  apply Nat.le_of_lt_succ
  rw [Nat.floor_lt (by positivity)]
  push_cast
  linarith

theorem scaledTarget_nonneg (target : ℕ) (exponent : ℤ) :
    0 ≤ scaledTarget factor target exponent := by
  rw [scaledTarget]
  positivity

/-- From 62 halflives on a target that is not too small has left the range. -/
theorem le_scaledTarget (large : 2 ^ 176 ≤ target) (late : 62 ≤ exponent / 65536) :
    2 ^ 238 ≤ scaledTarget asertFactorFixed target exponent := by
  have base : (2 ^ 176 : ℚ) ≤ target := by exact_mod_cast large
  have bottom : (65536 : ℚ) ≤ asertFactorFixed (exponent % 65536).toNat := by
    exact_mod_cast Nat.le_add_right 65536 _
  have power : (2 : ℚ) ^ (46 : ℤ) ≤ 2 ^ (exponent / 65536 - 16) := by
    apply zpow_le_zpow_right₀ one_le_two
    omega
  calc
    (2 : ℚ) ^ 238 = 2 ^ 176 * 65536 * 2 ^ (46 : ℤ) := by norm_num
    _ ≤ scaledTarget asertFactorFixed target exponent := by
        rw [scaledTarget]
        gcongr

theorem clamp_le_two_mul {x y : ℕ} (doubled : y ≤ 2 * x + 1) (limit : ℕ) :
    max 1 (min y limit) ≤ 2 * max 1 (min x limit) + 1 := by
  omega

/-- One more halflife at most doubles the target, unless a small anchor meets the short cut. -/
theorem asertTarget_delay (delayed : exponent' ≤ exponent + 65536)
    (reach : 62 ≤ exponent' / 65536 → exponent / 65536 < 62 → 2 ^ 176 ≤ target) :
    asertTarget asertFactorFixed target exponent' ≤
      2 * asertTarget asertFactorFixed target exponent + 1 := by
  have scaled : scaledTarget asertFactorFixed target exponent' ≤
      2 * scaledTarget asertFactorFixed target exponent := by
    rw [← scaledTarget_add_halflife]
    exact scaledTarget_mono target delayed
  have nonneg := scaledTarget_nonneg asertFactorFixed target exponent
  have rounded := (Nat.floor_mono scaled).trans (floor_two_mul_le nonneg)
  have bound := asertTarget_le asertFactorFixed target exponent'
  rcases lt_or_ge (exponent / 65536) 62 with early | late
  · have here : asertTarget asertFactorFixed target exponent =
        max 1 (min ⌊scaledTarget asertFactorFixed target exponent⌋₊ (2 ^ 238)) :=
      if_neg (not_le.mpr early)
    have clamped : asertTarget asertFactorFixed target exponent' ≤
        max 1 (min ⌊scaledTarget asertFactorFixed target exponent'⌋₊ (2 ^ 238)) := by
      rw [asertTarget]
      split
      · rename_i late'
        have range : 2 ^ 238 ≤ ⌊scaledTarget asertFactorFixed target exponent'⌋₊ := by
          apply Nat.le_floor
          exact_mod_cast le_scaledTarget (reach late' early) late'
        exact le_max_of_le_right (le_min range le_rfl)
      · exact le_rfl
    rw [here]
    exact clamped.trans (clamp_le_two_mul rounded _)
  · have top : asertTarget asertFactorFixed target exponent = 2 ^ 238 := if_pos late
    rw [top]
    exact bound.trans (by norm_num)

/-- Below 62 halflives the next target is the anchor's target times the polynomial factor and the
power of two, rounded down and clamped. -/
theorem nextTargetIn_exact {schedule : DifficultySchedule} {anchorTarget : Bytes32}
    (anchored : minTarget.toNat ≤ anchorTarget.toNat ∧ anchorTarget.toNat ≤ genesisTarget.toNat)
    {anchorHeight height : ℕ} (near : height - anchorHeight < 2 ^ 32)
    (anchorTimestamp timestamp : ℕ) {whole fraction : ℤ}
    (split : ((schedule.elapsed height anchorTimestamp timestamp -
        idealTime schedule anchorHeight height) * 65536).tdiv (schedule.halflifeAt height) =
      65536 * whole + fraction)
    (proper : 0 ≤ fraction ∧ fraction < 65536) (short : whole < 62) :
    (nextTargetIn true schedule anchorHeight anchorTimestamp anchorTarget height timestamp).toNat =
      max minTarget.toNat
        (min ⌊(anchorTarget.toNat * schedule.asertFactor height fraction.toNat : ℚ) *
          2 ^ (whole - 16)⌋₊ genesisTarget.toNat) := by
  rw [← idealElapsed_eq near, ← DifficultySchedule.rawExponent] at split
  rw [toNat_nextTargetIn anchored, split, asertTarget, if_neg (by omega), scaledTarget,
    toNat_minTarget, toNat_genesisTarget]
  have quotient : (65536 * whole + fraction) / 65536 = whole := by omega
  have remainder : (65536 * whole + fraction) % 65536 = fraction := by omega
  rw [quotient, remainder]

/-- The schedule in which only the corrected polynomial is armed. -/
def correctedSchedule : DifficultySchedule where
  polynomialFixHeight := 0
  v1_4Activation := none
  v1_4AnchorTarget := none
  v1_5Activation := none
  v1_6Activation := none

theorem nextTargetIn_exact_early :
    (nextTargetIn true correctedSchedule 0 0 ⟨7#8 :: List.replicate 31 0#8, rfl⟩ 7 405).toNat =
      max minTarget.toNat
        (min ⌊(7 * correctedSchedule.asertFactor 7 49152 : ℚ) * 2 ^ (-1 - 16 : ℤ)⌋₊
          genesisTarget.toNat) := by
  have seven : Bytes32.toNat ⟨7#8 :: List.replicate 31 0#8, rfl⟩ = 7 := by decide
  have anchored : minTarget.toNat ≤ Bytes32.toNat ⟨7#8 :: List.replicate 31 0#8, rfl⟩ ∧
      Bytes32.toNat ⟨7#8 :: List.replicate 31 0#8, rfl⟩ ≤ genesisTarget.toNat := by
    decide
  have near : 7 - 0 < 2 ^ 32 := by decide
  have split : ((correctedSchedule.elapsed 7 0 405 - idealTime correctedSchedule 0 7) *
      65536).tdiv (correctedSchedule.halflifeAt 7) = 65536 * (-1) + 49152 := by
    decide
  have early := nextTargetIn_exact anchored near 0 405 split (by decide) (by decide)
  exact_mod_cast early

/-- Under the corrected polynomial the next target never decreases when the parent is later or when
the anchor's target is larger. -/
theorem nextTargetIn_mono {schedule : DifficultySchedule} {height : ℕ}
    (corrected : schedule.polynomialFixHeight ≤ height) (anchorHeight anchorTimestamp : ℕ)
    {anchorTarget anchorTarget' : Bytes32} (anchored : minTarget.toNat ≤ anchorTarget.toNat)
    (anchored' : anchorTarget'.toNat ≤ genesisTarget.toNat)
    (easier : anchorTarget.toNat ≤ anchorTarget'.toNat) {timestamp timestamp' : ℕ}
    (later : timestamp ≤ timestamp') :
    (nextTargetIn true schedule anchorHeight anchorTimestamp anchorTarget height timestamp).toNat ≤
      (nextTargetIn true schedule anchorHeight anchorTimestamp anchorTarget' height
        timestamp').toNat := by
  have factor : schedule.asertFactor height = asertFactorFixed := by
    funext frac
    rw [DifficultySchedule.asertFactor, if_neg (Nat.not_lt.mpr corrected)]
  rw [toNat_nextTargetIn ⟨anchored, easier.trans anchored'⟩,
    toNat_nextTargetIn ⟨anchored.trans easier, anchored'⟩, factor]
  calc
    asertTarget asertFactorFixed anchorTarget.toNat
        (schedule.rawExponent anchorHeight anchorTimestamp height timestamp)
      ≤ asertTarget asertFactorFixed anchorTarget.toNat
        (schedule.rawExponent anchorHeight anchorTimestamp height timestamp') :=
        asertTarget_mono_exponent _ (schedule.rawExponent_mono _ _ _ later)
    _ ≤ asertTarget asertFactorFixed anchorTarget'.toNat
        (schedule.rawExponent anchorHeight anchorTimestamp height timestamp') :=
        asertTarget_mono_target _ easier _

theorem nextTargetIn_mono_crossing :
    (nextTargetIn true correctedSchedule 0 0 minTarget 1 (20 * 540 - 1)).toNat ≤
      (nextTargetIn true correctedSchedule 0 0 genesisTarget 1 (20 * 540)).toNat :=
  nextTargetIn_mono (by decide) 0 0 (by decide) (by decide) (by decide)
    (by decide)

end Jetsam
