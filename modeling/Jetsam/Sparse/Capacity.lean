import Jetsam.Merkle.FrontierSize
import Jetsam.Sparse.Multiproof

/-!
# Capacity of a frontier

The proof classes reserve room for the largest frontier of a number of touched leaves, in the whole
tree or in a bounded number of segments of it. The closed form and the loop compute these maxima.
-/

namespace Jetsam

open Control Finset Option

/-- Double a power of two until it covers the touched leaves. -/
def coverLoop (touched : Nat) : Nat → Nat → Nat → Option (Nat × Nat)
  | 0, power, depth => if power < touched then none else some (power, depth)
  | fuel + 1, power, depth =>
    if power < touched then coverLoop touched fuel (power * 2) (depth + 1)
    else some (power, depth)

/-- Largest number of frontier siblings of `touched` leaves; `none` where the source panics. -/
def maximumSiblingCount (touched depth : Nat) : Option Nat :=
  if depth ≤ 32 then
    if touched = 0 then some 0
    else if touched ≤ 2 ^ depth then do
      let (coveringPower, coveringDepth) ← coverLoop touched depth 1 0
      pure ((depth - coveringDepth) * touched + coveringPower - touched)
    else none
  else none

/-- Try one number of used segments, with the leaves spread evenly over them. -/
def segmentCapStep (touched logSegmentSize segmentTreeDepth maximum usedSegments : Nat) :
    Option Nat :=
  let quotient := touched / usedSegments
  let remainder := touched % usedSegments
  if quotient ≤ 2 ^ logSegmentSize ∧ (remainder = 0 ∨ quotient + 1 ≤ 2 ^ logSegmentSize) then do
    let smaller ← maximumSiblingCount quotient logSegmentSize
    let larger ← (if remainder = 0 then some 0
      else (maximumSiblingCount (quotient + 1) logSegmentSize).map (remainder * ·))
    let upper ← maximumSiblingCount usedSegments segmentTreeDepth
    let total := (usedSegments - remainder) * smaller + larger + upper
    pure (if maximum < total then total else maximum)
  else some maximum

/-- The same for leaves in at most `maxSegments` segments. -/
def maximumSiblingCountWithSegmentCap (touched depth logSegmentSize maxSegments : Nat) :
    Option Nat :=
  if depth ≤ 32 ∧ logSegmentSize ≤ depth then
    if touched = 0 then some 0
    else if 0 < maxSegments then
      let segmentTreeDepth := depth - logSegmentSize
      let domainSegments := 2 ^ segmentTreeDepth
      let cappedSegments := if maxSegments < domainSegments then maxSegments else domainSegments
      if touched ≤ 2 ^ logSegmentSize * cappedSegments then
        let maxUsedSegments := if touched < cappedSegments then touched else cappedSegments
        (List.range' 1 maxUsedSegments).foldlM
          (segmentCapStep touched logSegmentSize segmentTreeDepth) 0
      else none
    else none
  else none

/-- The sizes of the frontiers of `touched` leaves in at most `maxSegments` segments. -/
def frontierSizes (touched depth logSegmentSize maxSegments : Nat) : Set Nat :=
  {count | ∃ indices : List Nat, indices.length = touched ∧
    Merkle.shadow indices.toFinset logSegmentSize ≤ maxSegments ∧
    expectedSiblingCount indices depth = .ok count}

variable {count maximum : Nat}

section ClosedForm

variable {touched depth : Nat}

theorem coverLoop_eq {fuel power : Nat} (below : power ≤ Nat.clog 2 touched)
    (enough : Nat.clog 2 touched ≤ power + fuel) :
    coverLoop touched fuel (2 ^ power) power =
      some (2 ^ Nat.clog 2 touched, Nat.clog 2 touched) := by
  induction fuel generalizing power with
  | zero =>
    obtain rfl : power = Nat.clog 2 touched := by omega
    have covers := Nat.le_pow_clog one_lt_two touched
    rw [coverLoop, if_neg (by omega)]
  | succ fuel ih =>
    rw [coverLoop]
    by_cases short : 2 ^ power < touched
    · have next : power + 1 ≤ Nat.clog 2 touched :=
        (Nat.lt_clog_iff_pow_lt one_lt_two).mpr short
      rw [if_pos short, ← pow_succ, ih next (by omega)]
    · have reached : Nat.clog 2 touched ≤ power := Nat.clog_le_of_le_pow (not_lt.mp short)
      obtain rfl : power = Nat.clog 2 touched := by omega
      rw [if_neg short]

/-- The known nodes of a tree with its leaves spread evenly. -/
theorem sum_min_pow (covers : Nat.clog 2 count ≤ depth) :
    ∑ level ∈ range depth, min count (2 ^ level) + 1 =
      (depth - Nat.clog 2 count) * count + 2 ^ Nat.clog 2 count := by
  induction depth, covers using Nat.le_induction with
  | base =>
    have full : ∀ level ∈ range (Nat.clog 2 count), min count (2 ^ level) = 2 ^ level := by
      intro level below
      have short := Nat.pow_lt_of_lt_clog (mem_range.mp below)
      exact min_eq_right short.le
    rw [sum_congr rfl full, Nat.sub_self, Nat.zero_mul, Nat.zero_add, Nat.geomSum_eq le_rfl,
      Nat.div_one, Nat.sub_add_cancel (Nat.two_pow_pos _)]
  | succ depth covers ih =>
    have whole : count ≤ 2 ^ depth := (Nat.clog_le_iff_le_pow one_lt_two).mp covers
    rw [sum_range_succ, min_eq_left whole, Nat.succ_sub covers, Nat.succ_mul]
    omega

/-- The closed form, with the known nodes of all levels in place of the covering power. -/
theorem maximumSiblingCount_add (real : touched ≠ 0) :
    maximumSiblingCount touched depth = some maximum ↔
      depth ≤ 32 ∧ touched ≤ 2 ^ depth ∧
        maximum + touched = ∑ level ∈ range depth, min touched (2 ^ level) + 1 := by
  by_cases shallow : depth ≤ 32
  · by_cases inside : touched ≤ 2 ^ depth
    · have covers : Nat.clog 2 touched ≤ depth := Nat.clog_le_of_le_pow inside
      have loop := @coverLoop_eq touched depth 0 (Nat.zero_le _) (by omega)
      have enough := Nat.le_pow_clog one_lt_two touched
      rw [pow_zero] at loop
      rw [maximumSiblingCount, if_pos shallow, if_neg real, if_pos inside, loop, sum_min_pow covers]
      simp only [bind_eq_bind, bind_some, Option.pure_def, Option.some.injEq,
        shallow, inside, true_and]
      omega
    · simp [maximumSiblingCount, shallow, real, inside]
  · simp [maximumSiblingCount, shallow]

theorem exists_maximumSiblingCount (real : touched ≠ 0) (shallow : depth ≤ 32)
    (inside : touched ≤ 2 ^ depth) :
    ∃ maximum, maximumSiblingCount touched depth = some maximum ∧
      maximum + touched = ∑ level ∈ range depth, min touched (2 ^ level) + 1 := by
  have enough := Nat.le_pow_clog one_lt_two touched
  have total := sum_min_pow (Nat.clog_le_of_le_pow inside)
  obtain ⟨maximum, sum⟩ : ∃ maximum, maximum + touched =
      ∑ level ∈ range depth, min touched (2 ^ level) + 1 :=
    ⟨_, Nat.sub_add_cancel (by omega)⟩
  exact ⟨maximum, (maximumSiblingCount_add real).mpr ⟨shallow, inside, sum⟩, sum⟩

end ClosedForm

section Segments

variable {touched logSegmentSize segmentTreeDepth : Nat}

variable {used : Nat}

/-- Leaves that are spread evenly over segments fill a level of all of them together. -/
theorem balanced_min (pos : 0 < used) (room : Nat) :
    (used - touched % used) * min (touched / used) room +
        touched % used * min (touched / used + 1) room = min touched (used * room) := by
  have small := Nat.mod_lt touched pos
  have split := Nat.div_add_mod touched used
  obtain ⟨rest, total⟩ : ∃ rest, used = touched % used + rest := ⟨used - touched % used, by omega⟩
  have whole : used - touched % used = rest := by omega
  rcases le_or_gt room (touched / used) with full | free
  · have much : used * room ≤ touched := by
      calc used * room ≤ used * (touched / used) := Nat.mul_le_mul_left _ full
        _ ≤ touched := Nat.mul_div_le _ _
    rw [min_eq_right full, min_eq_right (full.trans (Nat.le_succ _)), min_eq_right much, whole,
      ← add_mul, add_comm, ← total]
  · have little : touched ≤ used * room := by
      calc touched ≤ used * (touched / used + 1) := by rw [mul_add]; omega
        _ ≤ used * room := Nat.mul_le_mul_left _ free
    rw [min_eq_left free.le, min_eq_left free, min_eq_left little, whole]
    calc rest * (touched / used) + touched % used * (touched / used + 1)
        = (touched % used + rest) * (touched / used) + touched % used := by ring
      _ = touched := by rw [← total, split]

theorem sum_balanced_min {used : Nat} (positive : 0 < used) (levels : Nat) :
    (used - touched % used) * ∑ level ∈ range levels, min (touched / used) (2 ^ level) +
        touched % used * ∑ level ∈ range levels, min (touched / used + 1) (2 ^ level) =
      ∑ level ∈ range levels, min touched (used * 2 ^ level) := by
  rw [mul_sum, mul_sum, ← sum_add_distrib]
  exact sum_congr rfl fun level _ => balanced_min positive _

/-- One number of used segments accounts for the known nodes of an even spread. -/
theorem segmentCapStep_eq (shallow : logSegmentSize ≤ 32) (low : segmentTreeDepth ≤ 32)
    (pos : 0 < used) (spans : used ≤ touched) (fits : used ≤ 2 ^ segmentTreeDepth)
    (holds : touched ≤ used * 2 ^ logSegmentSize) (maximum : Nat) :
    ∃ total, total + touched =
        Merkle.spread segmentTreeDepth logSegmentSize touched used + 1 ∧
      segmentCapStep touched logSegmentSize segmentTreeDepth maximum used =
        some (max maximum total) := by
  have split := Nat.div_add_mod touched used
  have remainder := Nat.mod_lt touched pos
  have some : touched / used ≠ 0 := (Nat.div_pos spans pos).ne'
  have room : touched / used ≤ 2 ^ logSegmentSize := Nat.div_le_of_le_mul holds
  have more : touched % used = 0 ∨ touched / used + 1 ≤ 2 ^ logSegmentSize := by
    by_contra tight
    have full : 2 ^ logSegmentSize = touched / used := by omega
    rw [full] at holds
    omega
  obtain ⟨smaller, smallerCount, smallerSum⟩ := exists_maximumSiblingCount some shallow room
  obtain ⟨upper, upperCount, upperSum⟩ := exists_maximumSiblingCount pos.ne' low fits
  obtain ⟨larger, largerCount, largerSum⟩ : ∃ larger,
      (if touched % used = 0 then Option.some 0
        else (maximumSiblingCount (touched / used + 1) logSegmentSize).map (touched % used * ·)) =
          Option.some larger ∧
      larger + touched % used * (touched / used + 1) = touched % used *
        (∑ level ∈ range logSegmentSize, min (touched / used + 1) (2 ^ level) + 1) := by
    by_cases even : touched % used = 0
    · exact ⟨0, if_pos even, by rw [even, Nat.zero_mul, Nat.zero_mul]⟩
    · obtain ⟨count, counted, sum⟩ := exists_maximumSiblingCount (Nat.succ_ne_zero _) shallow
        (more.resolve_left even)
      exact ⟨touched % used * count, by rw [if_neg even, counted, map_some],
        by rw [← mul_add, sum]⟩
  refine ⟨(used - touched % used) * smaller + larger + upper, ?_, ?_⟩
  · -- every segment adds its leaves and one to the sums of its levels
    have balance := @sum_balanced_min touched used pos logSegmentSize
    have smallerSums := congrArg ((used - touched % used) * ·) smallerSum
    simp only [Nat.mul_add, Nat.mul_one] at smallerSums largerSum
    have leaves : (used - touched % used) * (touched / used) +
        touched % used * (touched / used) = used * (touched / used) := by
      rw [← Nat.add_mul, Nat.sub_add_cancel remainder.le]
    rw [Merkle.spread]
    omega
  · simp only [segmentCapStep, if_pos (And.intro room more), smallerCount, largerCount, upperCount,
      bind_eq_bind, bind_some, Option.pure_def, max_def_lt]

theorem segmentCapStep_of_lt (pos : 0 < used) (crowded : used * 2 ^ logSegmentSize < touched)
    (maximum : Nat) :
    segmentCapStep touched logSegmentSize segmentTreeDepth maximum used = some maximum := by
  have split := Nat.div_add_mod touched used
  have remainder := Nat.mod_lt touched pos
  refine if_neg ?_
  rintro ⟨room, whole | more⟩
  · have held := Nat.mul_le_mul_left used room
    omega
  · have held := Nat.mul_le_mul_left used more
    rw [mul_add] at held
    omega

/-- The loop ends with the largest number of segments, which accounts for the most. -/
theorem foldlM_segmentCapStep (shallow : logSegmentSize ≤ 32) (low : segmentTreeDepth ≤ 32)
    (pos : 0 < used) (spans : used ≤ touched) (fits : used ≤ 2 ^ segmentTreeDepth)
    (holds : touched ≤ used * 2 ^ logSegmentSize) :
    ∃ maximum, (List.range' 1 used).foldlM
        (segmentCapStep touched logSegmentSize segmentTreeDepth) 0 = some maximum ∧
      maximum + touched = Merkle.spread segmentTreeDepth logSegmentSize touched used + 1 := by
  -- before the last number of segments, the running maximum is within its account
  have before : ∀ tried < used, ∃ running, (List.range' 1 tried).foldlM
        (segmentCapStep touched logSegmentSize segmentTreeDepth) 0 = some running ∧
      running + touched ≤ Merkle.spread segmentTreeDepth logSegmentSize touched used + 1 := by
    intro tried below
    induction tried with
    | zero =>
      obtain ⟨total, sum, -⟩ := segmentCapStep_eq shallow low pos spans fits holds 0
      exact ⟨0, rfl, by omega⟩
    | succ tried ih =>
      obtain ⟨running, done, bounded⟩ := ih (by omega)
      have next : ∃ after, segmentCapStep touched logSegmentSize segmentTreeDepth running
          (1 + tried) = some after ∧
          after + touched ≤
            Merkle.spread segmentTreeDepth logSegmentSize touched used + 1 := by
        rcases le_or_gt touched ((1 + tried) * 2 ^ logSegmentSize) with roomy | crowded
        · obtain ⟨total, sum, step⟩ := segmentCapStep_eq shallow low
            (by omega : 0 < 1 + tried) (by omega) (by omega) roomy running
          have fewer := @Merkle.spread_mono segmentTreeDepth logSegmentSize touched (1 + tried)
            used (by omega)
          exact ⟨_, step, by omega⟩
        · exact ⟨running, segmentCapStep_of_lt (by omega) crowded running, bounded⟩
      obtain ⟨after, step, within⟩ := next
      refine ⟨after, ?_, within⟩
      rw [List.range'_1_concat, List.foldlM_append, done]
      simp only [bind_eq_bind, bind_some, List.foldlM_cons, List.foldlM_nil, step]
      rfl
  obtain ⟨tried, rfl⟩ : ∃ tried, used = tried + 1 := ⟨used - 1, by omega⟩
  obtain ⟨running, done, bounded⟩ := before tried (Nat.lt_succ_self _)
  obtain ⟨total, sum, step⟩ := segmentCapStep_eq shallow low pos spans fits holds running
  refine ⟨total, ?_, sum⟩
  rw [List.range'_1_concat, List.foldlM_append, done]
  simp only [bind_eq_bind, bind_some, List.foldlM_cons, List.foldlM_nil]
  rw [add_comm 1 tried, step, max_eq_right (by omega)]
  rfl

end Segments

section Largest

variable {touched depth logSegmentSize maxSegments : Nat}

theorem expectedSiblingCount_eq_ok {indices : List Nat} :
    expectedSiblingCount indices depth = .ok count ↔
      TouchedSet depth indices ∧ (Merkle.frontierNodes indices depth).length = count := by
  constructor
  · intro counted
    obtain ⟨known, validated, -⟩ := bind_eq_ok.mp counted
    obtain ⟨set, -⟩ := validateIndices_eq_ok.mp validated
    exact ⟨set, Except.ok.inj (set.expectedSiblingCount.symm.trans counted)⟩
  · rintro ⟨set, rfl⟩
    exact set.expectedSiblingCount

theorem isGreatest_frontierSizes {segments maximum : Nat} (shallow : depth ≤ 32)
    (inside : logSegmentSize ≤ depth)
    (most : segments = min touched (min maxSegments (2 ^ (depth - logSegmentSize))))
    (positive : 0 < segments) (holds : touched ≤ segments * 2 ^ logSegmentSize)
    (sum : maximum + touched =
      Merkle.spread (depth - logSegmentSize) logSegmentSize touched segments + 1) :
    IsGreatest (frontierSizes touched depth logSegmentSize maxSegments) maximum := by
  obtain ⟨upper, rfl⟩ : ∃ upper, depth = logSegmentSize + upper :=
    ⟨depth - logSegmentSize, by omega⟩
  rw [Nat.add_sub_cancel_left] at most sum
  constructor
  · let indices := (Merkle.evenLeaves upper logSegmentSize touched segments).sort
    have increasing : indices.Pairwise (· < ·) := (sortedLT_sort _).pairwise
    obtain ⟨size, used, even⟩ := Merkle.length_frontierNodes_evenLeaves
      (show segments ≤ 2 ^ upper by omega) positive (by omega) holds increasing
      (sort_toFinset _ _)
    have inRange : ∀ index ∈ indices, index < 2 ^ (logSegmentSize + upper) := by
      intro index member
      obtain ⟨counter, -, rfl⟩ := mem_image.mp ((mem_sort _).mp member)
      exact Merkle.reversedCounter_lt counter
    have real : indices ≠ [] := List.ne_nil_of_length_pos (by omega)
    refine ⟨indices, size, by omega, expectedSiblingCount_eq_ok.mpr ?_⟩
    exact ⟨⟨shallow, real, increasing, inRange⟩, by omega⟩
  · rintro count ⟨indices, rfl, capped, counted⟩
    obtain ⟨set, rfl⟩ := expectedSiblingCount_eq_ok.mp counted
    have bound := Merkle.length_frontierNodes_le set.increasing set.nonempty set.inRange
    have few : Merkle.shadow indices.toFinset logSegmentSize ≤ segments := by
      rw [most]
      refine le_min ?_ (le_min capped ?_)
      · exact (Merkle.shadow_le_card _ _).trans (List.toFinset_card_le indices)
      · exact Merkle.shadow_le_pow fun index member =>
          set.inRange index (List.mem_toFinset.mp member)
    have fewer := @Merkle.spread_mono upper logSegmentSize indices.length _ _ few
    omega

/-- Leaves in at most so many segments fit into them. -/
theorem fits_of_frontierSizes (inside : logSegmentSize ≤ depth)
    (mem : count ∈ frontierSizes touched depth logSegmentSize maxSegments) :
    depth ≤ 32 ∧ 0 < maxSegments ∧
      touched ≤ 2 ^ logSegmentSize * min maxSegments (2 ^ (depth - logSegmentSize)) := by
  obtain ⟨indices, rfl, capped, counted⟩ := mem
  obtain ⟨set, -⟩ := expectedSiblingCount_eq_ok.mp counted
  have leaves : Merkle.shadow indices.toFinset 0 = indices.length := by
    rw [← Merkle.length_knownAt set.increasing, Merkle.knownAt]
  have under := Merkle.shadow_le_mul indices.toFinset 0 logSegmentSize
  have positions : Merkle.shadow indices.toFinset logSegmentSize ≤
      2 ^ (depth - logSegmentSize) := by
    refine Merkle.shadow_le_pow fun index mem => ?_
    rw [Nat.add_sub_cancel' inside]
    exact set.inRange index (List.mem_toFinset.mp mem)
  rw [leaves, zero_add, mul_comm] at under
  have real := List.length_pos_iff.mpr set.nonempty
  refine ⟨set.depth_le, ?_, under.trans (Nat.mul_le_mul_left _ (le_min capped positions))⟩
  by_contra none
  have zero : Merkle.shadow indices.toFinset logSegmentSize = 0 := by omega
  rw [zero] at under
  omega

theorem maximumSiblingCountWithSegmentCap_eq_some (real : touched ≠ 0)
    (inside : logSegmentSize ≤ depth) :
    maximumSiblingCountWithSegmentCap touched depth logSegmentSize maxSegments = some maximum ↔
      IsGreatest (frontierSizes touched depth logSegmentSize maxSegments) maximum := by
  have capped : (if maxSegments < 2 ^ (depth - logSegmentSize) then maxSegments
      else 2 ^ (depth - logSegmentSize)) = min maxSegments (2 ^ (depth - logSegmentSize)) :=
    (min_def_lt _ _).symm
  have most : (if touched < min maxSegments (2 ^ (depth - logSegmentSize)) then touched
      else min maxSegments (2 ^ (depth - logSegmentSize))) =
      min touched (min maxSegments (2 ^ (depth - logSegmentSize))) :=
    (min_def_lt _ _).symm
  by_cases fits : depth ≤ 32 ∧ 0 < maxSegments ∧
      touched ≤ 2 ^ logSegmentSize * min maxSegments (2 ^ (depth - logSegmentSize))
  · obtain ⟨shallow, some, holds⟩ := fits
    have power := Nat.two_pow_pos (depth - logSegmentSize)
    have room := Nat.two_pow_pos logSegmentSize
    have spread : touched ≤
        min touched (min maxSegments (2 ^ (depth - logSegmentSize))) * 2 ^ logSegmentSize := by
      rcases le_total touched (min maxSegments (2 ^ (depth - logSegmentSize))) with few | many
      · rw [min_eq_left few]
        exact Nat.le_mul_of_pos_right _ room
      · rw [min_eq_right many, mul_comm]
        exact holds
    obtain ⟨found, loop, sum⟩ := foldlM_segmentCapStep (inside.trans shallow)
      ((Nat.sub_le _ _).trans shallow)
      (show 0 < min touched (min maxSegments (2 ^ (depth - logSegmentSize))) by omega)
      (min_le_left _ _) ((min_le_right _ _).trans (min_le_right _ _)) spread
    have greatest := isGreatest_frontierSizes shallow inside rfl (by omega) spread sum
    have value : maximumSiblingCountWithSegmentCap touched depth logSegmentSize maxSegments =
        Option.some found := by
      rw [maximumSiblingCountWithSegmentCap, if_pos ⟨shallow, inside⟩, if_neg real, if_pos some]
      simp only [capped, most]
      rw [if_pos holds, loop]
    rw [value, Option.some.injEq]
    constructor
    · rintro rfl
      exact greatest
    · exact greatest.unique
  · constructor
    · intro value
      rw [maximumSiblingCountWithSegmentCap] at value
      simp only [capped] at value
      split_ifs at value <;> tauto
    · intro greatest
      exact absurd (fits_of_frontierSizes inside greatest.1) fits

theorem maximumSiblingCount_eq_some (real : touched ≠ 0) :
    maximumSiblingCount touched depth = some maximum ↔
      IsGreatest (frontierSizes touched depth depth 1) maximum := by
  have greatest : ∀ {largest}, depth ≤ 32 → touched ≤ 2 ^ depth →
      largest + touched = ∑ level ∈ range depth, min touched (2 ^ level) + 1 →
      IsGreatest (frontierSizes touched depth depth 1) largest := by
    intro largest shallow inside sum
    apply @isGreatest_frontierSizes touched depth depth 1 1 largest shallow le_rfl
    · rw [Nat.sub_self, pow_zero, Nat.min_self]
      omega
    · exact one_pos
    · rwa [one_mul]
    · simpa [Merkle.spread] using sum
  rw [maximumSiblingCount_add real]
  constructor
  · rintro ⟨shallow, inside, sum⟩
    exact greatest shallow inside sum
  · intro largest
    obtain ⟨shallow, -, inside⟩ := fits_of_frontierSizes le_rfl largest.1
    rw [Nat.sub_self, pow_zero, Nat.min_self, Nat.mul_one] at inside
    obtain ⟨found, -, sum⟩ := exists_maximumSiblingCount real shallow inside
    rw [largest.unique (greatest shallow inside sum)]
    exact ⟨shallow, inside, sum⟩

end Largest

/-- The closed form is the largest size of a frontier in the tree, and the loop the largest in at
most so many segments; where the source panics, there is no such frontier. -/
theorem maximum_sibling_counts_exact (touched depth : Nat) (real : touched ≠ 0) :
    (∀ maximum, maximumSiblingCount touched depth = some maximum ↔
      IsGreatest {count | ∃ indices : List Nat, indices.length = touched ∧
        expectedSiblingCount indices depth = .ok count} maximum) ∧
      ∀ logSegmentSize ≤ depth, ∀ maxSegments maximum,
        maximumSiblingCountWithSegmentCap touched depth logSegmentSize maxSegments =
            some maximum ↔
          IsGreatest {count | ∃ indices : List Nat, indices.length = touched ∧
            (indices.toFinset.image (· / 2 ^ logSegmentSize)).card ≤ maxSegments ∧
            expectedSiblingCount indices depth = .ok count} maximum := by
  refine ⟨fun maximum => ?_, fun logSegmentSize inside maxSegments maximum => ?_⟩
  · have anywhere : {count | ∃ indices : List Nat, indices.length = touched ∧
        expectedSiblingCount indices depth = .ok count} = frontierSizes touched depth depth 1 := by
      ext count
      constructor
      · rintro ⟨indices, size, counted⟩
        have inRange := (expectedSiblingCount_eq_ok.mp counted).1.inRange
        refine ⟨indices, size, ?_, counted⟩
        exact @Merkle.shadow_le_pow _ depth 0 fun index member =>
          inRange index (List.mem_toFinset.mp member)
      · rintro ⟨indices, size, -, counted⟩
        exact ⟨indices, size, counted⟩
    rw [anywhere]
    exact maximumSiblingCount_eq_some real
  · exact maximumSiblingCountWithSegmentCap_eq_some real inside

theorem maximum_sibling_counts_three :
    IsGreatest {count | ∃ indices : List Nat, indices.length = 3 ∧
        expectedSiblingCount indices 3 = .ok count} 4 ∧
      IsGreatest {count | ∃ indices : List Nat, indices.length = 3 ∧
        (indices.toFinset.image (· / 2 ^ 2)).card ≤ 1 ∧
        expectedSiblingCount indices 3 = .ok count} 2 := by
  have exact3 := maximum_sibling_counts_exact 3 3 (by decide)
  exact ⟨(exact3.1 4).mp (by decide), (exact3.2 2 (by decide) 1 2).mp (by decide)⟩

/-- No leaves have room for no siblings, but the empty list of indices has no size at all. -/
theorem maximum_sibling_count_empty :
    maximumSiblingCount 0 3 = some 0 ∧ maximumSiblingCountWithSegmentCap 0 3 2 1 = some 0 ∧
      ∀ indices : List Nat, indices.length = 0 →
        expectedSiblingCount indices 3 = .error .emptyIndices := by
  refine ⟨rfl, rfl, fun indices empty => ?_⟩
  rw [List.length_eq_zero_iff.mp empty]
  rfl

end Jetsam
