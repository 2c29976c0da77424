import Jetsam.Consensus.Validation

/-!
# Slot domain expansion along a header chain

The depth of a child is decided by the occupancy of 18 ancestors, the newest 8 blocks below its
parent. Counts from before an expansion cannot reach three quarters of the doubled domain, so the
next one has to wait.
-/

namespace Jetsam

open Control List

variable {D : Type}

def finalizedActiveCounts (headers : Nat → BlockHeader D) (parentHeight : Nat) : List Nat :=
  match finalizedExpansionWindow parentHeight with
  | none => []
  | some (first, last) =>
    (List.range' first (last + 1 - first)).map fun height => (headers height).activeSlotCount

/-- A header chain up to `tip` whose depths follow the expansion rule and whose occupancy fits. -/
structure FollowsExpansion (headers : Nat → BlockHeader D) (tip : Nat) : Prop where
  genesis : (headers 0).logSlots ≤ logSlotsMax
  child : ∀ height < tip, (headers (height + 1)).logSlots =
    expectedChildLogSlots height (headers height).logSlots (finalizedActiveCounts headers height)
  occupied : ∀ height ≤ tip, (headers height).activeSlotCount ≤ 2 ^ (headers height).logSlots

def ExpandsAt (headers : Nat → BlockHeader D) (height : Nat) : Prop :=
  0 < height ∧ (headers height).logSlots = (headers (height - 1)).logSlots + 1

variable {parentHeight first : Nat}

theorem finalizedExpansionWindow_eq_some {last : Nat} :
    finalizedExpansionWindow parentHeight = some (first, last) ↔
      25 ≤ parentHeight ∧ first = parentHeight - 25 ∧ last = parentHeight - 8 := by
  simp only [finalizedExpansionWindow, consensusFinalityDepth, expansionWindow, Option.bind_eq_bind,
    Option.bind_eq_some_iff, checkedSub_eq_some, Option.pure_def, Option.some.injEq, Prod.mk.injEq]
  constructor
  · rintro ⟨_, ⟨deep, rfl⟩, _, ⟨long, rfl⟩, rfl, rfl⟩
    omega
  · rintro ⟨deep, rfl, rfl⟩
    exact ⟨_, ⟨by omega, rfl⟩, _, ⟨by omega, rfl⟩, by omega, rfl⟩

theorem finalizedActiveCounts_eq (headers : Nat → BlockHeader D) (deep : 25 ≤ parentHeight) :
    finalizedActiveCounts headers parentHeight =
      (List.range' (parentHeight - 25) 18).map fun height => (headers height).activeSlotCount := by
  have window := finalizedExpansionWindow_eq_some.mpr ⟨deep, rfl, rfl⟩
  rw [finalizedActiveCounts, window]
  dsimp only
  rw [show parentHeight - 8 + 1 - (parentHeight - 25) = 18 by omega]

theorem expectedChildLogSlots_cases (parentHeight parentLogSlots : Nat) (counts : List Nat) :
    expectedChildLogSlots parentHeight parentLogSlots counts = parentLogSlots ∨
      expectedChildLogSlots parentHeight parentLogSlots counts =
        min (parentLogSlots + 1) logSlotsMax := by
  unfold expectedChildLogSlots
  generalize (if parentLogSlots < 64 then 2 ^ parentLogSlots else u64Max) = capacity
  dsimp only
  split_ifs
  · exact Or.inl rfl
  · exact Or.inl rfl
  · exact Or.inr rfl
  · exact Or.inl rfl

/-- An expansion needs ten headers of the window at three quarters of the parent domain. -/
theorem majority_of_expands {parentLogSlots : Nat} {counts : List Nat}
    (expands : expectedChildLogSlots parentHeight parentLogSlots counts = parentLogSlots + 1) :
    25 ≤ parentHeight ∧ parentLogSlots < logSlotsMax ∧
      10 ≤ counts.countP fun active => decide (3 * 2 ^ parentLogSlots ≤ 4 * active) := by
  have grows : parentLogSlots ≠ parentLogSlots + 1 := (Nat.lt_succ_self _).ne
  have below : parentLogSlots < logSlotsMax := by
    rcases expectedChildLogSlots_cases parentHeight parentLogSlots counts with same | grown
    · exact absurd (same.symm.trans expands) grows
    · have := min_le_right (parentLogSlots + 1) logSlotsMax
      rw [← grown, expands] at this
      exact this
  have small : parentLogSlots ≤ 31 := by
    rw [logSlotsMax] at below
    omega
  have scaled : satMul (2 ^ parentLogSlots) 3 = 3 * 2 ^ parentLogSlots := by
    have power : 2 ^ parentLogSlots ≤ 2 ^ 31 := Nat.pow_le_pow_right (by norm_num) small
    rw [satMul, u64Max, mul_comm]
    omega
  unfold expectedChildLogSlots at expands
  rw [if_pos (show parentLogSlots < 64 by omega)] at expands
  dsimp only at expands
  rw [scaled] at expands
  split_ifs at expands with early incomplete trigger
  · exact absurd expands grows
  · exact absurd expands grows
  · obtain ⟨⟨first, last⟩, window⟩ :=
      Option.ne_none_iff_exists'.mp (mt Option.isNone_iff_eq_none.mpr early)
    refine ⟨(finalizedExpansionWindow_eq_some.mp window).1, below, ?_⟩
    refine le_trans trigger (countP_mono_left fun active _ reaches => ?_)
    refine decide_eq_true ?_
    calc 3 * 2 ^ parentLogSlots ≤ satMul active 4 := of_decide_eq_true reaches
      _ ≤ active * 4 := min_le_left _ _
      _ = 4 * active := mul_comm _ _
  · exact absurd expands grows

namespace FollowsExpansion

variable {headers : Nat → BlockHeader D} {tip : Nat}

section

variable (chain : FollowsExpansion headers tip)

include chain

variable {height : Nat}

theorem logSlots_le (bound : height ≤ tip) :
    (headers height).logSlots ≤ logSlotsMax := by
  induction height with
  | zero => exact chain.genesis
  | succ height ih =>
    have parent := ih (by omega)
    rw [chain.child height bound]
    rcases expectedChildLogSlots_cases height (headers height).logSlots
      (finalizedActiveCounts headers height) with same | grown
    · rwa [same]
    · rw [grown]
      exact min_le_right _ _

theorem step (bound : height < tip) :
    (headers height).logSlots ≤ (headers (height + 1)).logSlots ∧
      (headers (height + 1)).logSlots ≤ (headers height).logSlots + 1 := by
  have parent := chain.logSlots_le bound.le
  rw [chain.child height bound]
  rcases expectedChildLogSlots_cases height (headers height).logSlots
    (finalizedActiveCounts headers height) with same | grown
  · rw [same]
    exact ⟨le_rfl, Nat.le_succ _⟩
  · rw [grown]
    exact ⟨le_min (Nat.le_succ _) parent, min_le_left _ _⟩

theorem monotone {low high : Nat} (ordered : low ≤ high) (bound : high ≤ tip) :
    (headers low).logSlots ≤ (headers high).logSlots := by
  induction high, ordered using Nat.le_induction with
  | base => exact le_rfl
  | succ high _ ih => exact (ih (by omega)).trans (chain.step bound).1

end

end FollowsExpansion

theorem countP_range_le {start length first : Nat} (counted : Nat → Bool)
    (later : ∀ height, counted height = true → first ≤ height) :
    (List.range' start length).countP counted ≤ min length (start + length - first) := by
  induction length generalizing start with
  | zero => simp
  | succ length ih =>
    rw [range'_succ, countP_cons]
    have rest := @ih (start + 1)
    split_ifs with isCounted
    · have := later start isCounted
      omega
    · omega

namespace FollowsExpansion

variable {headers other : Nat → BlockHeader D} {tip otherTip : Nat}

theorem spacing (chain : FollowsExpansion headers tip) {second : Nat} (ordered : first < second)
    (bound : second ≤ tip) (firstExpands : ExpandsAt headers first)
    (secondExpands : ExpandsAt headers second) : first + expansionWindow ≤ second := by
  obtain ⟨firstPositive, firstGrows⟩ := firstExpands
  obtain ⟨-, secondGrows⟩ := secondExpands
  obtain ⟨parent, rfl⟩ : ∃ parent, second = parent + 1 := ⟨second - 1, by omega⟩
  rw [Nat.add_sub_cancel, chain.child parent bound] at secondGrows
  obtain ⟨deep, -, majority⟩ := majority_of_expands secondGrows
  rw [finalizedActiveCounts_eq headers deep, countP_map] at majority
  -- a header below the first expansion fits in half of the parent's domain
  have later : ∀ height, decide (3 * 2 ^ (headers parent).logSlots ≤
      4 * (headers height).activeSlotCount) = true → first ≤ height := by
    intro height counted
    by_contra before
    have fits := chain.occupied height (by omega)
    have below := chain.monotone (show height ≤ first - 1 by omega) (by omega)
    have above := chain.monotone (show first ≤ parent by omega) (by omega)
    have doubled : 2 * 2 ^ (headers height).logSlots ≤ 2 ^ (headers parent).logSlots := by
      rw [← pow_succ']
      exact Nat.pow_le_pow_right (by norm_num) (by omega)
    have pos := Nat.two_pow_pos (headers height).logSlots
    rw [decide_eq_true_eq] at counted
    omega
  have counted := @countP_range_le (parent - 25) 18 first _ later
  have := majority.trans counted
  rw [expansionWindow]
  omega

theorem logSlots_eq_of_prefix (chain : FollowsExpansion headers tip)
    (otherChain : FollowsExpansion other otherTip) {shared : Nat}
    (agree : ∀ height ≤ shared, headers height = other height) {height : Nat}
    (near : height ≤ shared + 9) (bound : height ≤ tip) (otherBound : height ≤ otherTip) :
    (headers height).logSlots = (other height).logSlots := by
  induction height with
  | zero => rw [agree 0 (Nat.zero_le _)]
  | succ height ih =>
    have parents := ih (by omega) (by omega) (by omega)
    have counts : finalizedActiveCounts headers height = finalizedActiveCounts other height := by
      by_cases deep : 25 ≤ height
      · rw [finalizedActiveCounts_eq headers deep, finalizedActiveCounts_eq other deep]
        refine map_congr_left fun ancestor mem => ?_
        rw [mem_range'_1] at mem
        rw [agree ancestor (by omega)]
      · have none : finalizedExpansionWindow height = none := by
          refine Option.eq_none_iff_forall_ne_some.mpr fun ⟨first, last⟩ window => deep ?_
          exact (finalizedExpansionWindow_eq_some.mp window).1
        rw [finalizedActiveCounts, finalizedActiveCounts, none]
    rw [chain.child height bound, otherChain.child height otherBound, parents, counts]

/-- Along every chain that follows the rule the depth never falls, grows by one at most every 18
blocks, up to 32, and a prefix decides the nine blocks after it. -/
theorem expansion_schedule (chain : FollowsExpansion headers tip) :
    (∀ height < tip, (headers height).logSlots ≤ (headers (height + 1)).logSlots ∧
      (headers (height + 1)).logSlots ≤ (headers height).logSlots + 1) ∧
    (∀ height ≤ tip, (headers height).logSlots ≤ 32) ∧
    (∀ first second, first < second → second ≤ tip → ExpandsAt headers first →
      ExpandsAt headers second → first + 18 ≤ second) ∧
    ∀ (other : Nat → BlockHeader D) (otherTip shared : Nat), FollowsExpansion other otherTip →
      (∀ height ≤ shared, headers height = other height) →
      ∀ height ≤ shared + 9, height ≤ tip → height ≤ otherTip →
        (headers height).logSlots = (other height).logSlots :=
  ⟨fun _ bound => chain.step bound, fun _ bound => chain.logSlots_le bound,
    fun _ _ ordered bound first second => chain.spacing ordered bound first second,
    fun _ _ _ otherChain agree _ near bound otherBound =>
      chain.logSlots_eq_of_prefix otherChain agree near bound otherBound⟩

end FollowsExpansion

/-- Headers of a full domain of 24 levels, expanded as soon as the window is complete. -/
def crowdedHeaders (height : Nat) : BlockHeader Unit where
  prevBlockHash := 0
  stateRoot := ()
  txRoot := 0
  timestamp := 0
  height := height
  minerAddress := 0
  nonce := 0
  difficultyTarget := 0
  logSlots := if height < 26 then 24 else 25
  activeSlotCount := 2 ^ 24
  allocCounter := 0

theorem expansion_schedule_crowded :
    FollowsExpansion crowdedHeaders 26 ∧ ExpandsAt crowdedHeaders 26 ∧
      ∀ first < 26, ¬ ExpandsAt crowdedHeaders first ∨ first + 18 ≤ 26 := by
  have chain : FollowsExpansion crowdedHeaders 26 :=
    ⟨by decide, by decide, fun height _ => by
      unfold crowdedHeaders
      split_ifs
      · norm_num
      · norm_num⟩
  have expands : ExpandsAt crowdedHeaders 26 := by
    unfold ExpandsAt
    decide
  refine ⟨chain, expands, fun first before => ?_⟩
  by_cases firstExpands : ExpandsAt crowdedHeaders first
  · exact Or.inr (chain.expansion_schedule.2.2.1 first 26 before le_rfl firstExpands expands)
  · exact Or.inl firstExpands

end Jetsam
