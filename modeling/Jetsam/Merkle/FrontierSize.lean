import Mathlib.Algebra.BigOperators.Intervals
import Mathlib.Algebra.Order.BigOperators.Group.Finset
import Mathlib.Data.Finset.Sort
import Jetsam.Merkle.Frontier

/-!
# Sizes of frontiers

The size of a frontier is fixed by the number of known nodes on each level. A level has no more of
them than positions, than leaves, and than its subtrees can hold; the leaves whose addresses are
reversed counters meet all these bounds at once.
-/

namespace Merkle

open Finset

section Levels

variable {indices : List Nat} {depth : Nat}

def shadow (leaves : Finset Nat) (level : Nat) : Nat := (leaves.image (· / 2 ^ level)).card

theorem length_knownAt (increasing : indices.Pairwise (· < ·)) (level : Nat) :
    (knownAt indices level).length = shadow indices.toFinset level := by
  have distinct : (knownAt indices level).Nodup :=
    (increasing_knownAt increasing level).imp fun less => less.ne
  have same : (knownAt indices level).toFinset = indices.toFinset.image (· / 2 ^ level) := by
    ext position
    simp [mem_knownAt]
  rw [shadow, ← same, List.toFinset_card_of_nodup distinct]

def knownChildren (known : List Nat) (parent : Nat) : List Nat :=
  [2 * parent, 2 * parent + 1].filter (· ∈ known)

theorem length_knownChildren {known : List Nat} {parent : Nat}
    (above : 2 * parent ∈ known ∨ 2 * parent + 1 ∈ known) :
    (knownChildren known parent).length + (missingChild known parent).toList.length = 2 := by
  rw [knownChildren, missingChild]
  by_cases left : 2 * parent ∈ known <;> by_cases right : 2 * parent + 1 ∈ known
  · simp [left, right]
  · simp [left, right]
  · simp [left, right]
  · simp [left, right] at above

theorem perm_knownChildren (increasing : indices.Pairwise (· < ·)) (level : Nat) :
    (knownAt indices level).Perm
      ((knownAt indices (level + 1)).flatMap (knownChildren (knownAt indices level))) := by
  have distinct : ∀ level, (knownAt indices level).Nodup :=
    fun level => (increasing_knownAt increasing level).imp fun less => less.ne
  have half : ∀ parent child, child ∈ knownChildren (knownAt indices level) parent →
      child / 2 = parent := by
    intro parent child mem
    have cases := (List.mem_filter.mp mem).1
    simp only [List.mem_cons, List.not_mem_nil, or_false] at cases
    omega
  rw [List.perm_ext_iff_of_nodup (distinct level)]
  · intro position
    rw [List.mem_flatMap]
    constructor
    · intro known
      refine ⟨position / 2, mem_parents.mpr ⟨position, known, rfl⟩, ?_⟩
      refine List.mem_filter.mpr ⟨?_, by simpa using known⟩
      simp only [List.mem_cons, List.not_mem_nil, or_false]
      omega
    · rintro ⟨parent, -, mem⟩
      simpa using (List.mem_filter.mp mem).2
  · refine List.nodup_flatMap.mpr ⟨fun parent _ => ?_, ?_⟩
    · exact List.Nodup.filter _ (by simp)
    · refine (distinct (level + 1)).imp fun {first second} different => ?_
      intro child inFirst inSecond
      exact different ((half _ _ inFirst).symm.trans (half _ _ inSecond))

/-- On one level, the known and the missing children fill the pairs above them. -/
theorem length_known_add_missing (increasing : indices.Pairwise (· < ·)) (level : Nat) :
    (knownAt indices level).length +
        ((knownAt indices (level + 1)).map fun parent =>
          (missingChild (knownAt indices level) parent).toList.length).sum =
      2 * (knownAt indices (level + 1)).length := by
  rw [(perm_knownChildren increasing level).length_eq, List.length_flatMap, ← List.sum_map_add]
  have pairs : ∀ parent ∈ knownAt indices (level + 1),
      (knownChildren (knownAt indices level) parent).length +
        (missingChild (knownAt indices level) parent).toList.length = 2 :=
    fun parent known => length_knownChildren (child_known known)
  rw [List.map_congr_left pairs]
  simp [mul_comm]

theorem length_frontierNodes_succ (indices : List Nat) (depth : Nat) :
    (frontierNodes indices (depth + 1)).length = (frontierNodes indices depth).length +
      ((knownAt indices (depth + 1)).map fun parent =>
        (missingChild (knownAt indices depth) parent).toList.length).sum := by
  simp only [frontierNodes, visits, List.range_succ, List.flatMap_append, List.length_append,
    List.flatMap_cons, List.flatMap_nil, List.append_nil, List.flatMap_map, List.length_flatMap,
    emits]
  congr 3
  funext parent
  cases missingChild (knownAt indices depth) parent <;> rfl

theorem length_frontierNodes_add (increasing : indices.Pairwise (· < ·)) (depth : Nat) :
    (frontierNodes indices depth).length + indices.length =
      ∑ level ∈ range depth, shadow indices.toFinset (level + 1) +
        shadow indices.toFinset depth := by
  induction depth with
  | zero => simp [frontierNodes, visits, ← length_knownAt increasing 0, knownAt]
  | succ depth ih =>
    have level := length_known_add_missing increasing depth
    rw [length_knownAt increasing, length_knownAt increasing] at level
    rw [length_frontierNodes_succ, sum_range_succ]
    omega

end Levels

section Bounds

variable (leaves : Finset Nat)

theorem shadow_le_card (level : Nat) : shadow leaves level ≤ leaves.card := card_image_le

theorem shadow_add (low high : Nat) :
    shadow leaves (low + high) = shadow (leaves.image (· / 2 ^ low)) high := by
  rw [shadow, shadow, image_image]
  congr 2
  funext index
  rw [Function.comp_apply, Nat.div_div_eq_div_mul, pow_add]

theorem shadow_le_pow {leaves : Finset Nat} {level height : Nat}
    (inRange : ∀ index ∈ leaves, index < 2 ^ (level + height)) :
    shadow leaves level ≤ 2 ^ height := by
  have inside : leaves.image (· / 2 ^ level) ⊆ range (2 ^ height) := by
    intro position member
    obtain ⟨index, touched, rfl⟩ := mem_image.mp member
    rw [mem_range, Nat.div_lt_iff_lt_mul (Nat.two_pow_pos level), Nat.mul_comm, ← pow_add]
    exact inRange index touched
  exact (card_le_card inside).trans_eq (card_range _)

theorem shadow_le_mul (level height : Nat) :
    shadow leaves level ≤ shadow leaves (level + height) * 2 ^ height := by
  rw [shadow_add, mul_comm]
  refine card_le_mul_card_image _ _ fun node _ => ?_
  have inside : {position ∈ leaves.image (· / 2 ^ level) | position / 2 ^ height = node} ⊆
      Ico (node * 2 ^ height) (node * 2 ^ height + 2 ^ height) := by
    intro position mem
    obtain ⟨-, under⟩ := mem_filter.mp mem
    have split := Nat.div_add_mod position (2 ^ height)
    rw [under, mul_comm] at split
    rw [mem_Ico]
    omega
  exact (card_le_card inside).trans_eq (by simp)

theorem sum_shadow (lower upper : Nat) :
    ∑ level ∈ range (lower + upper), shadow leaves (level + 1) =
      ∑ i ∈ range lower, shadow leaves (lower - i) +
        ∑ j ∈ range upper, shadow leaves (lower + (upper - j)) := by
  rw [sum_range_add, ← sum_range_reflect,
    ← sum_range_reflect fun level => shadow leaves (lower + level + 1)]
  congr 1
  · refine sum_congr rfl fun i below => congrArg _ ?_
    have := mem_range.mp below
    omega
  · refine sum_congr rfl fun j below => congrArg _ ?_
    have := mem_range.mp below
    omega

end Bounds

/-- The largest number of known nodes above `count` leaves in `segments` segments. -/
def spread (upper lower count segments : Nat) : Nat :=
  ∑ j ∈ range upper, min segments (2 ^ j) + ∑ i ∈ range lower, min count (segments * 2 ^ i)

theorem spread_mono {upper lower count few many : Nat} (fewer : few ≤ many) :
    spread upper lower count few ≤ spread upper lower count many := by
  apply add_le_add
  · exact sum_le_sum fun j _ => min_le_min_right _ fewer
  · exact sum_le_sum fun i _ => min_le_min_left _ (Nat.mul_le_mul_right _ fewer)

variable {indices : List Nat}

theorem length_frontierNodes_le {upper lower : Nat} (increasing : indices.Pairwise (· < ·))
    (nonempty : indices ≠ []) (inRange : ∀ index ∈ indices, index < 2 ^ (lower + upper)) :
    (frontierNodes indices (lower + upper)).length + indices.length ≤
      spread upper lower indices.length (shadow indices.toFinset lower) + 1 := by
  have top : shadow indices.toFinset (lower + upper) = 1 := by
    rw [← length_knownAt increasing, knownAt_top increasing nonempty inRange, List.length_singleton]
  have count : indices.toFinset.card = indices.length :=
    List.toFinset_card_of_nodup (increasing.imp fun less => less.ne)
  rw [length_frontierNodes_add increasing, top, sum_shadow, spread, add_comm (∑ i ∈ _, _)]
  refine Nat.add_le_add_right (Nat.add_le_add ?_ ?_) 1
  · refine sum_le_sum fun j below => le_min ?_ ?_
    · rw [shadow_add]
      exact shadow_le_card _ _
    · refine shadow_le_pow fun index mem => ?_
      have level : lower + (upper - j) + j = lower + upper := by
        have := mem_range.mp below
        omega
      rw [level]
      exact inRange index (List.mem_toFinset.mp mem)
  · refine sum_le_sum fun i below => le_min ?_ ?_
    · rw [← count]
      exact shadow_le_card _ _
    · have bound := shadow_le_mul indices.toFinset (lower - i) i
      rwa [Nat.sub_add_cancel (mem_range.mp below).le] at bound

/-- The lowest bits of a number, the lowest of them first. -/
def reversed : Nat → Nat → Nat
  | 0, _ => 0
  | width + 1, value => 2 * reversed width value + value / 2 ^ width % 2

theorem reversed_lt (width value : Nat) : reversed width value < 2 ^ width := by
  induction width with
  | zero => simp [reversed]
  | succ width ih =>
    rw [reversed, pow_succ]
    omega

theorem reversed_div (width cut value : Nat) :
    reversed (width + cut) value / 2 ^ cut = reversed width value := by
  induction cut with
  | zero => simp
  | succ cut ih =>
    rw [← add_assoc, reversed, pow_succ', ← Nat.div_div_eq_div_mul,
      show (2 * reversed (width + cut) value + value / 2 ^ (width + cut) % 2) / 2 =
        reversed (width + cut) value by omega, ih]

theorem reversed_eq_iff {width left right : Nat} :
    reversed width left = reversed width right ↔ left % 2 ^ width = right % 2 ^ width := by
  induction width with
  | zero => simp [reversed, Nat.mod_one]
  | succ width ih =>
    have power := Nat.two_pow_pos width
    rw [reversed, reversed, Nat.mod_pow_succ, Nat.mod_pow_succ]
    constructor
    · intro same
      have rest : reversed width left = reversed width right := by omega
      have bit : left / 2 ^ width % 2 = right / 2 ^ width % 2 := by omega
      rw [ih.mp rest, bit]
    · intro same
      rcases Nat.mod_two_eq_zero_or_one (left / 2 ^ width) with leftBit | leftBit <;>
        rcases Nat.mod_two_eq_zero_or_one (right / 2 ^ width) with rightBit | rightBit <;>
        rw [leftBit, rightBit] at same ⊢
      · rw [ih.mpr (by omega)]
      · omega
      · omega
      · rw [ih.mpr (by omega)]

theorem card_image_eq_of_iff {ι α β : Type} [DecidableEq α] [DecidableEq β] {items : Finset ι}
    {first : ι → α} {second : ι → β}
    (alike : ∀ left ∈ items, ∀ right ∈ items,
      first left = first right ↔ second left = second right) :
    (items.image first).card = (items.image second).card := by
  let pairs := items.image fun item => (first item, second item)
  have both : ∀ left ∈ pairs, ∀ right ∈ pairs, left.1 = right.1 ↔ left.2 = right.2 := by
    intro left inLeft right inRight
    obtain ⟨item, mem, rfl⟩ := mem_image.mp inLeft
    obtain ⟨other, otherMember, rfl⟩ := mem_image.mp inRight
    exact alike item mem other otherMember
  have byFirst : Set.InjOn Prod.fst (pairs : Set (α × β)) := fun left inLeft right inRight same =>
    Prod.ext same ((both left inLeft right inRight).mp same)
  have bySecond : Set.InjOn Prod.snd (pairs : Set (α × β)) := fun left inLeft right inRight same =>
    Prod.ext ((both left inLeft right inRight).mpr same) same
  calc (items.image first).card
      = (pairs.image Prod.fst).card := by rw [image_image]; rfl
    _ = pairs.card := card_image_of_injOn byFirst
    _ = (pairs.image Prod.snd).card := (card_image_of_injOn bySecond).symm
    _ = (items.image second).card := by rw [image_image]; rfl

theorem card_image_mod (count : Nat) {modulus : Nat} (pos : 0 < modulus) :
    ((range count).image (· % modulus)).card = min count modulus := by
  have residues : (range count).image (· % modulus) = range (min count modulus) := by
    ext residue
    simp only [mem_image, mem_range, lt_min_iff]
    constructor
    · rintro ⟨value, below, rfl⟩
      exact ⟨(Nat.mod_le _ _).trans_lt below, Nat.mod_lt _ pos⟩
    · rintro ⟨below, small⟩
      exact ⟨residue, below, Nat.mod_eq_of_lt small⟩
  rw [residues, card_range]

theorem digits_eq_iff {base high high' low low' : Nat} (small : low < base) (small' : low' < base) :
    high * base + low = high' * base + low' ↔ high = high' ∧ low = low' := by
  constructor
  · intro same
    have quotient := congrArg (· / base) same
    have remainder := congrArg (· % base) same
    simp only [mul_comm _ base, Nat.mul_add_div (Nat.zero_lt_of_lt small),
      Nat.mul_add_mod_self_left, Nat.div_eq_of_lt, Nat.mod_eq_of_lt, small, small',
      add_zero] at quotient remainder
    exact ⟨quotient, remainder⟩
  · rintro ⟨rfl, rfl⟩
    rfl

section Counters

variable {upper lower count segments : Nat}

/-- The address of a counter: its residue chooses a segment, its quotient a place, both reversed. -/
def reversedCounter (upper lower segments counter : Nat) : Nat :=
  reversed upper (counter % segments) * 2 ^ lower + reversed lower (counter / segments)

/-- The leaves at the addresses of the first counters. -/
def evenLeaves (upper lower count segments : Nat) : Finset Nat :=
  (range count).image (reversedCounter upper lower segments)

theorem reversedCounter_lt (counter : Nat) :
    reversedCounter upper lower segments counter < 2 ^ (lower + upper) := by
  have high := reversed_lt upper (counter % segments)
  have low := reversed_lt lower (counter / segments)
  rw [reversedCounter, pow_add]
  calc reversed upper (counter % segments) * 2 ^ lower + reversed lower (counter / segments)
      < (reversed upper (counter % segments) + 1) * 2 ^ lower := by
        rw [add_mul, one_mul]
        omega
    _ ≤ 2 ^ upper * 2 ^ lower := Nat.mul_le_mul_right _ high
    _ = 2 ^ lower * 2 ^ upper := mul_comm _ _

variable {left right height : Nat}

/-- Inside the segments, two counters share a node when they agree modulo the nodes of its level. -/
theorem reversedCounter_div_low (fits : segments ≤ 2 ^ upper) (pos : 0 < segments)
    (inside : height ≤ lower) :
    reversedCounter upper lower segments left / 2 ^ (lower - height) =
        reversedCounter upper lower segments right / 2 ^ (lower - height) ↔
      left % (segments * 2 ^ height) = right % (segments * 2 ^ height) := by
  have node : ∀ counter, reversedCounter upper lower segments counter / 2 ^ (lower - height) =
      reversed upper (counter % segments) * 2 ^ height +
        reversed height (counter / segments) := by
    intro counter
    have split : 2 ^ lower = 2 ^ height * 2 ^ (lower - height) := by
      rw [← pow_add, Nat.add_sub_cancel' inside]
    have lead := reversed_div height (lower - height) (counter / segments)
    rw [Nat.add_sub_cancel' inside] at lead
    rw [reversedCounter, split, ← mul_assoc, mul_comm, Nat.mul_add_div (Nat.two_pow_pos _),
      lead]
  have low := fun counter => reversed_lt height (counter / segments)
  have residue : ∀ counter, counter % segments % 2 ^ upper = counter % segments :=
    fun counter => Nat.mod_eq_of_lt ((Nat.mod_lt _ pos).trans_le fits)
  rw [node, node, digits_eq_iff (low left) (low right), reversed_eq_iff, reversed_eq_iff, residue,
    residue, Nat.mod_mul, Nat.mod_mul, add_comm, mul_comm, add_comm (right % segments),
    mul_comm segments, digits_eq_iff (Nat.mod_lt _ pos) (Nat.mod_lt _ pos), and_comm]

theorem reversedCounter_div_high (inside : height ≤ upper) :
    reversedCounter upper lower segments left / 2 ^ (lower + (upper - height)) =
        reversedCounter upper lower segments right / 2 ^ (lower + (upper - height)) ↔
      left % segments % 2 ^ height = right % segments % 2 ^ height := by
  have node : ∀ counter,
      reversedCounter upper lower segments counter / 2 ^ (lower + (upper - height)) =
        reversed height (counter % segments) := by
    intro counter
    have low := reversed_lt lower (counter / segments)
    have lead := reversed_div height (upper - height) (counter % segments)
    rw [Nat.add_sub_cancel' inside] at lead
    rw [reversedCounter, pow_add, ← Nat.div_div_eq_div_mul, mul_comm,
      Nat.mul_add_div (Nat.two_pow_pos _), Nat.div_eq_of_lt low, add_zero, lead]
  rw [node, node, reversed_eq_iff]

theorem shadow_evenLeaves_low (fits : segments ≤ 2 ^ upper) (positive : 0 < segments)
    {height : Nat} (inside : height ≤ lower) :
    shadow (evenLeaves upper lower count segments) (lower - height) =
      min count (segments * 2 ^ height) := by
  rw [shadow, evenLeaves, image_image,
    ← card_image_mod count (mul_pos positive (Nat.two_pow_pos height))]
  exact card_image_eq_of_iff fun _ _ _ _ => reversedCounter_div_low fits positive inside

theorem shadow_evenLeaves_high (positive : 0 < segments) (spans : segments ≤ count)
    {height : Nat} (inside : height ≤ upper) :
    shadow (evenLeaves upper lower count segments) (lower + (upper - height)) =
      min segments (2 ^ height) := by
  have residues : (range count).image (· % segments) = range segments := by
    ext residue
    simp only [mem_image, mem_range]
    constructor
    · rintro ⟨value, -, rfl⟩
      exact Nat.mod_lt _ positive
    · intro small
      exact ⟨residue, small.trans_le spans, Nat.mod_eq_of_lt small⟩
  have nodes : ((range count).image fun counter => counter % segments % 2 ^ height) =
      (range segments).image (· % 2 ^ height) := by
    rw [← residues, image_image]
    rfl
  rw [shadow, evenLeaves, image_image, ← card_image_mod segments (Nat.two_pow_pos height), ← nodes]
  exact card_image_eq_of_iff fun _ _ _ _ => reversedCounter_div_high inside

theorem length_frontierNodes_evenLeaves (fits : segments ≤ 2 ^ upper) (pos : 0 < segments)
    (spans : segments ≤ count) (holds : count ≤ segments * 2 ^ lower)
    (increasing : indices.Pairwise (· < ·))
    (even : indices.toFinset = evenLeaves upper lower count segments) :
    indices.length = count ∧ shadow indices.toFinset lower = segments ∧
      (frontierNodes indices (lower + upper)).length + count =
        spread upper lower count segments + 1 := by
  have leaves : indices.length = count := by
    have all := @shadow_evenLeaves_low upper lower count segments fits pos lower le_rfl
    rwa [Nat.sub_self, ← even, ← length_knownAt increasing 0, min_eq_left holds] at all
  have touched : shadow indices.toFinset lower = segments := by
    have all := @shadow_evenLeaves_low upper lower count segments fits pos 0 (Nat.zero_le _)
    rwa [Nat.sub_zero, ← even, pow_zero, Nat.mul_one, min_eq_right spans] at all
  have top : shadow indices.toFinset (lower + upper) = 1 := by
    have all := @shadow_evenLeaves_high upper lower count segments pos spans 0 (Nat.zero_le _)
    rwa [Nat.sub_zero, ← even, pow_zero, min_eq_right pos] at all
  refine ⟨leaves, touched, ?_⟩
  have total := length_frontierNodes_add increasing (lower + upper)
  rw [leaves, top, sum_shadow, even] at total
  rw [total, spread, add_comm (∑ j ∈ _, _)]
  congr 2
  · exact sum_congr rfl fun j below => shadow_evenLeaves_high pos spans (mem_range.mp below).le
  · exact sum_congr rfl fun i below => shadow_evenLeaves_low fits pos (mem_range.mp below).le

end Counters

end Merkle
