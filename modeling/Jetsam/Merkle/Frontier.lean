import Jetsam.Merkle.Tree
import Mathlib.Data.List.Nodup
import Mathlib.Data.Nat.Bitwise

/-!
# Frontiers of a set of leaves

The nodes above a sorted list of leaves, and the siblings that are missing to hash them up to the
root. A labelling assigns digests to both; it exists for every choice of leaves and siblings, and
every evaluation of a multiproof reads it.
-/

namespace Merkle

open List Function

/-- The parents of a list of positions, each at its first occurrence and none of `seen`. -/
def parentsFrom (seen : List Nat) : List Nat → List Nat
  | [] => []
  | position :: rest =>
    if position / 2 ∈ seen then parentsFrom seen rest
    else position / 2 :: parentsFrom (position / 2 :: seen) rest

def parents (positions : List Nat) : List Nat := parentsFrom [] positions

/-- The positions of a level that lie above the given leaves. -/
def knownAt (indices : List Nat) : Nat → List Nat
  | 0 => indices
  | level + 1 => parents (knownAt indices level)

def missingChild (known : List Nat) (parent : Nat) : Option Nat :=
  if 2 * parent ∈ known then
    if 2 * parent + 1 ∈ known then none else some (2 * parent + 1)
  else some (2 * parent)

/-- The nodes that are hashed, each as the level of its children and its own position. -/
def visits (indices : List Nat) (depth : Nat) : List (Nat × Nat) :=
  (List.range depth).flatMap fun level => (knownAt indices (level + 1)).map (level, ·)

/-- What a visit takes from the frontier. -/
def emits (indices : List Nat) (visit : Nat × Nat) : List (Nat × Nat) :=
  ((missingChild (knownAt indices visit.1) visit.2).map (visit.1, ·)).toList

/-- The missing nodes, each as its level and position, in the order of the visits. -/
def frontierNodes (indices : List Nat) (depth : Nat) : List (Nat × Nat) :=
  (visits indices depth).flatMap (emits indices)

variable {positions : List Nat} {parent : Nat}

theorem mem_parentsFrom {seen : List Nat} :
    parent ∈ parentsFrom seen positions ↔
      parent ∉ seen ∧ ∃ position ∈ positions, position / 2 = parent := by
  induction positions generalizing seen with
  | nil => simp [parentsFrom]
  | cons position rest ih =>
    rw [parentsFrom]
    split_ifs with listed
    · rw [ih]
      simp only [exists_mem_cons_iff]
      constructor
      · exact fun ⟨new, found⟩ => ⟨new, Or.inr found⟩
      · rintro ⟨new, rfl | found⟩
        · exact absurd listed new
        · exact ⟨new, found⟩
    · rw [mem_cons, ih, exists_mem_cons_iff, mem_cons, not_or]
      constructor
      · rintro (rfl | ⟨⟨-, new⟩, found⟩)
        · exact ⟨listed, Or.inl rfl⟩
        · exact ⟨new, Or.inr found⟩
      · rintro ⟨new, rfl | found⟩
        · exact Or.inl rfl
        · by_cases same : parent = position / 2
          · exact Or.inl same
          · exact Or.inr ⟨⟨same, new⟩, found⟩

theorem mem_parents :
    parent ∈ parents positions ↔ ∃ position ∈ positions, position / 2 = parent := by
  simp [parents, mem_parentsFrom]

theorem increasing_parentsFrom {seen : List Nat} (increasing : positions.Pairwise (· < ·)) :
    (parentsFrom seen positions).Pairwise (· < ·) := by
  induction positions generalizing seen with
  | nil => exact List.Pairwise.nil
  | cons position rest ih =>
    obtain ⟨above, restIncreasing⟩ := pairwise_cons.mp increasing
    rw [parentsFrom]
    split_ifs
    · exact ih restIncreasing
    · refine pairwise_cons.mpr ⟨fun parent mem => ?_, ih restIncreasing⟩
      obtain ⟨new, later, inRest, rfl⟩ := mem_parentsFrom.mp mem
      have ordered := above later inRest
      have different : later / 2 ≠ position / 2 := fun same => new (by simp [same])
      omega

variable {indices : List Nat}

theorem increasing_knownAt (increasing : indices.Pairwise (· < ·)) (level : Nat) :
    (knownAt indices level).Pairwise (· < ·) := by
  induction level with
  | zero => exact increasing
  | succ level ih => exact increasing_parentsFrom ih

variable {level position : Nat}

theorem mem_knownAt :
    position ∈ knownAt indices level ↔ ∃ index ∈ indices, index / 2 ^ level = position := by
  induction level generalizing position with
  | zero => simp [knownAt]
  | succ level ih =>
    rw [knownAt, mem_parents]
    simp only [ih]
    constructor
    · rintro ⟨_, ⟨index, mem, rfl⟩, rfl⟩
      exact ⟨index, mem, by rw [pow_succ, Nat.div_div_eq_div_mul]⟩
    · rintro ⟨index, mem, rfl⟩
      exact ⟨_, ⟨index, mem, rfl⟩, by rw [pow_succ, Nat.div_div_eq_div_mul]⟩

theorem child_known (known : parent ∈ knownAt indices (level + 1)) :
    2 * parent ∈ knownAt indices level ∨ 2 * parent + 1 ∈ knownAt indices level := by
  obtain ⟨position, mem, rfl⟩ := mem_parents.mp known
  rcases Nat.mod_two_eq_zero_or_one position with even | odd
  · left
    rwa [show 2 * (position / 2) = position by omega]
  · right
    rwa [show 2 * (position / 2) + 1 = position by omega]

variable {depth : Nat}

theorem knownAt_top (increasing : indices.Pairwise (· < ·)) (nonempty : indices ≠ [])
    (inRange : ∀ index ∈ indices, index < 2 ^ depth) :
    knownAt indices depth = [0] := by
  have zero : ∀ position ∈ knownAt indices depth, position = 0 := by
    intro position known
    obtain ⟨index, mem, rfl⟩ := mem_knownAt.mp known
    exact Nat.div_eq_of_lt (inRange index mem)
  obtain ⟨index, rest, rfl⟩ := exists_cons_of_ne_nil nonempty
  have mem : 0 ∈ knownAt (index :: rest) depth :=
    mem_knownAt.mpr ⟨index, mem_cons_self, Nat.div_eq_of_lt (inRange _ mem_cons_self)⟩
  have sorted := increasing_knownAt increasing depth
  match known : knownAt (index :: rest) depth with
  | [] => exact absurd (known ▸ mem) not_mem_nil
  | [only] =>
    rw [zero only (by simp [known])]
  | first :: second :: others =>
    rw [known] at sorted
    have ordered := (pairwise_cons.mp sorted).1 second mem_cons_self
    have secondZero := zero second (by simp [known])
    omega

theorem mem_visits {visit : Nat × Nat} :
    visit ∈ visits indices depth ↔ visit.1 < depth ∧ visit.2 ∈ knownAt indices (visit.1 + 1) := by
  obtain ⟨level, parent⟩ := visit
  simp only [visits, mem_flatMap, mem_range, mem_map, Prod.mk.injEq]
  constructor
  · rintro ⟨_, below, _, known, rfl, rfl⟩
    exact ⟨below, known⟩
  · rintro ⟨below, known⟩
    exact ⟨level, below, parent, known, rfl, rfl⟩

variable {place : Nat × Nat}

theorem mem_frontier :
    place ∈ frontierNodes indices depth ↔ place.1 < depth ∧
      ∃ parent ∈ knownAt indices (place.1 + 1),
        missingChild (knownAt indices place.1) parent = some place.2 := by
  obtain ⟨level, position⟩ := place
  simp only [frontierNodes, mem_flatMap, mem_visits, emits, Option.mem_toList,
    Option.map_eq_some_iff, Prod.exists, Prod.mk.injEq]
  constructor
  · rintro ⟨_, parent, ⟨below, known⟩, _, missing, rfl, rfl⟩
    exact ⟨below, parent, known, missing⟩
  · rintro ⟨below, parent, known, missing⟩
    exact ⟨level, parent, ⟨below, known⟩, position, missing, rfl, rfl⟩

theorem missingChild_cases {known : List Nat} {child : Nat}
    (missing : missingChild known parent = some child) :
    child ∉ known ∧ child / 2 = parent := by
  unfold missingChild at missing
  split_ifs at missing with left right
  · obtain rfl := Option.some.inj missing
    exact ⟨right, by omega⟩
  · obtain rfl := Option.some.inj missing
    exact ⟨left, by omega⟩

theorem frontier_not_known (mem : place ∈ frontierNodes indices depth) :
    place.2 ∉ knownAt indices place.1 := by
  obtain ⟨-, parent, -, missing⟩ := mem_frontier.mp mem
  exact (missingChild_cases missing).1

theorem frontier_lt (inRange : ∀ index ∈ indices, index < 2 ^ depth)
    (mem : place ∈ frontierNodes indices depth) : place.2 < 2 ^ (depth - place.1) := by
  obtain ⟨below, parent, known, missing⟩ := mem_frontier.mp mem
  obtain ⟨index, touched, rfl⟩ := mem_knownAt.mp known
  have half := (missingChild_cases missing).2
  have bound := inRange index touched
  rw [show depth = depth - (place.1 + 1) + (place.1 + 1) by omega, pow_add] at bound
  have parentBound := (Nat.div_lt_iff_lt_mul (Nat.two_pow_pos _)).mpr bound
  rw [show depth - place.1 = depth - (place.1 + 1) + 1 by omega, pow_succ]
  omega

theorem nodup_visits (increasing : indices.Pairwise (· < ·)) (depth : Nat) :
    (visits indices depth).Nodup := by
  refine nodup_flatMap.mpr ⟨fun level _ => ?_, ?_⟩
  · have distinct := (increasing_knownAt increasing (level + 1)).imp ne_of_lt
    exact List.Nodup.map (fun _ _ same => (Prod.mk.inj same).2) distinct
  · refine nodup_range.imp fun {level other} different => ?_
    intro visit first second
    obtain ⟨_, _, rfl⟩ := mem_map.mp first
    obtain ⟨_, _, same⟩ := mem_map.mp second
    exact different (Prod.mk.inj same).1.symm

theorem nodup_frontier (increasing : indices.Pairwise (· < ·)) (depth : Nat) :
    (frontierNodes indices depth).Nodup := by
  refine nodup_flatMap.mpr ⟨fun visit _ => ?_, ?_⟩
  · rw [emits]
    cases (missingChild (knownAt indices visit.1) visit.2).map (visit.1, ·) with
    | none => exact nodup_nil
    | some place => exact nodup_singleton place
  · refine (nodup_visits increasing depth).imp fun {visit other} different => ?_
    intro place first second
    simp only [emits, Option.mem_toList, Option.map_eq_some_iff] at first second
    obtain ⟨child, missing, rfl⟩ := first
    obtain ⟨_, otherMissing, same⟩ := second
    obtain ⟨sameLevel, rfl⟩ := Prod.mk.inj same
    have parent := (missingChild_cases missing).2
    have otherParent := (missingChild_cases otherMissing).2
    exact different (Prod.ext sameLevel.symm (parent.symm.trans otherParent))

section Labels

variable {D : Type} (node : D → D → D)

/-- Digests for the nodes above the leaves and for the frontier, each hashed from its children. -/
structure Labels (depth : Nat) (indices : List Nat) (leaves : Nat → D) (siblings : List D)
    (label : Nat → Nat → D) : Prop where
  leaf : ∀ index ∈ indices, label 0 index = leaves index
  sibling : siblings = (frontierNodes indices depth).map fun place => label place.1 place.2
  parent : ∀ level < depth, ∀ position ∈ knownAt indices (level + 1),
    label (level + 1) position =
      node (label level (2 * position)) (label level (2 * position + 1))

/-- Hashing up from the leaves, with the rest of each level taken from `supplied`. -/
def fill (indices : List Nat) (leaves : Nat → D) (supplied : Nat × Nat → D) : Nat → Nat → D
  | 0, position => if position ∈ indices then leaves position else supplied (0, position)
  | level + 1, position =>
    if position ∈ knownAt indices (level + 1) then
      node (fill indices leaves supplied level (2 * position))
        (fill indices leaves supplied level (2 * position + 1))
    else supplied (level + 1, position)

theorem fill_of_not_known {leaves : Nat → D} {supplied : Nat × Nat → D}
    (unknown : position ∉ knownAt indices level) :
    fill node indices leaves supplied level position = supplied (level, position) := by
  cases level with
  | zero => exact if_neg unknown
  | succ level => exact if_neg unknown

end Labels

theorem exists_map_eq {A B : Type} [DecidableEq A] {keys : List A} {values : List B}
    (distinct : keys.Nodup) (sameLength : values.length = keys.length) (default : B) :
    ∃ f : A → B, keys.map f = values := by
  induction keys generalizing values with
  | nil => exact ⟨fun _ => default, (eq_nil_of_length_eq_zero sameLength).symm⟩
  | cons key rest ih =>
    obtain ⟨value, others, rfl⟩ : ∃ value others, values = value :: others :=
      exists_cons_of_length_eq_add_one sameLength
    obtain ⟨new, restDistinct⟩ := nodup_cons.mp distinct
    obtain ⟨f, agrees⟩ := ih restDistinct (Nat.succ.inj sameLength)
    refine ⟨update f key value, ?_⟩
    rw [map_cons, update_self, ← agrees]
    congr 1
    refine map_congr_left fun other mem => ?_
    have different : other ≠ key := fun same => new (same ▸ mem)
    exact update_of_ne different _ _

section Labels

variable {D : Type} {node : D → D → D} {depth : Nat} {indices : List Nat} {leaves : Nat → D}
  {siblings : List D} {label : Nat → Nat → D}

theorem exists_labels (increasing : indices.Pairwise (· < ·))
    (sameLength : siblings.length = (frontierNodes indices depth).length) :
    ∃ label, Labels node depth indices leaves siblings label := by
  obtain ⟨supplied, agrees⟩ :=
    exists_map_eq (nodup_frontier increasing depth) sameLength (leaves 0)
  refine ⟨fill node indices leaves supplied, ?_, ?_, ?_⟩
  · intro index member
    exact if_pos member
  · rw [← agrees]
    refine map_congr_left fun place member => ?_
    exact (fill_of_not_known node (frontier_not_known member)).symm
  · intro level _ position known
    exact if_pos known

theorem labels_subtree (node : D → D → D) (leaves : Nat → D) :
    Labels node depth indices leaves
      ((frontierNodes indices depth).map fun place => subtree node leaves place.1 place.2)
      (subtree node leaves) where
  leaf := fun index _ => subtree_zero index
  sibling := rfl
  parent := fun level _ position _ => subtree_succ level position

namespace Labels

theorem length_siblings (labels : Labels node depth indices leaves siblings label) :
    siblings.length = (frontierNodes indices depth).length := by
  rw [labels.sibling, length_map]

variable {other : Nat → Nat → D}

section

variable (labels : Labels node depth indices leaves siblings label)

include labels

/-- Labels agree on the leaves when they agree on the top level and hashing is injective. -/
theorem leaf_eq_of_top_eq (injective : Injective2 node)
    (otherParent : ∀ level < depth, ∀ position ∈ knownAt indices (level + 1),
      other (level + 1) position =
        node (other level (2 * position)) (other level (2 * position + 1)))
    (sameTop : ∀ position ∈ knownAt indices depth, label depth position = other depth position) :
    ∀ index ∈ indices, label 0 index = other 0 index := by
  -- from the top down: equal parents have equal children
  have agrees : ∀ height ≤ depth, ∀ position ∈ knownAt indices (depth - height),
      label (depth - height) position = other (depth - height) position := by
    intro height
    induction height with
    | zero => exact fun _ => sameTop
    | succ height ih =>
      intro above position known
      obtain ⟨level, sameLevel⟩ : ∃ level, depth - height = level + 1 :=
        ⟨depth - (height + 1), by omega⟩
      rw [show depth - (height + 1) = level by omega] at known ⊢
      rw [sameLevel] at ih
      have parentKnown : position / 2 ∈ knownAt indices (level + 1) :=
        mem_parents.mpr ⟨position, known, rfl⟩
      have same := ih (by omega) (position / 2) parentKnown
      rw [labels.parent level (by omega) _ parentKnown,
        otherParent level (by omega) _ parentKnown] at same
      obtain ⟨left, right⟩ := injective same
      rcases Nat.mod_two_eq_zero_or_one position with even | odd
      · rwa [show 2 * (position / 2) = position by omega] at left
      · rwa [show 2 * (position / 2) + 1 = position by omega] at right
  have bottom := agrees depth le_rfl
  rwa [Nat.sub_self] at bottom

/-- Labels agree on the leaves when they agree on the root and hashing is injective. -/
theorem leaf_eq_of_same_root (injective : Injective2 node)
    (inRange : ∀ index ∈ indices, index < 2 ^ depth)
    (otherParent : ∀ level < depth, ∀ position ∈ knownAt indices (level + 1),
      other (level + 1) position =
        node (other level (2 * position)) (other level (2 * position + 1)))
    (sameRoot : label depth 0 = other depth 0) :
    ∀ index ∈ indices, label 0 index = other 0 index := by
  apply labels.leaf_eq_of_top_eq injective otherParent
  intro position known
  obtain ⟨index, mem, rfl⟩ := mem_knownAt.mp known
  rw [Nat.div_eq_of_lt (inRange index mem)]
  exact sameRoot

end

end Labels

theorem mem_frontier_of_child (below : level < depth)
    (parentKnown : parent ∈ knownAt indices (level + 1)) (child : position / 2 = parent)
    (unknown : position ∉ knownAt indices level) :
    (level, position) ∈ frontierNodes indices depth := by
  refine mem_frontier.mpr ⟨below, parent, parentKnown, ?_⟩
  rcases child_known parentKnown with left | right
  · obtain rfl : position = 2 * parent + 1 := by
      have : position ≠ 2 * parent := fun same => unknown (same ▸ left)
      omega
    simp [missingChild, left, unknown]
  · obtain rfl : position = 2 * parent := by
      have : position ≠ 2 * parent + 1 := fun same => unknown (same ▸ right)
      omega
    simp [missingChild, unknown]

end Labels

end Merkle
