import Jetsam.Merkle.Frontier
import Jetsam.State.RootCache

/-!
# Sparse Merkle cache

The cache keeps only the nodes that differ from the empty tree of their level. Setting a leaf
rehashes its ancestor path.
-/

namespace Jetsam

open Control List

variable {D : Type}

/-- Errors of the sparse Merkle helpers; a panic of the source is an error of its own. -/
inductive SparseMerkleError
  | invalidDepth (depth : Nat)
  | emptyIndices
  | leafCountMismatch (indices leaves : Nat)
  | unsortedIndices
  | duplicateIndex (index : Nat)
  | indexOutOfRange (index depth : Nat)
  | proofLengthMismatch (expected actual : Nat)
  | cacheDepthMismatch (cacheDepth requestedDepth : Nat)
  | panicked
  deriving Repr, DecidableEq

def validateDepth (depth : Nat) : Except SparseMerkleError Unit :=
  require (depth ≤ 32) (.invalidDepth depth)

def validateIndex (index depth : Nat) : Except SparseMerkleError Unit := do
  validateDepth depth
  require (index < 2 ^ depth) (.indexOutOfRange index depth)

def requireAfter (previous : Option Nat) (index : Nat) : Except SparseMerkleError Unit :=
  match previous with
  | none => .ok ()
  | some previous => do
    require (¬ index < previous) .unsortedIndices
    require (index ≠ previous) (.duplicateIndex index)

/-- One index of the list, with the index before it and the set collected so far. -/
def validateNext (depth : Nat) (progress : Option Nat × List (Nat × Unit)) (index : Nat) :
    Except SparseMerkleError (Option Nat × List (Nat × Unit)) := do
  validateIndex index depth
  requireAfter progress.1 index
  pure (some index, insertKey index () progress.2)

/-- The set of touched indices; they must be given in strictly increasing order. -/
def validateIndices (indices : List Nat) (depth : Nat) :
    Except SparseMerkleError (List (Nat × Unit)) := do
  validateDepth depth
  require (indices ≠ []) .emptyIndices
  let (_, out) ← indices.foldlM (validateNext depth) (none, [])
  pure out

/-- Strictly sorted, non-empty and in range: what a list of touched indices has to be. -/
structure TouchedSet (depth : Nat) (indices : List Nat) : Prop where
  depth_le : depth ≤ 32
  nonempty : indices ≠ []
  increasing : indices.Pairwise (· < ·)
  inRange : ∀ index ∈ indices, index < 2 ^ depth

variable {index depth : Nat}

theorem validateIndex_eq_ok {done : Unit} :
    validateIndex index depth = .ok done ↔ depth ≤ 32 ∧ index < 2 ^ depth := by
  simp only [validateIndex, validateDepth, bind_eq_ok, require_eq_ok, exists_const]

theorem requireAfter_eq_ok {previous : Option Nat} {done : Unit} :
    requireAfter previous index = .ok done ↔
      ∀ earlier, previous = some earlier → earlier < index := by
  cases previous with
  | none => simp [requireAfter]
  | some previous =>
    simp only [requireAfter, bind_eq_ok, require_eq_ok, exists_const, Option.some.injEq, forall_eq']
    omega

theorem validateNext_eq_ok {before after : Option Nat × List (Nat × Unit)} :
    validateNext depth before index = .ok after ↔
      (depth ≤ 32 ∧ index < 2 ^ depth) ∧ (∀ earlier, before.1 = some earlier → earlier < index) ∧
        (some index, insertKey index () before.2) = after := by
  simp only [validateNext, bind_eq_ok, validateIndex_eq_ok, requireAfter_eq_ok, pure_eq_ok,
    exists_const]

/-- The loop accepts exactly the sorted continuations of what it has seen. -/
theorem foldlM_validateNext_eq_ok {depth : Nat} (shallow : depth ≤ 32) {indices : List Nat}
    {previous : Option Nat} {seen out : List (Nat × Unit)}
    (bounded : ∀ key ∈ seen.map Prod.fst, ∃ earlier, previous = some earlier ∧ key ≤ earlier) :
    (∃ last, indices.foldlM (validateNext depth) (previous, seen) = .ok (last, out)) ↔
      (∀ index ∈ indices, index < 2 ^ depth) ∧
        (∀ earlier, previous = some earlier → ∀ index ∈ indices, earlier < index) ∧
        indices.Pairwise (· < ·) ∧ seen ++ indices.map (·, ()) = out := by
  induction indices generalizing previous seen with
  | nil => simp
  | cons index indices ih =>
    have fresh : (∀ earlier, previous = some earlier → earlier < index) →
        insertKey index () seen = seen ++ [(index, ())] := by
      intro after
      refine insertKey_of_above fun key member => ?_
      obtain ⟨earlier, same, low⟩ := bounded key member
      exact lt_of_le_of_lt low (after earlier same)
    have boundedNext : (∀ earlier, previous = some earlier → earlier < index) →
        ∀ key ∈ (seen ++ [(index, ())]).map Prod.fst,
          ∃ earlier, some index = some earlier ∧ key ≤ earlier := by
      intro after key member
      refine ⟨index, rfl, ?_⟩
      rw [map_append, mem_append] at member
      rcases member with old | new
      · obtain ⟨earlier, same, low⟩ := bounded key old
        exact low.trans (after earlier same).le
      · simp only [map_cons, map_nil, mem_singleton] at new
        exact new.le
    simp only [foldlM_cons_eq_ok, validateNext_eq_ok, forall_mem_cons, pairwise_cons]
    constructor
    · rintro ⟨last, middle, ⟨⟨-, inRange⟩, after, rfl⟩, rest⟩
      rw [fresh after] at rest
      obtain ⟨inRanges, above, sorted, rfl⟩ := (ih (boundedNext after)).mp ⟨last, rest⟩
      have aboveIndex := above index rfl
      refine ⟨⟨inRange, inRanges⟩, fun earlier same => ⟨after earlier same, fun later member => ?_⟩,
        ⟨aboveIndex, sorted⟩, by simp⟩
      exact (after earlier same).trans (aboveIndex later member)
    · rintro ⟨⟨inRange, inRanges⟩, above, ⟨aboveIndex, sorted⟩, rfl⟩
      have after : ∀ earlier, previous = some earlier → earlier < index :=
        fun earlier same => (above earlier same).1
      obtain ⟨last, rest⟩ := (ih (boundedNext after)).mpr ⟨inRanges, fun earlier same => by
        obtain rfl := Option.some.inj same
        exact aboveIndex, sorted, append_assoc _ _ _⟩
      refine ⟨last, _, ⟨⟨shallow, inRange⟩, after, rfl⟩, ?_⟩
      rw [fresh after]
      exact rest

theorem validateIndices_eq_ok {indices : List Nat} {known : List (Nat × Unit)} :
    validateIndices indices depth = .ok known ↔
      TouchedSet depth indices ∧ indices.map (·, ()) = known := by
  simp only [validateIndices, validateDepth, bind_eq_ok, require_eq_ok, exists_const, Prod.exists,
    pure_eq_ok]
  constructor
  · rintro ⟨shallow, nonempty, last, out, run, rfl⟩
    obtain ⟨inRange, -, increasing, same⟩ :=
      (foldlM_validateNext_eq_ok shallow (by simp)).mp ⟨last, run⟩
    exact ⟨⟨shallow, nonempty, increasing, inRange⟩, same⟩
  · rintro ⟨touched, rfl⟩
    obtain ⟨last, run⟩ := (@foldlM_validateNext_eq_ok _ touched.depth_le indices none [] _
      (by simp)).mpr ⟨touched.inRange, by simp, touched.increasing, rfl⟩
    exact ⟨touched.depth_le, touched.nonempty, last, _, run, rfl⟩

/-- Sparse non-default node cache; nodes are indexed by level and position. -/
structure SparseMerkleCache (D : Type) where
  depth : Nat
  nodes : Nat → Nat → Option D

namespace SparseMerkleCache

variable (hasher : StateHasher D)

def new (depth : Nat) : Except SparseMerkleError (SparseMerkleCache D) := do
  validateDepth depth
  pure { depth, nodes := fun _ _ => none }

def nodeHash (cache : SparseMerkleCache D) (level index : Nat) : D :=
  (cache.nodes level index).getD (hasher.zeroSlotRoot level)

variable [DecidableEq D]

/-- Store a node, or drop the entry when it is the node of the empty tree. -/
def setNode (cache : SparseMerkleCache D) (level index : Nat) (hash : D) : SparseMerkleCache D :=
  let entry := if hash = hasher.zeroSlotRoot level then none else some hash
  let row := Function.update (cache.nodes level) index entry
  { cache with nodes := Function.update cache.nodes level row }

def setAncestors : Nat → Nat → SparseMerkleCache D → Nat → D → SparseMerkleCache D
  | 0, _, cache, _, _ => cache
  | levels + 1, level, cache, index, hash =>
    let sibling := cache.nodeHash hasher level (index ^^^ 1)
    let base := index - index % 2
    let parent :=
      if index = base then hasher.stateNodeHash hash sibling
      else hasher.stateNodeHash sibling hash
    setAncestors levels (level + 1) (cache.setNode hasher (level + 1) (base / 2) parent)
      (base / 2) parent

/-- Set one leaf and update only its ancestor path. -/
def setLeaf (cache : SparseMerkleCache D) (index : Nat) (leaf : D) :
    Except SparseMerkleError (SparseMerkleCache D) := do
  validateIndex index cache.depth
  pure (setAncestors hasher cache.depth 0 (cache.setNode hasher 0 index leaf) index leaf)

def fromLeaves (depth : Nat) (leaves : List (Nat × D)) :
    Except SparseMerkleError (SparseMerkleCache D) := do
  let cache ← new depth
  leaves.foldlM (fun cache leaf => setLeaf hasher cache leaf.1 leaf.2) cache

variable {hasher}

theorem nodeHash_setNode (cache : SparseMerkleCache D) (level index : Nat) (hash : D)
    (otherLevel other : Nat) :
    (cache.setNode hasher level index hash).nodeHash hasher otherLevel other =
      if otherLevel = level ∧ other = index then hash
      else cache.nodeHash hasher otherLevel other := by
  by_cases sameLevel : otherLevel = level
  · subst sameLevel
    by_cases same : other = index
    · subst same
      by_cases zero : hash = hasher.zeroSlotRoot otherLevel
      · simp [setNode, nodeHash, zero]
      · simp [setNode, nodeHash, zero]
    · simp [setNode, nodeHash, same]
  · simp [setNode, nodeHash, sameLevel]

/-- The cache represents every node of the full tree over the leaves. -/
def Covers (hasher : StateHasher D) (cache : SparseMerkleCache D) (leaves : Nat → D) : Prop :=
  ∀ level ≤ cache.depth, ∀ position < 2 ^ (cache.depth - level),
    cache.nodeHash hasher level position =
      Merkle.subtree hasher.stateNodeHash leaves level position

variable {cache : SparseMerkleCache D} {leaves : Nat → D}

omit [DecidableEq D] in
theorem Covers.congr {other : Nat → D} (covers : cache.Covers hasher leaves)
    (agree : ∀ index < 2 ^ cache.depth, leaves index = other index) :
    cache.Covers hasher other := by
  intro level low position bound
  rw [covers level low position bound]
  refine Merkle.subtree_congr fun index inside => agree index ?_
  rw [← inside, Nat.div_lt_iff_lt_mul (Nat.two_pow_pos _), ← pow_add,
    Nat.sub_add_cancel low] at bound
  exact bound

/-- While a leaf is being set: right up to `level`, and above it but for the ancestors of the leaf.
-/
def CoversUpTo (hasher : StateHasher D) (cache : SparseMerkleCache D) (leaves : Nat → D)
    (leaf level : Nat) : Prop :=
  ∀ other ≤ cache.depth, ∀ position < 2 ^ (cache.depth - other),
    (other ≤ level ∨ position ≠ leaf / 2 ^ other) →
    cache.nodeHash hasher other position =
      Merkle.subtree hasher.stateNodeHash leaves other position

variable {index : Nat}

omit [DecidableEq D] in
theorem parent_eq {level : Nat} :
    (if index = index - index % 2 then
        hasher.stateNodeHash (Merkle.subtree hasher.stateNodeHash leaves level index)
          (Merkle.subtree hasher.stateNodeHash leaves level (index ^^^ 1))
      else hasher.stateNodeHash (Merkle.subtree hasher.stateNodeHash leaves level (index ^^^ 1))
          (Merkle.subtree hasher.stateNodeHash leaves level index)) =
      Merkle.subtree hasher.stateNodeHash leaves (level + 1) (index / 2) := by
  rw [Merkle.subtree_succ]
  rcases Nat.even_or_odd index with even | odd
  · obtain ⟨half, rfl⟩ := even.two_dvd
    rw [if_pos (by omega), Nat.xor_one_of_even even, Nat.mul_div_cancel_left _ (by norm_num)]
  · obtain ⟨half, rfl⟩ := odd
    rw [if_neg (by omega), Nat.xor_one_of_odd ⟨half, rfl⟩, Nat.add_sub_cancel,
      show (2 * half + 1) / 2 = half by omega]

theorem xor_one_lt {bits : Nat} (pos : 0 < bits) (bound : index < 2 ^ bits) :
    index ^^^ 1 < 2 ^ bits :=
  Nat.xor_lt_two_pow bound (Nat.one_lt_two_pow pos.ne')

theorem covers_setAncestors {leaves : Nat → D} {leaf : Nat} {levels level : Nat}
    {cache : SparseMerkleCache D} (total : level + levels = cache.depth)
    (inRange : leaf < 2 ^ cache.depth)
    (partly : CoversUpTo hasher cache leaves leaf level) :
    Covers hasher (setAncestors hasher levels level cache (leaf / 2 ^ level)
      (Merkle.subtree hasher.stateNodeHash leaves level (leaf / 2 ^ level))) leaves := by
  induction levels generalizing level cache with
  | zero =>
    intro other low position bound
    rw [setAncestors] at low bound ⊢
    exact partly other low position bound (Or.inl (by omega))
  | succ levels ih =>
    have nodeBound : leaf / 2 ^ level < 2 ^ (cache.depth - level) := by
      rw [Nat.div_lt_iff_lt_mul (Nat.two_pow_pos _), ← pow_add]
      rwa [show cache.depth - level + level = cache.depth by omega]
    have sibling := partly level (by omega) _ (xor_one_lt (by omega) nodeBound) (Or.inl le_rfl)
    have half : (leaf / 2 ^ level - leaf / 2 ^ level % 2) / 2 = leaf / 2 ^ (level + 1) := by
      rw [pow_succ, ← Nat.div_div_eq_div_mul]
      generalize leaf / 2 ^ level = node
      omega
    have up : leaf / 2 ^ level / 2 = leaf / 2 ^ (level + 1) := by
      rw [pow_succ, Nat.div_div_eq_div_mul]
    rw [setAncestors, sibling, parent_eq, half, up]
    refine ih (by simp only [setNode]; omega) inRange ?_
    intro other low position bound correct
    rw [nodeHash_setNode]
    split_ifs with written
    · rw [written.1, written.2]
    · refine partly other low position bound ?_
      rcases correct with lower | outside
      · rcases lt_or_eq_of_le lower with below | rfl
        · exact Or.inl (by omega)
        · exact Or.inr fun same => written ⟨rfl, same⟩
      · exact Or.inr outside

theorem depth_setAncestors (levels level : Nat) (cache : SparseMerkleCache D) (index : Nat)
    (hash : D) : (setAncestors hasher levels level cache index hash).depth = cache.depth := by
  induction levels generalizing level cache index hash with
  | zero => rfl
  | succ levels ih =>
    rw [setAncestors, ih]
    rfl

theorem Covers.setLeaf {after : SparseMerkleCache D} (covers : cache.Covers hasher leaves)
    {leaf : D} (done : cache.setLeaf hasher index leaf = .ok after) :
    after.depth = cache.depth ∧ after.Covers hasher (Function.update leaves index leaf) := by
  simp only [SparseMerkleCache.setLeaf, bind_eq_ok, validateIndex_eq_ok, exists_const,
    pure_eq_ok] at done
  obtain ⟨⟨-, inRange⟩, rfl⟩ := done
  refine ⟨depth_setAncestors _ _ _ _ _, ?_⟩
  have written : CoversUpTo hasher (cache.setNode hasher 0 index leaf)
      (Function.update leaves index leaf) index 0 := by
    intro other low position bound correct
    rw [nodeHash_setNode]
    split_ifs with same
    · rw [same.1, same.2, Merkle.subtree_zero, Function.update_self]
    · rw [covers other low position bound]
      refine Merkle.subtree_congr fun below inside => ?_
      refine (Function.update_of_ne ?_ _ _).symm
      rintro rfl
      rcases correct with lower | outside
      · obtain rfl : other = 0 := by omega
        rw [pow_zero, Nat.div_one] at inside
        exact same ⟨rfl, inside.symm⟩
      · exact outside inside.symm
  have climbed := @covers_setAncestors _ hasher _ _ _ cache.depth 0
    (cache.setNode hasher 0 index leaf) (zero_add _) inRange written
  rw [pow_zero, Nat.div_one, Merkle.subtree_zero, Function.update_self] at climbed
  exact climbed

omit [DecidableEq D] in
theorem covers_new (built : new depth = .ok cache) :
    cache.depth = depth ∧ depth ≤ 32 ∧
      cache.Covers hasher fun _ => hasher.slotLeafHash .empty := by
  simp only [new, validateDepth, bind_eq_ok, require_eq_ok, exists_const, pure_eq_ok] at built
  obtain ⟨shallow, rfl⟩ := built
  refine ⟨rfl, shallow, fun level _ position _ => ?_⟩
  exact (Merkle.root_const _ level).symm

theorem covers_fromLeaves {writes : List (Nat × D)}
    (built : fromLeaves hasher depth writes = .ok cache) :
    cache.depth = depth ∧ depth ≤ 32 ∧
      cache.Covers hasher (overwrite (fun _ => hasher.slotLeafHash .empty) writes) := by
  rw [fromLeaves, bind_eq_ok] at built
  obtain ⟨empty, created, run⟩ := built
  obtain ⟨sameDepth, shallow, covers⟩ := covers_new created
  suffices general : ∀ (leaves : Nat → D) (before : SparseMerkleCache D), before.depth = depth →
      before.Covers hasher leaves →
      writes.foldlM (fun cache leaf => setLeaf hasher cache leaf.1 leaf.2) before = .ok cache →
      cache.depth = depth ∧ cache.Covers hasher (overwrite leaves writes) by
    obtain ⟨final, finalCovers⟩ := general _ empty sameDepth covers run
    exact ⟨final, shallow, finalCovers⟩
  clear run created covers sameDepth
  induction writes with
  | nil =>
    intro leaves before sameDepth covers run
    obtain rfl := foldlM_nil_eq_ok.mp run
    exact ⟨sameDepth, covers⟩
  | cons write writes ih =>
    intro leaves before sameDepth covers run
    obtain ⟨middle, stepped, rest⟩ := foldlM_cons_eq_ok.mp run
    obtain ⟨kept, coversMiddle⟩ := covers.setLeaf stepped
    exact ih _ middle (kept.trans sameDepth) coversMiddle rest

theorem fromLeaves_isOk {depth : Nat} (shallow : depth ≤ 32) {writes : List (Nat × D)}
    (inRange : ∀ write ∈ writes, write.1 < 2 ^ depth) :
    ∃ cache, fromLeaves hasher depth writes = .ok cache := by
  have created : new depth = .ok ({ depth, nodes := fun _ _ => none } : SparseMerkleCache D) := by
    simp [new, validateDepth, require, shallow, bind, Except.bind, pure, Except.pure]
  obtain ⟨cache, run, -⟩ := @foldlM_prefix_isOk _ _ _
    (fun cache leaf => setLeaf hasher cache leaf.1 leaf.2)
    (fun _ (cache : SparseMerkleCache D) => cache.depth = depth) writes (by
      intro done write rest split before sameDepth
      refine ⟨_, bind_eq_ok.mpr ⟨(), ?_, rfl⟩, (depth_setAncestors _ _ _ _ _).trans sameDepth⟩
      rw [validateIndex_eq_ok, sameDepth]
      exact ⟨shallow, inRange write (by simp [split])⟩)
    ({ depth, nodes := fun _ _ => none } : SparseMerkleCache D) rfl
  exact ⟨cache, bind_eq_ok.mpr ⟨_, created, run⟩⟩

end SparseMerkleCache

end Jetsam
