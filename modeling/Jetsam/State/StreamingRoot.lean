import Jetsam.Merkle.StreamRuns
import Jetsam.State.Chain

/-!
# The streaming root builder

The builder that storage and snapshots feed with the occupied slots. It refuses depths whose slot
count leaves 64 bits, positions that do not increase, and positions outside the tree.
-/

namespace Jetsam

open Control

variable {D : Type}

/-- The pending subtrees of a sparse tree of a given depth. -/
structure StreamingSparseRoot (D : Type) extends Merkle.Stream D where
  depth : Nat

/-- A shifted 64-bit one; nothing when the bit leaves the word. -/
def checkedShlOne (depth : Nat) : Option Nat := if depth < 64 then some (2 ^ depth) else none

namespace StreamingSparseRoot

def new (depth : Nat) : Except ApplyExactTransitionError (StreamingSparseRoot D) := do
  let _ ← okOr (checkedShlOne depth) .headerLogSlotsMismatch
  return { toStream := Merkle.Stream.empty, depth }

def appendBlock (hasher : StateHasher D) (builder : StreamingSparseRoot D) (level : Nat)
    (hash : D) : StreamingSparseRoot D :=
  { builder with stack := Merkle.Stream.mergeTop hasher.stateNodeHash level hash builder.stack }

/-- Cover the positions up to `stop` by empty subtrees. -/
def fillZeroGap (hasher : StateHasher D) (builder : StreamingSparseRoot D) (stop : Nat) :
    Except ApplyExactTransitionError (StreamingSparseRoot D) := do
  let limit ← okOr (checkedShlOne builder.depth) .headerLogSlotsMismatch
  require (¬(stop < builder.position ∨ limit < stop)) .slotOutOfRange
  return { builder with
    toStream := Merkle.Stream.fillGap hasher.stateNodeHash hasher.zeroSlotRoot builder.depth stop
      builder.toStream }

def pushLeaf (hasher : StateHasher D) (builder : StreamingSparseRoot D) (index : Nat) (hash : D) :
    Except ApplyExactTransitionError (StreamingSparseRoot D) := do
  let filled ← builder.fillZeroGap hasher index
  return { filled.appendBlock hasher 0 hash with position := index + 1 }

def finish (hasher : StateHasher D) (builder : StreamingSparseRoot D) :
    Except ApplyExactTransitionError D := do
  let limit ← okOr (checkedShlOne builder.depth) .headerLogSlotsMismatch
  let filled ← builder.fillZeroGap hasher limit
  match filled.stack with
  | [(level, root)] => if level = filled.depth then .ok root else .error .headerLogSlotsMismatch
  | _ => .error .headerLogSlotsMismatch

def pushLeaves (hasher : StateHasher D) (builder : StreamingSparseRoot D) (fed : List (Nat × D)) :
    Except ApplyExactTransitionError (StreamingSparseRoot D) :=
  fed.foldlM (fun builder leaf => builder.pushLeaf hasher leaf.1 leaf.2) builder

def rootOf (hasher : StateHasher D) (depth : Nat) (fed : List (Nat × D)) :
    Except ApplyExactTransitionError D := do
  let builder ← new depth
  let builder ← builder.pushLeaves hasher fed
  builder.finish hasher

variable {hasher : StateHasher D}

variable {depth : Nat}

theorem checkedShlOne_eq_some {limit : Nat} (small : depth < 64) :
    checkedShlOne depth = some limit ↔ 2 ^ depth = limit := by
  rw [checkedShlOne, if_pos small, Option.some.injEq]

variable {builder : StreamingSparseRoot D}

theorem pushLeaf_eq_ok {pushed : StreamingSparseRoot D} (small : builder.depth < 64) {index : Nat}
    {hash : D} :
    builder.pushLeaf hasher index hash = .ok pushed ↔
      Merkle.Stream.pushLeaf hasher.stateNodeHash hasher.zeroSlotRoot builder.depth
          builder.toStream index hash = some pushed.toStream ∧ pushed.depth = builder.depth := by
  simp only [pushLeaf, fillZeroGap, appendBlock, bind_eq_ok, okOr_eq_ok, require_eq_ok, pure_eq_ok,
    checkedShlOne_eq_some small, exists_const, exists_eq_left', Merkle.Stream.pushLeaf_eq_some]
  obtain ⟨pushedStream, pushedDepth⟩ := pushed
  simp only [mk.injEq, not_or, Nat.not_lt]
  constructor
  · rintro ⟨filled, ⟨⟨behind, inside⟩, rfl⟩, same, sameDepth⟩
    exact ⟨⟨behind, inside, same.symm⟩, sameDepth.symm⟩
  · rintro ⟨⟨behind, inside, same⟩, sameDepth⟩
    exact ⟨_, ⟨⟨behind, inside⟩, rfl⟩, same.symm, sameDepth.symm⟩

variable {fed : List (Nat × D)}

theorem pushLeaves_eq_ok {final : StreamingSparseRoot D} (small : builder.depth < 64) :
    builder.pushLeaves hasher fed = .ok final ↔
      Merkle.Stream.feed hasher.stateNodeHash hasher.zeroSlotRoot builder.depth fed
          builder.toStream = some final.toStream ∧ final.depth = builder.depth := by
  induction fed generalizing builder with
  | nil =>
    obtain ⟨stream, depth⟩ := builder
    rw [pushLeaves, foldlM_nil_eq_ok, Merkle.Stream.feed, List.foldlM_nil, Option.pure_def,
      Option.some.injEq, mk.injEq, eq_comm (a := depth)]
  | cons leaf fed ih =>
    rw [pushLeaves, foldlM_cons_eq_ok, Merkle.Stream.feed_cons_eq_some]
    constructor
    · rintro ⟨pushed, first, rest⟩
      obtain ⟨onStream, sameDepth⟩ := (pushLeaf_eq_ok small).mp first
      obtain ⟨fedRest, finalDepth⟩ := (ih (sameDepth ▸ small)).mp rest
      rw [sameDepth] at fedRest finalDepth
      exact ⟨⟨pushed.toStream, onStream, fedRest⟩, finalDepth⟩
    · rintro ⟨⟨stream, onStream, fedRest⟩, finalDepth⟩
      let pushed : StreamingSparseRoot D := ⟨stream, builder.depth⟩
      have first : builder.pushLeaf hasher leaf.1 leaf.2 = .ok pushed :=
        (pushLeaf_eq_ok small).mpr ⟨onStream, rfl⟩
      have shallow : pushed.depth < 64 := small
      exact ⟨pushed, first, (ih shallow).mpr ⟨fedRest, finalDepth⟩⟩

theorem finish_eq_ok (small : builder.depth < 64) {root : D} :
    builder.finish hasher = .ok root ↔
      Merkle.Stream.finish hasher.stateNodeHash hasher.zeroSlotRoot builder.depth
        builder.toStream = some root := by
  simp only [finish, fillZeroGap, bind_eq_ok, okOr_eq_ok, require_eq_ok, pure_eq_ok,
    checkedShlOne_eq_some small, exists_const, exists_eq_left', Merkle.Stream.finish]
  by_cases late : 2 ^ builder.depth < builder.position
  · simp [late]
  · simp only [late, lt_irrefl, or_self, not_false_eq_true, true_and, exists_eq_left', if_false]
    generalize (Merkle.Stream.fillGap hasher.stateNodeHash hasher.zeroSlotRoot builder.depth
      (2 ^ builder.depth) builder.toStream).stack = stack
    rcases stack with _ | ⟨⟨level, hash⟩, _ | ⟨second, rest⟩⟩
    · simp
    · by_cases full : level = builder.depth
      · simp [full]
      · simp [full]
    · simp

/-- The leaves come at increasing positions inside the tree. -/
def InOrder (depth : Nat) (fed : List (Nat × D)) : Prop :=
  fed.Pairwise (fun left right => left.1 < right.1) ∧ ∀ leaf ∈ fed, leaf.1 < 2 ^ depth

instance (depth : Nat) (fed : List (Nat × D)) : Decidable (InOrder depth fed) :=
  inferInstanceAs (Decidable (_ ∧ _))

/-- The root of the full tree in which all leaves but the given ones are empty. -/
def sparseRootOf (hasher : StateHasher D) (depth : Nat) (fed : List (Nat × D)) : D :=
  Merkle.root hasher.stateNodeHash depth
    (Merkle.Stream.given (hasher.slotLeafHash .empty) fed)

theorem new_eq_ok (small : depth < 64) :
    (new depth : Except ApplyExactTransitionError (StreamingSparseRoot D)) =
      .ok { toStream := Merkle.Stream.empty, depth } := by
  rw [new, checkedShlOne, if_pos small]
  rfl

theorem rootOf_eq_ok (small : depth < 64) {root : D} :
    rootOf hasher depth fed = .ok root ↔
      InOrder depth fed ∧ sparseRootOf hasher depth fed = root := by
  let start : StreamingSparseRoot D := { toStream := Merkle.Stream.empty, depth }
  have onStream := @Merkle.Stream.feed_finish_eq_some D hasher.stateNodeHash depth
    (hasher.slotLeafHash .empty) fed root
  rw [rootOf, bind_of_ok (new_eq_ok small), bind_eq_ok, InOrder, sparseRootOf, and_assoc,
    ← onStream, Option.bind_eq_some_iff]
  have shallow : start.depth < 64 := small
  constructor
  · rintro ⟨final, pushed, closed⟩
    obtain ⟨fedAll, sameDepth⟩ := (pushLeaves_eq_ok shallow).mp pushed
    have finished := (finish_eq_ok (sameDepth ▸ shallow)).mp closed
    rw [sameDepth] at finished
    exact ⟨final.toStream, fedAll, finished⟩
  · rintro ⟨stream, fedAll, finished⟩
    let final : StreamingSparseRoot D := ⟨stream, depth⟩
    have finalShallow : final.depth < 64 := small
    exact ⟨final, (pushLeaves_eq_ok shallow).mpr ⟨fedAll, rfl⟩,
      (finish_eq_ok finalShallow).mpr finished⟩

/-- A builder at any moment of a run holds a state the stream visits. -/
theorem visited_of_pushLeaves {built : StreamingSparseRoot D}
    (run : (new depth >>= fun builder => builder.pushLeaves hasher fed) = .ok built) :
    Merkle.Stream.Visited hasher.stateNodeHash hasher.zeroSlotRoot depth built.toStream := by
  obtain ⟨start, created, pushed⟩ := bind_eq_ok.mp run
  by_cases small : depth < 64
  · obtain rfl := Except.ok.inj ((new_eq_ok small).symm.trans created)
    obtain ⟨fedAll, -⟩ := (pushLeaves_eq_ok small).mp pushed
    exact Merkle.Stream.Visited.empty.feed fedAll
  · simp [new, checkedShlOne, small, okOr, bind, Except.bind] at created

/-- The builder returns the root of the full tree when the positions increase strictly inside the
tree, and an error otherwise. Its stack holds at most one subtree more than the tree has levels. -/
theorem rootOf_correct (hasher : StateHasher D) (depth : Nat) (fed : List (Nat × D)) :
    (depth < 64 → InOrder depth fed →
      rootOf hasher depth fed = .ok (sparseRootOf hasher depth fed)) ∧
    (¬InOrder depth fed → ∃ error, rootOf hasher depth fed = .error error) ∧
    (64 ≤ depth → rootOf hasher depth fed = .error .headerLogSlotsMismatch) ∧
    (∀ built, (new depth >>= fun builder => builder.pushLeaves hasher fed) = .ok built →
      Merkle.Stream.Visited hasher.stateNodeHash hasher.zeroSlotRoot depth built.toStream) ∧
    ∀ stream, Merkle.Stream.Visited hasher.stateNodeHash hasher.zeroSlotRoot depth stream →
      stream.stack.length ≤ depth + 1 ∧
        Merkle.Stream.Visited hasher.stateNodeHash hasher.zeroSlotRoot depth
          (Merkle.Stream.fillGap hasher.stateNodeHash hasher.zeroSlotRoot depth (2 ^ depth)
            stream) := by
  have deep : 64 ≤ depth → rootOf hasher depth fed = .error .headerLogSlotsMismatch := by
    intro large
    rw [rootOf, new, checkedShlOne, if_neg (by omega)]
    rfl
  refine ⟨?_, ?_, deep, ?_, ?_⟩
  · intro small ordered
    exact (rootOf_eq_ok small).mpr ⟨ordered, rfl⟩
  · intro disordered
    rcases Nat.lt_or_ge depth 64 with small | large
    · cases outcome : rootOf hasher depth fed with
      | error error => exact ⟨error, rfl⟩
      | ok root => exact absurd ((rootOf_eq_ok small).mp outcome).1 disordered
    · exact ⟨_, deep large⟩
  · intro built run
    exact visited_of_pushLeaves run
  · intro stream visited
    exact ⟨visited.length_le, visited.fillGap (le_refl _)⟩

/-- Hashes that write the tree down. -/
def listingHasher : StateHasher (List Nat) where
  slotLeafHash slot := if slot = .empty then [0] else [1]
  stateNodeHash left right := left ++ right
  blank := []

theorem rootOf_two_leaves :
    rootOf listingHasher 2 [(0, [5]), (3, [7])] = .ok [5, 0, 0, 7] ∧
      ∃ error, rootOf listingHasher 2 [(3, [7]), (0, [5])] = .error error := by
  have ordered := (rootOf_correct listingHasher 2 [(0, [5]), (3, [7])]).1 (by decide) (by decide)
  refine ⟨ordered.trans (by decide), ?_⟩
  exact (rootOf_correct listingHasher 2 [(3, [7]), (0, [5])]).2.1 (by decide)

theorem rootOf_depth_64 :
    InOrder 64 ([] : List (Nat × List Nat)) ∧
      rootOf listingHasher 64 [] ≠ .ok (sparseRootOf listingHasher 64 []) := by
  constructor
  · exact ⟨List.Pairwise.nil, by simp⟩
  · rw [rootOf, new, checkedShlOne, if_neg (by decide)]
    exact nofun

end StreamingSparseRoot

end Jetsam
