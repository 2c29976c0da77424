import Jetsam.Merkle.Walk
import Jetsam.Sparse.Cache

/-!
# Canonical multiproofs

A multiproof is the list of frontier digests of a touched set, in the order of the walk up the tree.
The root reconstructed from leaves and siblings is the top of any labelling that carries them.
-/

namespace Jetsam

open Control Merkle List

variable {D : Type}

structure FrontierSiblingPosition where
  level : Nat
  nodeIndex : Nat
  deriving Repr, DecidableEq

/-- Count a pair of which exactly one child is known. -/
def countVisit (_level _base : Nat) (left right : Option Unit) (count : Nat) :
    Except SparseMerkleError (Unit × Nat) :=
  .ok ((), if left.isSome ^^ right.isSome then count + 1 else count)

/-- Number of sibling hashes needed for sorted indices. -/
def expectedSiblingCount (indices : List Nat) (depth : Nat) : Except SparseMerkleError Nat := do
  let known ← validateIndices indices depth
  let (_, count) ← walkLevels countVisit depth 0 known 0
  pure count

def positionVisit (level base : Nat) (left right : Option Unit)
    (positions : List FrontierSiblingPosition) :
    Except SparseMerkleError (Unit × List FrontierSiblingPosition) :=
  match left, right with
  | some _, none => .ok ((), positions ++ [{ level, nodeIndex := base + 1 }])
  | none, some _ => .ok ((), positions ++ [{ level, nodeIndex := base }])
  | some _, some _ => .ok ((), positions)
  | none, none => .error .panicked

/-- The missing-frontier coordinates of sorted slots, level by level and from left to right. -/
def frontierSiblingPositions (indices : List Nat) (depth : Nat) :
    Except SparseMerkleError (List FrontierSiblingPosition) := do
  let known ← validateIndices indices depth
  let (_, positions) ← walkLevels positionVisit depth 0 known []
  pure positions

/-- Hash a pair, taking a missing child from the siblings at the cursor. -/
def hashVisit (hasher : StateHasher D) (siblings : List D) (_level _base : Nat)
    (left right : Option D) (cursor : Nat) : Except SparseMerkleError (D × Nat) :=
  match left, right with
  | some left, some right => .ok (hasher.stateNodeHash left right, cursor)
  | some left, none => do
    let right ← okOr siblings[cursor]? .panicked
    pure (hasher.stateNodeHash left right, cursor + 1)
  | none, some right => do
    let left ← okOr siblings[cursor]? .panicked
    pure (hasher.stateNodeHash left right, cursor + 1)
  | none, none => .error .panicked

def takeRoot {V : Type} (known : List (Nat × V)) (depth : Nat) : Except SparseMerkleError V :=
  match known with
  | (0, root) :: _ => .ok root
  | _ => .error (.invalidDepth depth)

/-- The leaves and siblings are as many as the touched indices need. -/
def requireCounts (indices : List Nat) (leaves siblings : List D) (depth : Nat) :
    Except SparseMerkleError Unit := do
  require (indices.length = leaves.length) (.leafCountMismatch indices.length leaves.length)
  let expected ← expectedSiblingCount indices depth
  require (siblings.length = expected) (.proofLengthMismatch expected siblings.length)

/-- Hash the leaves up the tree; the number is the cursor into the siblings at the end. -/
def hashUp (hasher : StateHasher D) (indices : List Nat) (leaves siblings : List D)
    (depth : Nat) : Except SparseMerkleError (List (Nat × D) × Nat) :=
  walkLevels (hashVisit hasher siblings) depth 0 (orderedMap (indices.zip leaves)) 0

/-- Root for sorted indices and leaves aligned with them. -/
def reconstructRoot (hasher : StateHasher D) (indices : List Nat) (leaves siblings : List D)
    (depth : Nat) : Except SparseMerkleError D := do
  requireCounts indices leaves siblings depth
  let (known, _) ← hashUp hasher indices leaves siblings depth
  takeRoot known depth

def buildMultiproof (hasher : StateHasher D) (cache : SparseMerkleCache D) (indices : List Nat)
    (depth : Nat) : Except SparseMerkleError (List D) := do
  require (cache.depth = depth) (.cacheDepthMismatch cache.depth depth)
  let positions ← frontierSiblingPositions indices depth
  pure (positions.map fun position => cache.nodeHash hasher position.level position.nodeIndex)

variable {label : Nat → Nat → D}

section Walks

variable {depth : Nat} {indices : List Nat}

theorem countVisit_keeps : VisitsKeep countVisit depth indices (fun _ _ => ())
    fun done count => count = (taken indices done).length := by
  rintro done level parent rest split _ rfl
  refine ⟨_, rfl, ?_⟩
  dsimp only
  rw [taken_snoc, length_append]
  rcases knownValue_cases (fun _ _ => ()) (known_of_split split).2 with
    ⟨left, right, emitted⟩ | ⟨left, right, emitted⟩ | ⟨left, right, emitted⟩
  · simp [left, right, emitted]
  · simp [left, right, emitted]
  · simp [left, right, emitted]

theorem TouchedSet.expectedSiblingCount (touched : TouchedSet depth indices) :
    Jetsam.expectedSiblingCount indices depth = .ok (frontierNodes indices depth).length := by
  obtain ⟨count, run, rfl⟩ := walkLevels_isOk touched.increasing countVisit_keeps rfl
  rw [Jetsam.expectedSiblingCount, bind_eq_ok]
  refine ⟨_, validateIndices_eq_ok.mpr ⟨touched, rfl⟩, bind_eq_ok.mpr ⟨_, run, rfl⟩⟩

def toPosition (place : Nat × Nat) : FrontierSiblingPosition :=
  { level := place.1, nodeIndex := place.2 }

theorem positionVisit_keeps : VisitsKeep positionVisit depth indices (fun _ _ => ())
    fun done positions => positions = (taken indices done).map toPosition := by
  rintro done level parent rest split _ rfl
  dsimp only
  rw [taken_snoc, map_append]
  rcases knownValue_cases (fun _ _ => ()) (known_of_split split).2 with
    ⟨left, right, emitted⟩ | ⟨left, right, emitted⟩ | ⟨left, right, emitted⟩
  · exact ⟨_, by rw [left, right]; rfl, by simp [emitted]⟩
  · exact ⟨_, by rw [left, right]; rfl, by simp [emitted, toPosition]⟩
  · exact ⟨_, by rw [left, right]; rfl, by simp [emitted, toPosition]⟩

/-- The coordinates are those of the frontier, in its order. -/
theorem TouchedSet.frontierSiblingPositions (touched : TouchedSet depth indices) :
    Jetsam.frontierSiblingPositions indices depth =
      .ok ((frontierNodes indices depth).map toPosition) := by
  obtain ⟨positions, run, rfl⟩ := walkLevels_isOk touched.increasing positionVisit_keeps rfl
  rw [Jetsam.frontierSiblingPositions, bind_eq_ok]
  refine ⟨_, validateIndices_eq_ok.mpr ⟨touched, rfl⟩, bind_eq_ok.mpr ⟨_, run, rfl⟩⟩

theorem hashVisit_keeps {hasher : StateHasher D} {leaves : Nat → D} {siblings : List D}
    (labels : Labels hasher.stateNodeHash depth indices leaves siblings label) :
    VisitsKeep (hashVisit hasher siblings) depth indices label
      fun done cursor => cursor = (taken indices done).length := by
  rintro done level parent rest split _ rfl
  obtain ⟨below, known⟩ := known_of_split split
  dsimp only
  rw [taken_snoc, length_append, labels.parent level below parent known]
  rcases knownValue_cases label known with
    ⟨left, right, emitted⟩ | ⟨left, right, emitted⟩ | ⟨left, right, emitted⟩
  · exact ⟨_, by rw [left, right]; rfl, by simp [emitted]⟩
  · have next := labels.sibling ▸ getElem_frontier split emitted fun place => label place.1 place.2
    exact ⟨_, by rw [left, right, hashVisit, next]; rfl, by simp [emitted]⟩
  · have next := labels.sibling ▸ getElem_frontier split emitted fun place => label place.1 place.2
    exact ⟨_, by rw [left, right, hashVisit, next]; rfl, by simp [emitted]⟩

end Walks

section Reconstruction

variable {depth : Nat} {indices : List Nat}

variable {V : Type}

theorem zip_map_self (indices : List Nat) (f : Nat → V) :
    indices.zip (indices.map f) = indices.map fun index => (index, f index) := by
  simpa using @zip_map' _ _ _ id f indices

theorem orderedMap_zip_map (increasing : indices.Pairwise (· < ·)) (f : Nat → V) :
    orderedMap (indices.zip (indices.map f)) = indices.map fun index => (index, f index) := by
  rw [zip_map_self]
  refine orderedMap_of_increasing ?_
  rw [KeysIncrease, map_map]
  exact (map_id indices).symm ▸ increasing

theorem takeRoot_knownValues (touched : TouchedSet depth indices) (value : Nat → Nat → V) :
    takeRoot (knownValues indices value depth) depth = .ok (value depth 0) := by
  rw [knownValues, knownAt_top touched.increasing touched.nonempty touched.inRange]
  rfl

variable {siblings : List D}

theorem requireCounts_eq_ok {leaves : List D} {done : Unit} :
    requireCounts indices leaves siblings depth = .ok done ↔
      indices.length = leaves.length ∧
        ∃ expected, expectedSiblingCount indices depth = .ok expected ∧
          siblings.length = expected := by
  simp only [requireCounts, bind_eq_ok, require_eq_ok, exists_const]

variable {hasher : StateHasher D} {leaves : Nat → D}

section

variable (touched : TouchedSet depth indices)

include touched

theorem hashUp_eq (labels : Labels hasher.stateNodeHash depth indices leaves siblings label) :
    hashUp hasher indices (indices.map leaves) siblings depth =
      .ok (knownValues indices label depth, siblings.length) := by
  obtain ⟨cursor, run, rfl⟩ := walkLevels_isOk touched.increasing (hashVisit_keeps labels) rfl
  have start : orderedMap (indices.zip (indices.map leaves)) =
      indices.map fun index => (index, label 0 index) := by
    rw [orderedMap_zip_map touched.increasing]
    exact map_congr_left fun index mem => by rw [labels.leaf index mem]
  rw [hashUp, start, labels.length_siblings]
  exact run

theorem reconstructRoot_eq
    (labels : Labels hasher.stateNodeHash depth indices leaves siblings label) :
    reconstructRoot hasher indices (indices.map leaves) siblings depth =
      .ok (label depth 0) := by
  have counts : requireCounts indices (indices.map leaves) siblings depth = .ok () :=
    requireCounts_eq_ok.mpr
      ⟨by simp, _, touched.expectedSiblingCount, labels.length_siblings⟩
  rw [reconstructRoot, bind_eq_ok]
  refine ⟨(), counts, bind_eq_ok.mpr ⟨_, hashUp_eq touched labels, ?_⟩⟩
  exact takeRoot_knownValues touched label

theorem TouchedSet.exists_leaves {leaves : List D} (aligned : indices.length = leaves.length) :
    ∃ f : Nat → D, indices.map f = leaves := by
  have distinct : indices.Nodup := touched.increasing.imp Nat.ne_of_lt
  obtain ⟨leaf, rest, rfl⟩ : ∃ leaf rest, leaves = leaf :: rest := by
    refine exists_cons_of_ne_nil fun none => touched.nonempty ?_
    rw [none] at aligned
    exact eq_nil_of_length_eq_zero aligned
  exact exists_map_eq distinct aligned.symm leaf

/-- What a reconstructed root says: it is the top of a labelling with those leaves and siblings. -/
theorem exists_labels_of_reconstructRoot {leaves : List D} {root : D}
    (done : reconstructRoot hasher indices leaves siblings depth = .ok root) :
    ∃ f label, indices.map f = leaves ∧
      Labels hasher.stateNodeHash depth indices f siblings label ∧ root = label depth 0 := by
  have counted := done
  rw [reconstructRoot, bind_eq_ok] at counted
  obtain ⟨_, counts, -⟩ := counted
  obtain ⟨aligned, expected, count, length⟩ := requireCounts_eq_ok.mp counts
  rw [touched.expectedSiblingCount] at count
  obtain ⟨f, rfl⟩ := touched.exists_leaves aligned
  obtain ⟨label, labels⟩ := @exists_labels D hasher.stateNodeHash depth indices f siblings
    touched.increasing (length.trans (Except.ok.inj count).symm)
  refine ⟨f, label, rfl, labels, ?_⟩
  rw [reconstructRoot_eq touched labels] at done
  exact (Except.ok.inj done).symm

end

/-- Writing the touched leaves changes those leaves and no others. -/
theorem overwrite_zip_map (distinct : indices.Nodup) (leaves f : Nat → D) (index : Nat) :
    overwrite leaves (indices.zip (indices.map f)) index =
      if index ∈ indices then f index else leaves index := by
  rw [zip_map_self]
  have keys : (indices.map fun index => (index, f index)).map Prod.fst = indices := by
    rw [map_map]
    exact map_id indices
  split_ifs with mem
  · exact overwrite_of_mem (keys.symm ▸ distinct) (mem_map.mpr ⟨index, mem, rfl⟩)
  · exact overwrite_of_notMem (keys.symm ▸ mem)

theorem frontier_replace (node : D → D → D) {leaves other : Nat → D}
    (outside : ∀ index ∉ indices, leaves index = other index) :
    ((frontierNodes indices depth).map fun place => subtree node leaves place.1 place.2) =
      (frontierNodes indices depth).map fun place => subtree node other place.1 place.2 := by
  refine map_congr_left fun place member => ?_
  refine subtree_congr fun index inside => outside index fun touched => ?_
  exact frontier_not_known member (mem_knownAt.mpr ⟨index, touched, inside⟩)

theorem SparseMerkleCache.Covers.buildMultiproof {cache : SparseMerkleCache D}
    (covers : cache.Covers hasher leaves) (sameDepth : cache.depth = depth)
    (touched : TouchedSet depth indices) :
    Jetsam.buildMultiproof hasher cache indices depth =
      .ok ((frontierNodes indices depth).map fun place =>
        subtree hasher.stateNodeHash leaves place.1 place.2) := by
  subst sameDepth
  rw [Jetsam.buildMultiproof, require_bind_eq_ok]
  refine ⟨rfl, bind_eq_ok.mpr ⟨_, touched.frontierSiblingPositions, ?_⟩⟩
  rw [pure_eq_ok, map_map]
  refine map_congr_left fun place mem => ?_
  exact covers place.1 (mem_frontier.mp mem).1.le place.2 (frontier_lt touched.inRange mem)

end Reconstruction

section Correctness

variable [DecidableEq D] {hasher : StateHasher D} {depth : Nat} {writes : List (Nat × D)}
  {cache : SparseMerkleCache D} {indices : List Nat}

/-- The multiproof of a built cache proves the current leaves, proves any replacement of them, and
with an injective node hash proves nothing else. -/
theorem multiproof_correct (built : SparseMerkleCache.fromLeaves hasher depth writes = .ok cache)
    {leaves : Nat → D}
    (held : ∀ index < 2 ^ depth,
      overwrite (fun _ => hasher.slotLeafHash .empty) writes index = leaves index)
    (nonempty : indices ≠ []) (sorted : indices.Pairwise (· < ·))
    (inRange : ∀ index ∈ indices, index < 2 ^ depth) :
    ∃ siblings, buildMultiproof hasher cache indices depth = .ok siblings ∧
      reconstructRoot hasher indices (indices.map leaves) siblings depth =
        .ok (Merkle.root hasher.stateNodeHash depth leaves) ∧
      (∀ replacement : List D, replacement.length = indices.length →
        reconstructRoot hasher indices replacement siblings depth =
          .ok (Merkle.root hasher.stateNodeHash depth
            (overwrite leaves (indices.zip replacement)))) ∧
      (Function.Injective2 hasher.stateNodeHash → ∀ claimed others : List D,
        reconstructRoot hasher indices claimed others depth =
          .ok (Merkle.root hasher.stateNodeHash depth leaves) →
        claimed = indices.map leaves) := by
  obtain ⟨rfl, shallow, written⟩ := SparseMerkleCache.covers_fromLeaves built
  have covers := written.congr held
  have touched : TouchedSet cache.depth indices := ⟨shallow, nonempty, sorted, inRange⟩
  refine ⟨_, covers.buildMultiproof rfl touched, ?_, ?_, ?_⟩
  · rw [reconstructRoot_eq touched (labels_subtree hasher.stateNodeHash leaves), subtree_top]
  · intro replacement length
    obtain ⟨f, rfl⟩ := touched.exists_leaves length.symm
    have replaced := overwrite_zip_map (sorted.imp Nat.ne_of_lt) leaves f
    have sameFrontier := @frontier_replace D cache.depth indices hasher.stateNodeHash leaves _
      fun index untouched => ((replaced index).trans (if_neg untouched)).symm
    have sameLeaves : indices.map f =
        indices.map (overwrite leaves (indices.zip (indices.map f))) :=
      List.map_congr_left fun index member => ((replaced index).trans (if_pos member)).symm
    rw [sameFrontier, ← subtree_top, ← reconstructRoot_eq touched (labels_subtree _ _),
      ← sameLeaves]
  · intro injective claimed others done
    obtain ⟨f, label, rfl, labels, top⟩ := exists_labels_of_reconstructRoot touched done
    refine List.map_congr_left fun index member => ?_
    rw [← labels.leaf index member, ← @subtree_zero D hasher.stateNodeHash leaves index]
    refine labels.leaf_eq_of_same_root injective inRange ?_ ?_ index member
    · exact fun level _ position _ => subtree_succ level position
    · rw [← top, subtree_top]

theorem multiproof_correct_pair :
    ∃ cache siblings, SparseMerkleCache.fromLeaves symbolicHasher 2 [(1, .blank)] = .ok cache ∧
      buildMultiproof symbolicHasher cache [1, 2] 2 = .ok siblings ∧
      reconstructRoot symbolicHasher [1, 2] [.blank, .leaf .empty] siblings 2 =
        .ok (Merkle.root symbolicHasher.stateNodeHash 2
          (Function.update (fun _ => .leaf .empty) 1 .blank)) := by
  obtain ⟨cache, built⟩ := @SparseMerkleCache.fromLeaves_isOk _ symbolicHasher _ 2 (by norm_num)
    [(1, .blank)] (by simp)
  obtain ⟨siblings, made, current, -⟩ := @multiproof_correct _ _ _ _ _ _ [1, 2] built _
    (fun _ _ => rfl) (by simp) (by simp) (by simp)
  exact ⟨cache, siblings, built, made, current⟩

end Correctness

end Jetsam
