import Jetsam.State.Supply

/-!
# Lifetime of a chain state

Slot updates, expansions, rollbacks, durable commits, evictions and root-checked restores in any
order. The columns of an evicted segment are remembered on a shelf, so that the whole slot map of a
state is known.
-/

namespace Jetsam

open Control SegmentedFriState List Function

variable {D : Type}

/-- What may be done to a chain state between two reads of its root. -/
inductive StateOperation where
  /-- Apply slot updates, as every transition does after accounting for the supply. -/
  | applyDelta (updates : List (BitVec 32 × SlotValue))
  | expandOne
  | shrinkTo (logSlots : Nat)
  /-- Forget the durable dirt once a rooted state has been committed. -/
  | commit
  /-- Evict a segment outside the durable dirty set. -/
  | evict (segId : Nat)
  | restore (segId : Nat) (columns : SegmentColumns)
  | readRoot

/-- A chain state with the columns its evicted segments had when they were evicted. -/
structure ShelvedState (D : Type) where
  chain : ChainState D
  shelf : Nat → SegmentColumns

namespace ShelvedState

variable (hasher : StateHasher D)

def fresh (logSlots : Nat) : ShelvedState D := ⟨.withLogSlots hasher logSlots, fun _ => []⟩

/-- The value of a slot, read from the shelf where its segment is evicted. -/
def contents (shelved : ShelvedState D) (index : Nat) : SlotValue :=
  let state := shelved.chain.state
  if state.segIdOf index ∈ state.evicted then
    (shelved.shelf (state.segIdOf index)).getD (state.localIdxOf index) .empty
  else
    state.slot index

def indexed (updates : List (BitVec 32 × SlotValue)) : List (Nat × SlotValue) :=
  updates.map fun update => (update.1.toNat, update.2)

def step [DecidableEq D] (shelved : ShelvedState D) :
    StateOperation → Option (ShelvedState D)
  | .applyDelta updates => do
    let supply ← shelved.chain.supplyAfterSlotUpdates (indexed updates)
    match shelved.chain.state.applyDeltaUnrooted (indexed updates) with
    | .ok state => some { shelved with
        chain := { shelved.chain with state := state, circulatingSupply := supply } }
    | .error _ => none
  | .expandOne =>
    match shelved.chain.expandOne hasher with
    | .ok chain => some { shelved with chain }
    | .error _ => none
  | .shrinkTo logSlots =>
    match shelved.chain.state.shrinkToLogSlots logSlots with
    | .ok state => some { shelved with chain := { shelved.chain with state := state } }
    | .error _ => none
  | .commit =>
    if shelved.chain.state.exactDirty = [] then
      some { shelved with
        chain := { shelved.chain with state := shelved.chain.state.clearDirty } }
    else none
  | .evict segId =>
    match shelved.chain.state.segments segId with
    | some columns =>
      if segId ∉ shelved.chain.state.mdbxDirty then
        some {
          chain := { shelved.chain with state := shelved.chain.state.evictSegment segId }
          shelf := Function.update shelved.shelf segId columns }
      else none
    | none => none
  | .restore segId columns =>
    if segId ∈ shelved.chain.state.evicted then
      match shelved.chain.restoreEvictedSegment hasher segId columns with
      | .ok chain => some { shelved with chain }
      | .error _ => none
    else none
  | .readRoot =>
    match shelved.chain.tryStateRoot hasher with
    | .ok (chain, _) => some { shelved with chain }
    | .error _ => none

/-- A run of accepted operations on a fresh state, each made in a state that meets a condition. -/
inductive Run [DecidableEq D] (meets : ShelvedState D → StateOperation → Prop) (logSlots : Nat) :
    List StateOperation → ShelvedState D → Prop
  | start : Run meets logSlots [] (fresh hasher logSlots)
  | more {operations : List StateOperation} {operation : StateOperation}
      {current next : ShelvedState D} (run : Run meets logSlots operations current)
      (allowed : meets current operation)
      (accepted : current.step hasher operation = some next) :
      Run meets logSlots (operations ++ [operation]) next

/-- The state agrees with a slot map, and the shelf holds its evicted segments. -/
structure Consistent (shelved : ShelvedState D) (slots : Nat → SlotValue) : Prop where
  coherent : shelved.chain.Coherent hasher slots
  tracked : shelved.chain.state.DirtTracked
  rooted : shelved.chain.Synced → shelved.chain.state.exactDirty = [] →
    shelved.chain.Rooted hasher slots
  shelf : ∀ segId ∈ shelved.chain.state.evicted,
    shelved.shelf segId = segmentOf shelved.chain.state.segmentSlotCount slots segId

variable {hasher} {shelved next : ShelvedState D} {slots : Nat → SlotValue}

theorem Consistent.contents_eq (consistent : shelved.Consistent hasher slots) :
    shelved.contents = slots := by
  funext index
  unfold contents
  simp only
  split_ifs with evicted
  · rw [consistent.shelf _ evicted, getD_segmentOf _ _ (localIdxOf_lt _ index), segIdOf_mul_add]
  · exact consistent.coherent.holds.slot_eq evicted

theorem consistent_fresh (hasher : StateHasher D) (logSlots : Nat) :
    (fresh hasher logSlots).Consistent hasher (fun _ => .empty) where
  coherent := ChainState.coherent_withLogSlots hasher logSlots
  tracked := fun segId marked => by cases marked
  rooted := fun _ _ => (StateHasher.slotRoot_empty logSlots).symm
  shelf := fun segId evicted => by cases evicted

variable {segId : Nat}

/-- The columns of an evicted segment keep their size when the domain is resized. -/
theorem size_of_resize {before after : SegmentedFriState}
    (large : before.evicted ≠ [] → logSegmentSize ≤ before.logSlots ∧
      logSegmentSize ≤ after.logSlots) (evicted : segId ∈ before.evicted) :
    after.segmentSlotCount = before.segmentSlotCount := by
  obtain ⟨beforeLarge, afterLarge⟩ := large (ne_nil_of_mem evicted)
  rw [full_size beforeLarge, full_size afterLarge]

variable {state : SegmentedFriState}

theorem Consistent.applyDelta (consistent : shelved.Consistent hasher slots)
    {updates : List (Nat × SlotValue)} {supply accounted : Nat}
    (supplied : shelved.chain.supplyAfterSlotUpdates updates = some accounted)
    (applied : shelved.chain.state.applyDeltaUnrooted updates = .ok state) :
    ({ shelved with
      chain := { shelved.chain with state := state, circulatingSupply := supply } } :
        ShelvedState D).Consistent hasher (overwrite slots updates) := by
  obtain ⟨inRange, -⟩ := applyDeltaUnrooted_eq_ok.mp applied
  obtain ⟨holds, rewritten⟩ := consistent.coherent.holds.applyDeltaUnrooted
    (fun update mem => ChainState.notEvicted_of_supplyAfterSlotUpdates supplied update mem
      (inRange update mem)) applied
  have coherent := consistent.coherent.rewritten holds rewritten
  refine ⟨⟨coherent.holds, coherent.cache, coherent.ahead, coherent.shallow, coherent.roots,
    coherent.clean⟩, rewritten.durable consistent.tracked, fun synced fresh => ?_,
    fun segId evicted => ?_⟩
  · -- Nothing is stale after the updates, so they changed nothing.
    have kept := rewritten.kept
    have fresh : state.exactDirty = [] := fresh
    have syncedBefore : shelved.chain.Synced := synced.trans rewritten.logSlots
    have freshBefore : shelved.chain.state.exactDirty = [] :=
      eq_nil_iff_forall_not_mem.mpr fun segId => (kept segId (by simp [fresh])).1
    have same : hasher.slotRoot shelved.chain.state.logSlots (overwrite slots updates) =
        hasher.slotRoot shelved.chain.state.logSlots slots := by
      refine StateHasher.slotRoot_congr fun index _ => ?_
      have := segmentOf_inj (kept (shelved.chain.state.segIdOf index) (by simp [fresh])).2
        (localIdxOf_lt _ index)
      rwa [segIdOf_mul_add] at this
    change shelved.chain.utxoRoot = hasher.slotRoot state.logSlots (overwrite slots updates)
    rw [rewritten.logSlots, same]
    exact consistent.rooted syncedBefore freshBefore
  · have evictedBefore : segId ∈ shelved.chain.state.evicted := rewritten.evicted ▸ evicted
    rw [rewritten.segmentSlotCount, consistent.shelf segId evictedBefore]
    refine ((rewritten.kept segId fun marked => ?_).2).symm
    exact coherent.clean segId evicted marked

variable {chain : ChainState D}

variable {columns : SegmentColumns}

section

variable (consistent : shelved.Consistent hasher slots)

include consistent

theorem Consistent.expandOne [DecidableEq D] (synced : shelved.chain.Synced)
    (expanded : shelved.chain.expandOne hasher = .ok chain) :
    ({ shelved with chain } : ShelvedState D).Consistent hasher slots := by
  obtain ⟨coherent, -, logSlots, evicted, -, rooted, -⟩ :=
    consistent.coherent.expandOne synced expanded
  simp only [ChainState.expandOne, bind_eq_ok, pure_eq_ok] at expanded
  obtain ⟨storage, grown, rfl⟩ := expanded
  obtain ⟨-, -, -, mdbx, notEvicted, -, exact⟩ := expand_eq_ok consistent.coherent.holds grown
  -- With nothing stale the cache is current, so the markers of the expansion are cleared.
  have current : shelved.chain.state.exactDirty = [] →
      shelved.chain.exactRoots.root = shelved.chain.utxoRoot := fun fresh =>
    (consistent.coherent.cachedRoot_eq synced fresh).trans (consistent.rooted synced fresh).symm
  refine ⟨coherent, fun segId marked => ?_, fun _ fresh => rooted (consistent.rooted synced ?_),
    fun segId mem => ?_⟩
  · simp only at marked ⊢
    split_ifs at marked ⊢ with isCurrent
    · cases marked
    · rw [mdbx]
      rcases (exact segId).mp marked with stale | ⟨small, rfl⟩
      · exact consistent.tracked segId stale
      · obtain ⟨other, stale⟩ : ∃ other, other ∈ shelved.chain.state.exactDirty := by
          by_contra none
          have fresh := eq_nil_iff_forall_not_mem.mpr (not_exists.mp none)
          exact isCurrent ⟨fresh, synced, current fresh⟩
        have single := consistent.coherent.holds.stale other stale
        rw [single_segment (by omega)] at single
        obtain rfl : other = 0 := by omega
        exact consistent.tracked 0 stale
  · simp only at fresh
    split_ifs at fresh with isCurrent
    · exact isCurrent.1
    · refine eq_nil_iff_forall_not_mem.mpr fun segId stale => ?_
      have := (exact segId).mpr (Or.inl stale)
      rw [fresh] at this
      cases this
  · have before : segId ∈ shelved.chain.state.evicted := evicted ▸ mem
    have large : logSegmentSize ≤ shelved.chain.state.logSlots := by
      by_contra small
      have inRange := consistent.coherent.holds.evicted_lt before
      rw [single_segment (by omega)] at inRange
      obtain rfl : segId = 0 := by omega
      exact notEvicted (by omega) before
    rw [size_of_resize (fun _ => ⟨large, logSlots ▸ large.trans (Nat.le_succ _)⟩) before]
    exact consistent.shelf segId before

theorem Consistent.shrinkTo {target : Nat}
    (shrunk : shelved.chain.state.shrinkToLogSlots target = .ok state) :
    ({ shelved with chain := { shelved.chain with state := state } } :
      ShelvedState D).Consistent hasher slots := by
  obtain ⟨holds, logSlots, evicted, -, same, -, zero, -⟩ :=
    consistent.coherent.holds.shrinkToLogSlots shrunk
  have coherent := consistent.coherent.shrinkToLogSlots shrunk
  have below : target ≤ shelved.chain.state.logSlots := by
    simp only [SegmentedFriState.shrinkToLogSlots, bind_eq_ok, require_eq_ok, exists_const]
      at shrunk
    exact shrunk.1.2
  rcases Nat.eq_or_lt_of_le below with equal | lower
  · rw [same equal]
    exact consistent
  refine ⟨coherent, consistent.tracked.shrinkToLogSlots shrunk, fun synced => ?_,
    fun segId mem => ?_⟩
  · -- The cache is still as deep as before the rollback.
    have ahead := consistent.coherent.ahead
    have : shelved.chain.exactRoots.logSlots = state.logSlots := synced
    omega
  · have before : segId ∈ shelved.chain.state.evicted := evicted ▸ mem
    have large : logSegmentSize ≤ target := by
      by_contra small
      obtain ⟨marked, notEvicted⟩ := zero (by omega) lower
      have inRange := holds.evicted_lt mem
      rw [single_segment (by omega)] at inRange
      obtain rfl : segId = 0 := by omega
      exact notEvicted before
    rw [size_of_resize (fun _ => ⟨large.trans below, logSlots ▸ large⟩) before]
    exact consistent.shelf segId before

theorem Consistent.evict (loaded : shelved.chain.state.segments segId = some columns)
    (durable : segId ∉ shelved.chain.state.mdbxDirty) :
    ({ chain := { shelved.chain with state := shelved.chain.state.evictSegment segId }
       shelf := update shelved.shelf segId columns } :
      ShelvedState D).Consistent hasher slots := by
  have current : segId ∉ shelved.chain.state.exactDirty := fun stale =>
    durable (consistent.tracked segId stale)
  have coherent := consistent.coherent.evictSegment current
  have evictedEq : shelved.chain.state.evictSegment segId =
      { shelved.chain.state with
        segments := update shelved.chain.state.segments segId none
        evicted := shelved.chain.state.evicted.insert segId } := by
    simp [evictSegment, loaded]
  refine ⟨coherent, ?_, ?_, fun other mem => ?_⟩
  · rw [evictedEq]
    exact consistent.tracked
  · rw [evictedEq]
    exact consistent.rooted
  · rw [evictedEq] at mem ⊢
    change update shelved.shelf segId columns other =
      segmentOf shelved.chain.state.segmentSlotCount slots other
    rcases eq_or_ne other segId with rfl | different
    · rw [update_self]
      exact consistent.coherent.holds.resident other columns loaded
    · rw [update_of_ne different]
      exact consistent.shelf other ((mem_insert_iff.mp mem).resolve_left different)

end

theorem Consistent.restore [DecidableEq D] (free : hasher.CollisionFree)
    (consistent : shelved.Consistent hasher slots) (evicted : segId ∈ shelved.chain.state.evicted)
    (restored : shelved.chain.restoreEvictedSegment hasher segId columns = .ok chain) :
    columns = shelved.shelf segId ∧
      ({ shelved with chain } : ShelvedState D).Consistent hasher slots := by
  have columnsEq := consistent.coherent.restored_columns free evicted restored
  have coherent := consistent.coherent.restoreEvictedSegment free evicted restored
  refine ⟨columnsEq.trans (consistent.shelf segId evicted).symm, ?_⟩
  obtain ⟨-, -, -, rfl⟩ := ChainState.restoreEvictedSegment_eq_ok.mp restored
  exact ⟨coherent, consistent.tracked, consistent.rooted,
    fun other mem => consistent.shelf other (mem_of_mem_filter mem)⟩

theorem Consistent.readRoot (consistent : shelved.Consistent hasher slots) {root : D}
    (read : shelved.chain.tryStateRoot hasher = .ok (chain, root)) :
    root = hasher.slotRoot shelved.chain.state.logSlots slots ∧
      ({ shelved with chain } : ShelvedState D).Consistent hasher slots := by
  obtain ⟨rootEq, coherent, -, rooted, -, state, -⟩ := consistent.coherent.tryStateRoot read
  refine ⟨rootEq, coherent, ?_, fun _ _ => rooted, ?_⟩
  · rw [state]
    intro segId marked
    cases marked
  · rw [state]
    exact consistent.shelf

/-- The condition under which an expansion is safe: no rollback since the last root. -/
def CacheFollows (shelved : ShelvedState D) : StateOperation → Prop
  | .expandOne => shelved.chain.exactRoots.logSlots ≤ shelved.chain.state.logSlots
  | _ => True

/-- Every accepted operation keeps the state consistent with some slot map. -/
theorem Consistent.step [DecidableEq D] (free : hasher.CollisionFree)
    (consistent : shelved.Consistent hasher slots) {operation : StateOperation}
    (follows : shelved.CacheFollows operation)
    (accepted : shelved.step hasher operation = some next) :
    ∃ slots', next.Consistent hasher slots' := by
  cases operation with
  | applyDelta updates =>
    simp only [ShelvedState.step, Option.bind_eq_bind, Option.bind_eq_some_iff] at accepted
    obtain ⟨supply, supplied, accepted⟩ := accepted
    split at accepted
    next state applied =>
      obtain rfl := Option.some.inj accepted
      exact ⟨_, consistent.applyDelta supplied applied⟩
    next => cases accepted
  | expandOne =>
    simp only [ShelvedState.step] at accepted
    split at accepted
    next chain expanded =>
      obtain rfl := Option.some.inj accepted
      exact ⟨_, consistent.expandOne (le_antisymm follows consistent.coherent.ahead) expanded⟩
    next => cases accepted
  | shrinkTo target =>
    simp only [ShelvedState.step] at accepted
    split at accepted
    next state shrunk =>
      obtain rfl := Option.some.inj accepted
      exact ⟨_, consistent.shrinkTo shrunk⟩
    next => cases accepted
  | commit =>
    simp only [ShelvedState.step] at accepted
    split_ifs at accepted with fresh
    obtain rfl := Option.some.inj accepted
    refine ⟨slots, consistent.coherent.clearDirty, ?_, consistent.rooted, consistent.shelf⟩
    intro segId marked
    exact absurd marked (by simp [clearDirty, fresh])
  | evict segId =>
    simp only [ShelvedState.step] at accepted
    split at accepted
    next columns loaded =>
      split_ifs at accepted with durable
      obtain rfl := Option.some.inj accepted
      exact ⟨_, consistent.evict loaded durable⟩
    next => cases accepted
  | restore segId columns =>
    simp only [ShelvedState.step] at accepted
    split_ifs at accepted with evicted
    split at accepted
    next chain restored =>
      obtain rfl := Option.some.inj accepted
      exact ⟨_, (consistent.restore free evicted restored).2⟩
    next => cases accepted
  | readRoot =>
    simp only [ShelvedState.step] at accepted
    split at accepted
    next chain root read =>
      obtain rfl := Option.some.inj accepted
      exact ⟨_, (consistent.readRoot read).2⟩
    next => cases accepted

/-- A run whose expansions all follow a read root stays consistent. -/
theorem Run.consistent [DecidableEq D] (free : hasher.CollisionFree) {logSlots : Nat}
    {operations : List StateOperation} {final : ShelvedState D}
    (run : Run hasher CacheFollows logSlots operations final) :
    ∃ slots, final.Consistent hasher slots := by
  induction run with
  | start => exact ⟨_, consistent_fresh hasher logSlots⟩
  | more _ allowed accepted ih =>
    obtain ⟨slots, consistent⟩ := ih
    exact consistent.step free allowed accepted

/-- After any such run the exact root is the root of the full tree over all slots, and a restore
brings back exactly the evicted columns. -/
theorem exact_root_of_run [DecidableEq D] (free : hasher.CollisionFree) {logSlots : Nat}
    {operations : List StateOperation} {final : ShelvedState D}
    (run : Run hasher CacheFollows logSlots operations final) :
    (∀ chain root, final.chain.tryStateRoot hasher = .ok (chain, root) →
      root = hasher.slotRoot final.chain.state.logSlots final.contents) ∧
    ∀ segId ∈ final.chain.state.evicted, ∀ columns chain,
      final.chain.restoreEvictedSegment hasher segId columns = .ok chain →
        columns = final.shelf segId := by
  obtain ⟨slots, consistent⟩ := run.consistent free
  refine ⟨fun chain root read => ?_, fun segId evicted columns chain restored => ?_⟩
  · rw [consistent.contents_eq]
    exact (consistent.readRoot read).1
  · exact (consistent.restore free evicted restored).1

theorem exact_root_of_expansion :
    ∃ final : ShelvedState SymbolicDigest,
      Run symbolicHasher CacheFollows 16 [.expandOne] final ∧
        ∃ chain root, final.chain.tryStateRoot symbolicHasher = .ok (chain, root) ∧
          root = symbolicHasher.slotRoot 17 final.contents := by
  have start := consistent_fresh symbolicHasher 16
  obtain ⟨grown, grow⟩ := @expand_isOk (newEmpty 16) fun _ => rfl
  obtain ⟨chain, expanded⟩ : ∃ chain, (fresh symbolicHasher 16).chain.expandOne symbolicHasher =
      .ok chain := bind_isOk grow ⟨_, rfl⟩
  have accepted : (fresh symbolicHasher 16).step symbolicHasher .expandOne =
      some { fresh symbolicHasher 16 with chain } := by
    simp only [ShelvedState.step, expanded]
  have run : Run symbolicHasher CacheFollows 16 [.expandOne] _ := Run.start.more le_rfl accepted
  obtain ⟨coherent, -, logSlots, -⟩ := start.coherent.expandOne rfl expanded
  obtain ⟨⟨after, root⟩, read⟩ := coherent.tryStateRoot_isOk
  refine ⟨_, run, after, root, read, ?_⟩
  have rootEq := (exact_root_of_run symbolicHasher_collisionFree run).1 after root read
  rwa [logSlots] at rootEq

section StaleRoot

/-- A upperMint value for the second segment. -/
def upperMint : SlotValue := .withOwnerFields 1 1 (0, 0)

private theorem step_write [DecidableEq D] (consistent : shelved.Consistent hasher slots)
    (exact : shelved.chain.circulatingSupply = totalAmount slots)
    (resident : shelved.chain.state.evicted = []) (index : BitVec 32) {value : SlotValue}
    (inRange : index.toNat < shelved.chain.state.numSlots)
    (changed : slots index.toNat ≠ value) :
    ∃ next, shelved.step hasher (.applyDelta [(index, value)]) = some next ∧
      next.Consistent hasher (update slots index.toNat value) ∧
      next.chain.circulatingSupply = totalAmount (update slots index.toNat value) ∧
      next.chain.state.logSlots = shelved.chain.state.logSlots ∧
      next.chain.state.evicted = [] ∧
      next.chain.state.exactDirty =
        shelved.chain.state.exactDirty.insert (shelved.chain.state.segIdOf index.toNat) ∧
      next.chain.exactRoots = shelved.chain.exactRoots := by
  have notEvicted : shelved.chain.state.segIdOf index.toNat ∉ shelved.chain.state.evicted := by
    simp [resident]
  have supplied : shelved.chain.supplyAfterSlotUpdates (indexed [(index, value)]) =
      some (totalAmount (update slots index.toNat value)) := by
    refine (ChainState.supplyAfterSlotUpdates_eq_some consistent.coherent.holds exact ?_).mpr
      ⟨?_, rfl⟩
    · simpa [indexed] using toNat_lt_slotIndexBound index
    · simpa [indexed] using fun _ => notEvicted
  have applied : shelved.chain.state.applyDeltaUnrooted (indexed [(index, value)]) =
      .ok (shelved.chain.state.writeSlot index.toNat value) :=
    applyDeltaUnrooted_eq_ok.mpr ⟨by simpa [indexed] using inRange, by simp [indexed]⟩
  refine ⟨{ shelved with chain := { shelved.chain with
      state := shelved.chain.state.writeSlot index.toNat value
      circulatingSupply := totalAmount (update slots index.toNat value) } },
    ?_, consistent.applyDelta supplied applied, rfl, ?_, ?_, ?_, rfl⟩
  · simp only [ShelvedState.step, supplied, applied, Option.bind_eq_bind, Option.bind_some]
  all_goals
    simp only [writeSlot_eq consistent.coherent.holds notEvicted changed, markChanged, resident]

/-- With nothing stale, a cache one level ahead is cut and its root returned as it is. -/
theorem tryStateRoot_of_ahead (wellFormed : chain.exactRoots.WellFormed hasher)
    (fresh : chain.state.exactDirty = []) (logSlots : chain.state.logSlots = 17)
    (ahead : chain.exactRoots.logSlots = 18) :
    ∃ after, chain.tryStateRoot hasher = .ok (after,
        hasher.stateNodeHash (chain.exactRoots.segmentRoots 0)
          (chain.exactRoots.segmentRoots 1)) ∧
      after.state = chain.state.clearExactDirty ∧
      after.exactRoots = chain.exactRoots.shrinkTo hasher 17 ∧
      after.utxoRoot = after.exactRoots.root := by
  obtain ⟨cutWell, cutLog, cutRoots⟩ := wellFormed.shrinkTo (show 17 ≤ _ by omega)
  have synced : chain.syncedRoots hasher = chain.exactRoots.shrinkTo hasher 17 := by
    simp [ChainState.syncedRoots, logSlots, ahead]
  have root := cutWell.root_eq
  rw [ExactSegmentRootCache.effectiveLogSeg, cutLog, cutRoots (by decide)] at root
  have refreshed : ChainState.refreshSegments hasher chain.state (chain.syncedRoots hasher) =
      .ok (chain.exactRoots.shrinkTo hasher 17) := by
    rw [ChainState.refreshSegments, fresh, synced]
    rfl
  rw [ChainState.tryStateRoot, refreshed]
  exact ⟨_, congrArg (fun root => Except.ok (_, root)) root, rfl, rfl, rfl⟩

/-- Fill a slot of the upper segment, empty it, roll the domain back and expand it before the next
read. -/
def rollbackAndExpand : List StateOperation :=
  [.applyDelta [(65536, upperMint)], .readRoot, .applyDelta [(65536, .empty)], .shrinkTo 16,
    .expandOne]

/-- An empty domain of 17 levels under a cache of 18 levels that holds a discarded root. -/
structure StaleCache (stale : ShelvedState SymbolicDigest) : Prop where
  contents : stale.contents = fun _ => .empty
  logSlots : stale.chain.state.logSlots = 17
  fresh : stale.chain.state.exactDirty = []
  evicted : stale.chain.state.evicted = []
  cache : stale.chain.exactRoots.WellFormed symbolicHasher
  ahead : stale.chain.exactRoots.logSlots = 18
  upper : stale.chain.exactRoots.segmentRoots 1 = symbolicHasher.segmentRoot 16
    (Function.update (fun _ => .empty) 65536 upperMint) 1

theorem StaleCache.upper_ne {stale : ShelvedState SymbolicDigest} (isStale : StaleCache stale) :
    stale.chain.exactRoots.segmentRoots 1 ≠ symbolicHasher.zeroSlotRoot 16 := by
  rw [isStale.upper, ← StateHasher.slotRoot_empty]
  intro equal
  have slot := symbolicHasher_collisionFree.slotRoot_injective equal 0 (by norm_num)
  exact absurd slot (by decide)

/-- Expanding over a rollback that was not yet read keeps the discarded root in the cache. -/
theorem staleCache_of_rollbackAndExpand :
    ∃ final : ShelvedState SymbolicDigest,
      Run symbolicHasher (fun _ _ => True) 17 rollbackAndExpand final ∧ StaleCache final := by
  have start := consistent_fresh symbolicHasher 17
  -- The slot is filled and the root read, so that the cache holds the root of the upper segment.
  obtain ⟨filled, fill, filledOk, filledSupply, filledLog, filledEvicted, -, -⟩ :=
    @step_write _ _ _ _ _ start (slotSum_empty (by rfl)).symm rfl 65536 upperMint (by decide)
      (by decide)
  obtain ⟨⟨readChain, root⟩, read⟩ := filledOk.coherent.tryStateRoot_isOk
  obtain ⟨-, -, readSynced, -, -, readState, -, -, readSupply⟩ :=
    filledOk.coherent.tryStateRoot read
  have readOk := (filledOk.readRoot read).2
  have readLog : readChain.state.logSlots = 17 := by
    rw [readState]
    exact filledLog
  have cacheLog : readChain.exactRoots.logSlots = 17 := readSynced.trans readLog
  have upper : readChain.exactRoots.segmentRoots 1 = symbolicHasher.segmentRoot 16
      (update (fun _ => .empty) 65536 upperMint) 1 := by
    have size : readChain.state.effectiveLogSegmentSize = 16 := by
      simp [effectiveLogSegmentSize, readLog, logSegmentSize]
    have := readOk.coherent.roots 1
      (by simp [numSegments, size, readLog]) (by simp [readState, clearExactDirty])
    rwa [size] at this
  -- The slot is emptied again, and the domain rolled back below it.
  obtain ⟨emptied, empty, emptiedOk, -, emptiedLog, emptiedEvicted, emptiedDirty, emptiedCache⟩ :=
    @step_write _ _ { filled with chain := readChain } _ _ readOk
      (readSupply.trans filledSupply) (by rw [readState]; exact filledEvicted) 65536 .empty
      (by simp [numSlots, readLog]) (by decide)
  rw [show update (update (fun _ => SlotValue.empty) (65536 : BitVec 32).toNat
    upperMint) (65536 : BitVec 32).toNat .empty = fun _ => .empty by
      rw [update_idem, update_eq_self_iff]] at emptiedOk
  obtain ⟨rolled, roll⟩ := emptiedOk.coherent.holds.shrinkToLogSlots_isOk
    (show 1 ≤ 16 by norm_num) (by rw [emptiedLog, readLog]; norm_num)
    (by rw [emptiedLog, readLog]) (fun _ _ => rfl) (fun _ _ _ => by simp [emptiedEvicted])
    (fun _ => emptiedEvicted)
  obtain ⟨rolledHolds, rolledLog, rolledEvicted, -, -, rolledDirty, -⟩ :=
    emptiedOk.coherent.holds.shrinkToLogSlots roll
  have rolledFresh : rolled.exactDirty = [] := by
    refine eq_nil_iff_forall_not_mem.mpr fun segId marked => ?_
    have inRange := rolledHolds.stale segId marked
    rw [single_segment (by rw [rolledLog]; decide)] at inRange
    obtain rfl : segId = 0 := by omega
    rcases rolledDirty 0 marked with stale | ⟨-, small⟩
    · rw [emptiedDirty, readState] at stale
      simp [clearExactDirty, segIdOf, segmentSlotCount, effectiveLogSegmentSize, filledLog,
        fresh, ChainState.withLogSlots, newEmpty, logSegmentSize] at stale
    · exact absurd small (by decide)
  obtain ⟨grown, grow⟩ := @expand_isOk rolled fun small => by
    rw [rolledLog] at small
    exact absurd small (by decide)
  obtain ⟨grownHolds, grownLog, grownEvicted, -, -, -, grownDirty⟩ := expand_eq_ok rolledHolds grow
  -- The expansion finds the cache one level too deep and doubles it once more.
  obtain ⟨expandedChain, expanded⟩ : ∃ chain,
      ({ emptied.chain with state := rolled } : ChainState SymbolicDigest).expandOne
        symbolicHasher = .ok chain := bind_isOk grow ⟨_, rfl⟩
  have facts : expandedChain.state.Holds (fun _ => .empty) ∧ expandedChain.state.logSlots = 17 ∧
      expandedChain.state.exactDirty = [] ∧ expandedChain.state.evicted = [] ∧
      expandedChain.exactRoots = readChain.exactRoots.expandOne symbolicHasher := by
    have fresh : grown.exactDirty = [] := by
      refine eq_nil_iff_forall_not_mem.mpr fun segId marked => ?_
      rcases (grownDirty segId).mp marked with stale | ⟨small, -⟩
      · simp [rolledFresh] at stale
      · rw [rolledLog] at small
        exact absurd small (by decide)
    simp only [ChainState.expandOne, grow, bind_eq_ok, pure_eq_ok, Except.ok.injEq,
      exists_eq_left'] at expanded
    subst expanded
    have evicted : grown.evicted = [] := (grownEvicted.trans rolledEvicted).trans emptiedEvicted
    refine ⟨?_, ?_, ?_, ?_, by rw [emptiedCache]⟩ <;> simp only <;> split_ifs
    · exact grownHolds.clearExactDirty
    · exact grownHolds
    · exact grownLog.trans (by rw [rolledLog])
    · exact grownLog.trans (by rw [rolledLog])
    · rfl
    · exact fresh
    · exact evicted
    · exact evicted
  obtain ⟨finalHolds, finalLog, finalFresh, finalEvicted, finalCache⟩ := facts
  have finalRoots : ∀ segId < 2, expandedChain.exactRoots.segmentRoots segId =
      readChain.exactRoots.segmentRoots segId := by
    intro segId bound
    have count : readChain.exactRoots.segmentCount = 2 := by
      rw [readOk.coherent.cache.count, ExactSegmentRootCache.effectiveLogSeg, cacheLog]
      rfl
    rw [finalCache, ExactSegmentRootCache.expandOne_segmentRoots_large
      (by rw [cacheLog]; decide), count, if_pos bound]
  refine ⟨{ emptied with chain := expandedChain }, ?_, ?_, finalLog, finalFresh, finalEvicted,
    finalCache ▸ readOk.coherent.cache.expandOne, ?_, (finalRoots 1 (by norm_num)).trans upper⟩
  · have readStep : filled.step symbolicHasher .readRoot =
        some { filled with chain := readChain } := by
      simp only [ShelvedState.step, read]
    have rollStep : emptied.step symbolicHasher (.shrinkTo 16) =
        some { emptied with chain := { emptied.chain with state := rolled } } := by
      simp only [ShelvedState.step, roll]
    have expandStep : ShelvedState.step symbolicHasher
        { emptied with chain := { emptied.chain with state := rolled } } .expandOne =
          some { emptied with chain := expandedChain } := by
      simp only [ShelvedState.step, expanded]
    exact (((((Run.start).more trivial fill).more trivial readStep).more trivial empty).more
      trivial rollStep).more trivial expandStep
  · funext index
    simp only [contents, finalEvicted, not_mem_nil, if_false]
    exact finalHolds.slot_eq (by simp [finalEvicted])
  · rw [finalCache, ExactSegmentRootCache.expandOne_logSlots, cacheLog]

/-- Expanding over a rollback that was not yet read brings the discarded root back. -/
theorem stale_root_of_rollbackAndExpand :
    ∃ final : ShelvedState SymbolicDigest,
      Run symbolicHasher (fun _ _ => True) 17 rollbackAndExpand final ∧
        ∃ chain root, final.chain.tryStateRoot symbolicHasher = .ok (chain, root) ∧
          root ≠ symbolicHasher.slotRoot final.chain.state.logSlots final.contents := by
  obtain ⟨final, run, isStale⟩ := staleCache_of_rollbackAndExpand
  obtain ⟨chain, rootRead, -⟩ :=
    tryStateRoot_of_ahead isStale.cache isStale.fresh isStale.logSlots isStale.ahead
  refine ⟨final, run, chain, _, rootRead, ?_⟩
  rw [isStale.contents, isStale.logSlots, StateHasher.slotRoot_empty]
  intro equal
  exact isStale.upper_ne (symbolicHasher_collisionFree.node equal).2

end StaleRoot

end ShelvedState
end Jetsam
