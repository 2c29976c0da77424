import Jetsam.Consensus.Receipt
import Jetsam.Storage.MdbxContext

/-!
# Reorganisations

Over every run of commits and reorganisations the stored logs lead back to each block that may still
be replaced, and the node stands as if it had accepted its chain from genesis.
-/

namespace Jetsam

open Control List NodeState

variable {D : Type} {hashes : ChainHashes D} {rules : ConsensusRules D}

namespace MdbxChainContext

variable [DecidableEq D]

/-- A node and its store keep a chain: the node stands as after accepting it from genesis, the
header of every block is stored, and from the floor on the log that takes the block back. -/
structure Stores (hashes : ChainHashes D) (rules : ConsensusRules D) (floor : Nat)
    (staged : NodeState D × MdbxStore D) (blocks : List (Block D)) : Prop where
  sound : staged.1.Sound hashes (ledgerAfter blocks)
  accepted : ∃ reference, AcceptedRun hashes rules blocks reference ∧
    staged.1.registry = reference.registry ∧ staged.1.tip = reference.tip
  headers : ∀ prior, prior <+: blocks → staged.2.headers prior.length = some (tipOf hashes prior)
  undoLogs : ∀ prior block, prior ++ [block] <+: blocks → floor ≤ prior.length + 1 →
    ∃ undo, staged.2.getUndoLog (prior.length + 1) = some undo ∧
      undo.Undoes hashes (ledgerAfter prior) block
  bounded : ∀ height, (staged.2.undoLogs height).isSome → height ≤ blocks.length

/-- The chain of a context, final up to its checkpoint. -/
structure Keeps (hashes : ChainHashes D) (rules : ConsensusRules D)
    (context : MdbxChainContext D) (blocks : List (Block D)) : Prop where
  stores : Stores hashes rules context.finalized.height (context.node, context.store) blocks
  final : ∃ prior, prior <+: blocks ∧
    context.finalized = ⟨prior.length, hashes.blockId (tipOf hashes prior)⟩
  near : blocks.length ≤ context.finalized.height + consensusFinalityDepth
  recent : ∀ height, (context.store.undoLogs height).isSome →
    blocks.length ≤ max undoRetentionDepth (height + undoRetentionDepth - 1)

section

variable {floor : Nat} {staged after : NodeState D × MdbxStore D}
  {blocks prior suffix : List (Block D)}

theorem Stores.height (stores : Stores hashes rules floor staged blocks) :
    staged.1.tip.height = blocks.length := by
  obtain ⟨reference, run, -, tip⟩ := stores.accepted
  rw [tip, run.sound.2]

theorem Stores.standsFor (stores : Stores hashes rules floor staged blocks) :
    staged.1.StandsFor hashes rules blocks := by
  obtain ⟨reference, run, registry, tip⟩ := stores.accepted
  exact ⟨reference, run, stores.sound.stands.restores run.sound.1.stands, registry, tip⟩

theorem stageBlock_of_accepted {block : Block D} {counts : List Nat} {node : NodeState D}
    {undo : BlockUndoLog} (accepted : staged.1.acceptBlock hashes rules block counts = .ok node)
    (built : buildUndoLog hashes staged.1.chain block = .ok undo) :
    stageBlock hashes rules staged (block, counts) =
      .ok (node, staged.2.putBlock block.header undo) :=
  bind_eq_ok.mpr ⟨node, mapError_eq_ok.mpr accepted, bind_eq_ok.mpr ⟨undo,
    mapError_eq_ok.mpr built, rfl⟩⟩

/-- A staged block extends the chain. -/
theorem Stores.stageBlock (stores : Stores hashes rules floor staged blocks)
    {next : Block D × List Nat} (fits : next.1.header.height < u64Bound)
    (done : stageBlock hashes rules staged next = .ok after) :
    Stores hashes rules floor after (blocks ++ [next.1]) := by
  simp only [MdbxChainContext.stageBlock, bind_eq_ok, mapError_eq_ok, pure_eq_ok] at done
  obtain ⟨node, accepted, undo, built, rfl⟩ := done
  obtain ⟨reference, run, registry, tip⟩ := stores.accepted
  obtain ⟨undo, built', stored, undoes⟩ := run.undoes stores.sound tip accepted fits
  obtain rfl := Except.ok.inj (built.symm.trans built')
  obtain ⟨layout, effect, extended⟩ := stores.sound.acceptBlock accepted
  obtain ⟨reached, extends', registry', tip'⟩ :=
    stores.sound.acceptBlock_congr run.sound.1 registry.symm tip.symm accepted
  have height : next.1.header.height = blocks.length + 1 := by
    rw [extended.checks.height, stores.height]
  refine ⟨?_, ⟨reached, run.block extends', registry'.symm, tip'.symm⟩, fun prior before => ?_,
    fun prior block before low => ?_, fun position logged => ?_⟩
  · rw [ledgerAfter, foldl_append]
    exact extended.sound
  · rcases prefix_concat_iff.mp before with rfl | shorter
    · simp [MdbxStore.putBlock, height]
    · have other : prior.length ≠ blocks.length + 1 := by
        have := shorter.length_le
        omega
      simpa [MdbxStore.putBlock, height, other] using stores.headers prior shorter
  · rcases prefix_concat_iff.mp before with same | shorter
    · obtain ⟨rfl, rfl⟩ := append_singleton_inj.mp same
      refine ⟨undo, ?_, undoes⟩
      simp [MdbxStore.getUndoLog, MdbxStore.putBlock, height, stored]
    · have other : prior.length ≠ blocks.length := by
        have := shorter.length_le
        rw [length_append, length_singleton] at this
        omega
      simpa [MdbxStore.getUndoLog, MdbxStore.putBlock, height, other] using
        stores.undoLogs prior block shorter low
  · rw [length_append, length_singleton]
    by_cases last : position = blocks.length + 1
    · exact last.le
    · have earlier := stores.bounded position
        (by simpa [MdbxStore.putBlock, height, last] using logged)
      omega

theorem Stores.foldlM_stageBlock (stores : Stores hashes rules floor staged blocks)
    {replacement : List (Block D × List Nat)}
    (fits : ∀ next ∈ replacement, next.1.header.height < u64Bound)
    (done : replacement.foldlM (MdbxChainContext.stageBlock hashes rules) staged = .ok after) :
    Stores hashes rules floor after (blocks ++ replacement.map Prod.fst) := by
  induction replacement generalizing staged blocks with
  | nil =>
    obtain rfl := foldlM_nil_eq_ok.mp done
    simpa using stores
  | cons next replacement ih =>
    obtain ⟨middle, first, rest⟩ := foldlM_cons_eq_ok.mp done
    obtain ⟨here, later⟩ := forall_mem_cons.mp fits
    have := ih (stores.stageBlock here first) later rest
    rwa [append_assoc] at this

/-- Blocks are staged exactly when a node that accepted the same chain accepts them. -/
theorem Stores.foldlM_stageBlock_isOk_iff (stores : Stores hashes rules floor staged blocks)
    {reference : NodeState D} (run : AcceptedRun hashes rules blocks reference)
    (registry : staged.1.registry = reference.registry) (tip : staged.1.tip = reference.tip)
    {replacement : List (Block D × List Nat)}
    (fits : ∀ next ∈ replacement, next.1.header.height < u64Bound) :
    (∃ after, replacement.foldlM (MdbxChainContext.stageBlock hashes rules) staged = .ok after) ↔
      ∃ final, replacement.foldlM (fun node next => node.acceptBlock hashes rules next.1 next.2)
        reference = .ok final := by
  induction replacement generalizing staged blocks reference with
  | nil => exact ⟨fun _ => ⟨_, rfl⟩, fun _ => ⟨_, rfl⟩⟩
  | cons next replacement ih =>
    obtain ⟨here, later⟩ := forall_mem_cons.mp fits
    constructor
    · rintro ⟨after, done⟩
      obtain ⟨middle, first, rest⟩ := foldlM_cons_eq_ok.mp done
      obtain ⟨node, accepted, staging⟩ := bind_eq_ok.mp first
      obtain ⟨undo, -, same⟩ := bind_eq_ok.mp staging
      obtain rfl := Except.ok.inj same
      obtain ⟨reached, accepted', registry', tip'⟩ := stores.sound.acceptBlock_congr run.sound.1
        registry.symm tip.symm (mapError_eq_ok.mp accepted)
      obtain ⟨final, rest'⟩ := (ih (stores.stageBlock here first) (run.block accepted')
        registry'.symm tip'.symm later).mp ⟨after, rest⟩
      exact ⟨final, foldlM_cons_eq_ok.mpr ⟨reached, accepted', rest'⟩⟩
    · rintro ⟨final, done⟩
      obtain ⟨reached, accepted', rest'⟩ := foldlM_cons_eq_ok.mp done
      obtain ⟨node, accepted, registry', tip'⟩ :=
        run.sound.1.acceptBlock_congr stores.sound registry tip accepted'
      obtain ⟨undo, built, -⟩ := run.undoes stores.sound tip accepted here
      have first := stageBlock_of_accepted accepted built
      obtain ⟨after, rest⟩ := (ih (stores.stageBlock here first) (run.block accepted')
        registry' tip' later).mpr ⟨final, rest'⟩
      exact ⟨after, foldlM_cons_eq_ok.mpr ⟨_, first, rest⟩⟩

/-- What is staged can be committed: pruning stays below the new checkpoint. -/
theorem Stores.commitStaged {finalized : FinalizedCheckpoint}
    (stores : Stores hashes rules finalized.height staged blocks)
    (final : ∃ prior, prior <+: blocks ∧
      finalized = ⟨prior.length, hashes.blockId (tipOf hashes prior)⟩) :
    ∃ context, commitStaged hashes finalized staged = .ok context ∧
      context.finalized.height = max finalized.height (blocks.length - consensusFinalityDepth) ∧
      context.Keeps hashes rules blocks := by
  have moved : ∃ next, finalized.forTip hashes staged.2 staged.1.tip.height = .ok next ∧
      next.height = max finalized.height (blocks.length - consensusFinalityDepth) ∧
      ∃ prior, prior <+: blocks ∧ next = ⟨prior.length, hashes.blockId (tipOf hashes prior)⟩ := by
    rw [stores.height, FinalizedCheckpoint.forTip]
    split_ifs with old
    · exact ⟨finalized, rfl, (max_eq_left old).symm, final⟩
    · have before := take_prefix (blocks.length - consensusFinalityDepth) blocks
      have length : (blocks.take (blocks.length - consensusFinalityDepth)).length =
          blocks.length - consensusFinalityDepth := by
        rw [length_take]
        omega
      have stored := stores.headers _ before
      rw [length] at stored
      refine ⟨_, by rw [stored]; rfl, (max_eq_right (le_of_not_ge old)).symm, _, before, ?_⟩
      rw [length]
  obtain ⟨next, found, height, final'⟩ := moved
  refine ⟨_, bind_eq_ok.mpr ⟨next, found, rfl⟩, height, ⟨stores.sound, stores.accepted, ?_, ?_, ?_⟩,
    final', ?_, ?_⟩
  · intro prior before
    rw [MdbxStore.headers_pruneAfterCommit]
    exact stores.headers prior before
  · intro prior block before low
    obtain ⟨undo, read, undoes⟩ := stores.undoLogs prior block before
      ((le_max_left _ _).trans (height ▸ low))
    have recent := (le_max_right _ _).trans (height ▸ low)
    rw [consensusFinalityDepth] at recent
    refine ⟨undo, ?_, undoes⟩
    rw [MdbxStore.getUndoLog_pruneAfterCommit]
    · exact read
    · rw [stores.height, undoRetentionDepth]
      omega
  · intro position logged
    exact stores.bounded position (staged.2.isSome_undoLogs_pruneAfterCommit logged).1
  · have := height ▸ le_max_right finalized.height (blocks.length - consensusFinalityDepth)
    dsimp only
    omega
  · intro position logged
    rw [← stores.height]
    exact (staged.2.isSome_undoLogs_pruneAfterCommit logged).2

/-- Undoing the blocks of a suffix leads back to the ledger before it, with a current root. -/
theorem Stores.foldlM_revertHeight (stores : Stores hashes rules floor staged blocks)
    (before : prior ++ suffix <+: blocks) (low : floor ≤ prior.length) {chain : ChainState D}
    {reclaimed : List Digest}
    (represents : chain.Represents hashes.state (ledgerAfter (prior ++ suffix)))
    (rooted : chain.Rooted hashes.state (ledgerAfter (prior ++ suffix)).slots)
    (resident : chain.state.evicted = []) :
    ∃ reverted, (reorgHeights prior.length (prior ++ suffix).length).foldlM
        (revertHeight hashes staged.2) (chain, reclaimed) =
          .ok (reverted, reclaimed ++ reclaimedFrom hashes suffix) ∧
      reverted.Represents hashes.state (ledgerAfter prior) ∧
      reverted.Rooted hashes.state (ledgerAfter prior).slots ∧
      reverted.state.evicted = [] := by
  induction suffix using reverseRecOn generalizing chain reclaimed with
  | nil =>
    rw [append_nil] at represents rooted
    refine ⟨chain, ?_, represents, rooted, resident⟩
    simp [reorgHeights, reclaimedFrom]
  | append_singleton suffix block ih =>
    rw [reorgHeights_concat]
    rw [← append_assoc] at before represents
    obtain ⟨undo, read, undoes⟩ := stores.undoLogs (prior ++ suffix) block before
      (by rw [length_append]; omega)
    have shorter := (prefix_append (prior ++ suffix) [block]).trans before
    obtain ⟨reference, run, -, -⟩ := stores.accepted
    obtain ⟨earlier, reached, -⟩ := run.before shorter
    have sound := reached.sound.1
    obtain ⟨-, root⟩ := reached.commits
    have ledger : ledgerAfter (prior ++ suffix ++ [block]) =
        (ledgerAfter (prior ++ suffix)).afterBlock block := by
      rw [ledgerAfter, foldl_append]
      rfl
    have stands := represents.stands fun _ _ => resident ▸ not_mem_nil
    rw [resident, ledger] at stands
    obtain ⟨undone, done, standing⟩ := undoes.rollback chain stands
    obtain ⟨⟨current, value⟩, computed⟩ := standing.coherent.tryStateRoot_isOk
    obtain ⟨-, coherent, synced, isRooted, -, state, active, alloc, supply⟩ :=
      standing.coherent.tryStateRoot computed
    have sameDepth : current.state.logSlots = (ledgerAfter (prior ++ suffix)).logSlots := by
      rw [state]
      exact standing.logSlots
    have tip := reached.tip
    rw [← tipOf] at tip
    have step : revertHeight hashes staged.2 (chain, reclaimed) ((prior ++ suffix).length + 1) =
        .ok (current, reclaimed ++ undo.txHashes) := by
      refine bind_eq_ok.mpr ⟨undo, okOr_eq_ok.mpr read, bind_eq_ok.mpr ⟨undone,
        mapError_eq_ok.mpr done, bind_eq_ok.mpr ⟨(current, value), mapError_eq_ok.mpr computed,
        bind_eq_ok.mpr ⟨earlier.tip, okOr_eq_ok.mpr ?_, require_bind_eq_ok.mpr ⟨?_, rfl⟩⟩⟩⟩⟩
      · rw [Nat.add_sub_cancel, stores.headers _ shorter, tip]
      · refine ⟨undoes.logSlots.trans sound.logSlots.symm, sameDepth.trans sound.logSlots.symm, ?_,
          (active.trans standing.active).trans sound.active.symm,
          (alloc.trans standing.alloc).trans sound.alloc.symm⟩
        rw [isRooted, sameDepth, root, sound.logSlots]
    obtain ⟨reverted, rest, final⟩ := ih shorter
      ⟨coherent, synced, sameDepth, active.trans standing.active, alloc.trans standing.alloc,
        supply.trans standing.supply⟩ isRooted (by rw [state]; exact standing.evicted)
    refine ⟨reverted, foldlM_cons_eq_ok.mpr ⟨_, step, ?_⟩, final⟩
    rw [rest]
    simp [reclaimedFrom, undoes.txHashes, Except.toOption]

/-- Rolling back and truncating keeps the chain up to the ancestor. -/
theorem Stores.truncated (stores : Stores hashes rules floor staged (prior ++ suffix))
    {reverted : ChainState D} (represents : reverted.Represents hashes.state (ledgerAfter prior))
    (rooted : reverted.Rooted hashes.state (ledgerAfter prior).slots)
    (resident : reverted.state.evicted = []) :
    Stores hashes rules floor
      (⟨reverted, staged.1.registry.truncateAbove prior.length, tipOf hashes prior⟩,
        staged.2.truncateReorgSuffix prior.length (prior ++ suffix).length) prior := by
  obtain ⟨reference, run, registry, -⟩ := stores.accepted
  obtain ⟨earlier, reached, truncated⟩ := run.before (prefix_append prior suffix)
  have sound := reached.sound.1
  have tip : earlier.tip = tipOf hashes prior := reached.tip
  refine ⟨⟨represents, rooted, resident, tip ▸ sound.logSlots, tip ▸ sound.active,
    tip ▸ sound.alloc⟩, ⟨earlier, reached, registry ▸ truncated, tip.symm⟩, fun older before => ?_,
    fun older block before low => ?_, fun height logged => ?_⟩
  · have kept := before.length_le.not_gt
    simpa [MdbxStore.truncateReorgSuffix, kept] using
      stores.headers older (before.trans (prefix_append _ _))
  · have kept : ¬prior.length < older.length + 1 := by
      have := before.length_le
      rw [length_append, length_singleton] at this
      omega
    simpa [MdbxStore.truncateReorgSuffix, MdbxStore.getUndoLog, kept] using
      stores.undoLogs older block (before.trans (prefix_append _ _)) low
  · simp only [MdbxStore.truncateReorgSuffix] at logged
    split_ifs at logged with cut
    · cases logged
    · have := stores.bounded height logged
      omega

theorem Stores.getUndoLog_isSome (stores : Stores hashes rules floor staged blocks) {height : Nat}
    (positive : 0 < height) (inside : height ≤ blocks.length) (low : floor ≤ height) :
    (staged.2.getUndoLog height).isSome := by
  obtain ⟨count, rfl⟩ := Nat.exists_eq_add_of_le' positive
  have length : (blocks.take count).length = count := length_take_of_le (by omega)
  have before : blocks.take count ++ [blocks[count]] <+: blocks := by
    rw [take_append_getElem]
    exact take_prefix _ _
  obtain ⟨undo, read, -⟩ := stores.undoLogs _ _ before (by rwa [length])
  rw [← length, read]
  rfl

end

namespace Keeps

variable {context next : MdbxChainContext D} {blocks : List (Block D)} {ancestor : Nat}

section

variable (keeps : context.Keeps hashes rules blocks)

include keeps

theorem low : context.finalized.height ≤ blocks.length := by
  obtain ⟨checked, before, checkpoint⟩ := keeps.final
  rw [checkpoint]
  exact before.length_le

theorem height : context.node.tip.height = blocks.length :=
  keeps.stores.height

/-- The guards pass from the checkpoint to the tip. -/
theorem checkAncestor_eq_ok_iff : context.checkAncestor hashes ancestor = .ok () ↔
    context.finalized.height ≤ ancestor ∧ ancestor ≤ blocks.length := by
  have near := keeps.near
  obtain ⟨checked, before, checkpoint⟩ := keeps.final
  have stored : context.store.headers context.finalized.height = some (tipOf hashes checked) := by
    rw [checkpoint]
    exact keeps.stores.headers checked before
  have hash : hashes.blockId (tipOf hashes checked) = context.finalized.hash := by rw [checkpoint]
  rw [checkAncestor, keeps.height, require_bind_eq_ok, require_bind_eq_ok]
  constructor
  · rintro ⟨below, above, -⟩
    exact ⟨above, below⟩
  · rintro ⟨above, below⟩
    refine ⟨below, above, ?_⟩
    split_ifs with last
    · rw [last, stored]
      exact bind_eq_ok.mpr ⟨_, rfl, require_bind_eq_ok.mpr ⟨hash, require_eq_ok.mpr (by omega)⟩⟩
    · exact require_eq_ok.mpr (by omega)

/-- The blocks above the checkpoint can be undone. -/
theorem revertTo (final : context.finalized.height ≤ ancestor) (inside : ancestor ≤ blocks.length) :
    ∃ node, context.revertTo hashes ancestor =
        .ok (node, reclaimedFrom hashes (blocks.drop ancestor)) ∧
      Stores hashes rules context.finalized.height
        (node, context.store.truncateReorgSuffix ancestor blocks.length)
        (blocks.take ancestor) := by
  obtain ⟨prior, suffix, rfl, rfl⟩ : ∃ prior suffix, blocks = prior ++ suffix ∧
      ancestor = prior.length :=
    ⟨_, _, (take_append_drop ancestor blocks).symm, (length_take_of_le inside).symm⟩
  rw [take_left, drop_left]
  have stores := keeps.stores
  obtain ⟨reverted, undone, represents, rooted, resident⟩ := @Stores.foldlM_revertHeight _ _ _ _ _
    _ _ _ _ stores prefix_rfl final context.node.chain [] stores.sound.represents
    stores.sound.rooted stores.sound.resident
  rw [nil_append] at undone
  refine ⟨_, ?_, stores.truncated represents rooted resident⟩
  rw [MdbxChainContext.revertTo, keeps.height]
  refine bind_eq_ok.mpr ⟨_, okOr_eq_ok.mpr (stores.headers prior (prefix_append _ _)),
    require_bind_eq_ok.mpr ⟨?_, bind_eq_ok.mpr ⟨(), forM_eq_ok.mpr fun height listed =>
      require_eq_ok.mpr ?_, bind_eq_ok.mpr ⟨_, undone, rfl⟩⟩⟩⟩
  · rcases Nat.eq_zero_or_pos prior.length with none | positive
    · exact .inl none
    · exact .inr (stores.getUndoLog_isSome positive inside final)
  · simp only [reorgHeights, mem_reverse, mem_range'_1] at listed
    exact stores.getUndoLog_isSome (by omega) (by omega) (by omega)

/-- Whatever is staged over the final blocks can be committed. -/
theorem commitStaged {staged : NodeState D × MdbxStore D} {after : List (Block D)}
    (stores : Stores hashes rules context.finalized.height staged after)
    (kept : blocks.take context.finalized.height <+: after) :
    ∃ next, commitStaged hashes context.finalized staged = .ok next ∧ next.node = staged.1 ∧
      next.finalized.height =
        max context.finalized.height (after.length - consensusFinalityDepth) ∧
      next.Keeps hashes rules after := by
  obtain ⟨checked, before, checkpoint⟩ := keeps.final
  have exactly : blocks.take context.finalized.height = checked := by
    rw [checkpoint, ← prefix_iff_eq_take.mp before]
  obtain ⟨next, done, moved, keeps'⟩ := stores.commitStaged ⟨checked, exactly ▸ kept, checkpoint⟩
  obtain ⟨finalized, -, same⟩ := bind_eq_ok.mp done
  exact ⟨next, done, by rw [← Except.ok.inj same], moved, keeps'⟩

/-- A reorganisation stages its replacement over the chain up to the ancestor. -/
theorem applyReorg (above : context.finalized.height ≤ ancestor)
    (inside : ancestor < blocks.length) :
    ∃ node, Stores hashes rules context.finalized.height
        (node, context.store.truncateReorgSuffix ancestor blocks.length) (blocks.take ancestor) ∧
      ∀ replacement outcome, context.applyReorg hashes rules ancestor replacement = .ok outcome ↔
        ∃ staged, replacement.foldlM (stageBlock hashes rules)
            (node, context.store.truncateReorgSuffix ancestor blocks.length) = .ok staged ∧
          MdbxChainContext.commitStaged hashes context.finalized staged = .ok outcome.1 ∧
          outcome.2 = ⟨reorgHeights ancestor blocks.length, replacement.map (·.1.header.height),
            reclaimedFrom hashes (blocks.drop ancestor)⟩ := by
  obtain ⟨node, reverted, stores⟩ := keeps.revertTo above inside.le
  refine ⟨node, stores, fun replacement outcome => ?_⟩
  rw [MdbxChainContext.applyReorg,
    bind_of_ok (keeps.checkAncestor_eq_ok_iff.mpr ⟨above, inside.le⟩), keeps.height,
    if_neg (Nat.sub_ne_zero_of_lt inside), bind_of_ok reverted]
  obtain ⟨next, result⟩ := outcome
  refine bind_eq_ok.trans (exists_congr fun staged => and_congr_right fun _ =>
    bind_eq_ok.trans ⟨?_, ?_⟩)
  · rintro ⟨committed, done, same⟩
    obtain ⟨rfl, rfl⟩ := Prod.mk.inj (Except.ok.inj same)
    exact ⟨done, rfl⟩
  · rintro ⟨done, rfl⟩
    exact ⟨next, done, rfl⟩

/-- One commit or reorganisation keeps the blocks up to the checkpoint, which never falls. -/
theorem step (step : Step hashes rules context next) : ∃ after, next.Keeps hashes rules after ∧
    context.finalized.height ≤ next.finalized.height ∧
    blocks.take context.finalized.height <+: after := by
  cases step with
  | @commit block _ fits done =>
    obtain ⟨staged, staging, done⟩ := bind_eq_ok.mp done
    have kept := ( take_prefix context.finalized.height blocks).trans (prefix_append _ [block])
    obtain ⟨reached, done', -, moved, keeps'⟩ :=
      keeps.commitStaged (keeps.stores.stageBlock fits staging) kept
    obtain rfl := Except.ok.inj (done.symm.trans done')
    exact ⟨_, keeps', moved ▸ le_max_left _ _, kept⟩
  | @reorg ancestor replacement result fits done =>
    obtain ⟨_, guard, rest⟩ := bind_eq_ok.mp done
    obtain ⟨above, inside⟩ := keeps.checkAncestor_eq_ok_iff.mp guard
    rcases inside.eq_or_lt with rfl | inside
    · rw [keeps.height, if_pos (Nat.sub_self _)] at rest
      obtain ⟨rfl, -⟩ := Prod.mk.inj (Except.ok.inj rest)
      exact ⟨blocks, keeps, le_rfl, take_prefix _ _⟩
    · obtain ⟨node, stores, outcomes⟩ := keeps.applyReorg above inside
      obtain ⟨staged, staging, commit, -⟩ := (outcomes replacement (next, result)).mp done
      have kept := (take_prefix_take_left above).trans
        (prefix_append (blocks.take ancestor) (replacement.map Prod.fst))
      obtain ⟨reached, commit', -, moved, keeps'⟩ :=
        keeps.commitStaged (stores.foldlM_stageBlock fits staging) kept
      obtain rfl := Except.ok.inj (commit.symm.trans commit')
      exact ⟨_, keeps', moved ▸ le_max_left _ _, kept⟩

theorem onward (onward : Relation.ReflTransGen (Step hashes rules) context next) :
    ∃ after, next.Keeps hashes rules after ∧ context.finalized.height ≤ next.finalized.height ∧
      blocks.take context.finalized.height <+: after := by
  induction onward with
  | refl => exact ⟨blocks, keeps, le_rfl, take_prefix _ _⟩
  | tail _ step ih =>
    obtain ⟨middle, kept, rises, before⟩ := ih
    obtain ⟨after, kept', rises', before'⟩ := kept.step step
    refine ⟨after, kept', rises.trans rises', IsPrefix.trans ?_ before'⟩
    refine prefix_of_prefix_length_le before ( take_prefix _ _) ?_
    rw [length_take_of_le keeps.low, length_take_of_le kept.low]
    exact rises

end

theorem genesis (hashes : ChainHashes D) (rules : ConsensusRules D) :
    (genesis hashes).Keeps hashes rules [] where
  stores :=
    { sound := NodeState.sound_genesis hashes
      accepted := ⟨_, .genesis, rfl, rfl⟩
      headers := by
        intro prior before
        obtain rfl := prefix_nil.mp before
        rfl
      undoLogs := by simp
      bounded := fun height logged => by
        by_contra outside
        have other : height ≠ 0 := fun zero => outside zero.le
        simp [MdbxChainContext.genesis, MdbxStore.putBlock, genesisHeader, other] at logged }
  final := ⟨[], prefix_rfl, rfl⟩
  near := Nat.zero_le _
  recent := fun _ _ => Nat.zero_le _

end Keeps

section Runs

variable {context next : MdbxChainContext D}

/-- The contexts reached from genesis. -/
def Reached (hashes : ChainHashes D) (rules : ConsensusRules D) : MdbxChainContext D → Prop :=
  Relation.ReflTransGen (Step hashes rules) (genesis hashes)

/-- Whatever is committed or reorganised later, the checkpoint never falls and the headers up to it
stay. -/
theorem Reached.headers_final (reached : Reached hashes rules context)
    (onward : Relation.ReflTransGen (Step hashes rules) context next) :
    context.finalized.height ≤ next.finalized.height ∧
      ∀ height ≤ context.finalized.height, ∃ header, context.store.headers height = some header ∧
        next.store.headers height = some header := by
  obtain ⟨blocks, keeps, -⟩ := (Keeps.genesis hashes rules).onward reached
  obtain ⟨after, kept, rises, before⟩ := keeps.onward onward
  refine ⟨rises, fun height final => ⟨tipOf hashes (blocks.take height), ?_⟩⟩
  have length := length_take_of_le (final.trans keeps.low)
  have headers := keeps.stores.headers _ ( take_prefix height blocks)
  have headers' := kept.stores.headers _ ((take_prefix_take_left final).trans before)
  rw [length] at headers headers'
  exact ⟨headers, headers'⟩

/-- Every accepted chain is reached by committing its blocks. -/
theorem reached_of_acceptedRun {blocks : List (Block D)} {node : NodeState D}
    (run : AcceptedRun hashes rules blocks node) (fits : blocks.length < u64Bound) :
    ∃ context, Reached hashes rules context ∧ context.node = node ∧
      context.finalized.height = blocks.length - consensusFinalityDepth := by
  induction run with
  | genesis => exact ⟨genesis hashes, .refl, rfl, rfl⟩
  | @block blocks _ next block counts run accepted ih =>
    rw [length_append, length_singleton] at fits
    obtain ⟨context, reached, rfl, low⟩ := ih (by omega)
    obtain ⟨chain, keeps, -⟩ := (Keeps.genesis hashes rules).onward reached
    obtain ⟨layout, effect, done⟩ := run.sound.1.acceptBlock accepted
    have small : block.header.height < u64Bound := by
      rwa [done.checks.height, run.sound.2]
    obtain ⟨undo, built⟩ := @buildUndoLog_isOk _ hashes context.node.chain _ _
      done.applied.records done.applied.accepted
    have staging := @stageBlock_of_accepted _ _ _ _ (context.node, context.store) _ _ _ _
      accepted built
    obtain ⟨final, committed, node, moved, -⟩ :=
      keeps.commitStaged (keeps.stores.stageBlock small staging)
        (( take_prefix _ _).trans (prefix_append _ _))
    refine ⟨final, reached.tail (.commit small (bind_eq_ok.mpr ⟨_, staging, committed⟩)), node, ?_⟩
    have length := keeps.height.symm.trans run.sound.2
    rw [moved, low, length_append, length_append, length, length_singleton]
    exact max_eq_right (Nat.sub_le_sub_right (Nat.le_succ _) _)

end Runs

/-- The small deployment commits its first block. -/
theorem reached_firstBlock : ∃ context, Reached sampleHashes sampleRules context ∧
    context.node.tip = firstBlock.header ∧ context.finalized.height = 0 := by
  obtain ⟨node, run⟩ := firstBlock_run
  obtain ⟨context, reached, rfl, low⟩ := reached_of_acceptedRun run (by decide)
  exact ⟨context, reached, run.tip, low⟩

theorem headers_final_firstBlock : ∃ context : MdbxChainContext SymbolicDigest,
    context.node.tip = firstBlock.header ∧
      context.store.headers 0 = some (genesisHeader symbolicHasher) := by
  obtain ⟨context, reached, tip, -⟩ := reached_firstBlock
  obtain ⟨-, headers⟩ := Reached.headers_final .refl reached
  obtain ⟨header, first, later⟩ := headers 0 le_rfl
  obtain rfl := Option.some.inj first
  exact ⟨context, tip, later⟩

end MdbxChainContext

end Jetsam
