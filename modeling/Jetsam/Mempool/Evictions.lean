import Jetsam.Mempool.ConflictSets

/-!
# What the evictions leave

Every call but a submission only takes entries out of the pool, and an entry that survives one met
none of its conditions.
-/

namespace Jetsam

open Control List

namespace Mempool

variable {pool : Mempool}

theorem entries_remove (pool : Mempool) (hash : Digest) :
    (pool.remove hash).2.entries = pool.entries.erase hash := by
  rw [remove]
  cases found : pool.entries.lookup hash with
  | none =>
    have absent : hash ∉ pool.entries := AList.lookup_eq_none.mp found
    apply AList.ext
    exact (kerase_of_notMem_keys absent).symm
  | some entry =>
    simp only [foldl_unindexPage]

theorem mem_entries_removeAll {hashes : List Digest} {stored : StoredEntry} :
    stored ∈ (pool.removeAll hashes).entries.entries ↔
      stored ∈ pool.entries.entries ∧ stored.1 ∉ hashes := by
  induction hashes generalizing pool with
  | nil => simp [removeAll]
  | cons hash hashes ih =>
    have first : stored ∈ (pool.remove hash).2.entries.entries ↔
        stored ∈ pool.entries.entries ∧ stored.1 ≠ hash := by
      rw [entries_remove, ← AList.mem_lookup_iff, ← AList.mem_lookup_iff, Option.mem_def,
        Table.lookup_erase, Option.ite_none_left_eq_some, and_comm]
      rfl
    rw [removeAll, foldl_cons, ← removeAll, ih, first, mem_cons, not_or, and_assoc]

end Mempool

namespace MempoolState

variable {rules : AdmissionRules} {config : MempoolConfig} {state : MempoolState}
  {stored : StoredEntry}

theorem pool_resetFloorIfEmpty (state : MempoolState) :
    state.resetFloorIfEmpty.pool = state.pool := by
  rw [resetFloorIfEmpty]
  split <;> rfl

theorem pool_rebuildSlotSets (state : MempoolState) :
    state.rebuildSlotSets.resetFloorIfEmpty.pool = state.pool := by
  rw [pool_resetFloorIfEmpty, rebuildSlotSets_eq]

/-- What an eviction leaves does not meet its condition. -/
theorem mem_evictWhere {condition : MempoolEntry → Bool} :
    stored ∈ (state.evictWhere condition).2.pool.entries.entries ↔
      stored ∈ state.pool.entries.entries ∧ condition stored.2 = false := by
  have left : stored ∈ (state.evictWhere condition).2.pool.entries.entries ↔
      stored ∈ state.pool.entries.entries ∧ stored.1 ∉ state.pool.hashesWhere condition :=
    Mempool.mem_entries_removeAll
  rw [left, Mempool.hashesWhere]
  apply and_congr_right
  intro mem
  rw [← Bool.not_eq_true, not_iff_not, mem_map]
  constructor
  · rintro ⟨other, chosen, same⟩
    obtain ⟨inside, holds⟩ := mem_filter.mp chosen
    have equal : other = stored := by
      apply inj_on_of_nodup_map state.pool.entries.nodupKeys inside mem same
    exact equal ▸ holds
  · intro holds
    exact ⟨stored, mem_filter.mpr ⟨mem, holds⟩, rfl⟩

theorem mem_evictClientObjectViolations {nextHeight : Nat} :
    stored ∈ (state.evictClientObjectViolations rules nextHeight).2.pool.entries.entries ↔
      stored ∈ state.pool.entries.entries ∧
        (checkPlainTransactionWith stored.2.pages nextHeight state.clientRules rules.batch).isOk =
          true := by
  rw [evictClientObjectViolations]
  split
  · rename_i inactive
    rw [checkPlainTransactionWith, if_pos inactive]
    simp [Except.isOk, Except.toBool]
  · rw [mem_evictWhere, Bool.not_eq_false']

theorem mem_of_evictUnminableAt {nextHeight : Nat}
    (mem : stored ∈ (state.evictUnminableAt rules nextHeight).pool.entries.entries) :
    stored ∈ state.pool.entries.entries := by
  rw [evictUnminableAt] at mem
  rcases outcome : state.evictClientObjectViolations rules nextHeight with ⟨evicted, left⟩
  have kept : stored ∈ left.pool.entries.entries := by
    rw [outcome] at mem
    dsimp only at mem
    split at mem
    · rwa [pool_rebuildSlotSets] at mem
    · exact mem
  have same : left = (state.evictClientObjectViolations rules nextHeight).2 := by rw [outcome]
  rw [same] at kept
  exact (mem_evictClientObjectViolations.mp kept).1

/-- What is left after a block was in the pool, was not confirmed, and passes every eviction. -/
theorem mem_of_onNewBlock {confirmedHashes : List Digest} {newView : ChainView}
    (mem : stored ∈ (state.onNewBlock rules confirmedHashes newView).pool.entries.entries) :
    stored ∈ state.pool.entries.entries ∧ stored.1 ∉ confirmedHashes ∧
      staleAnchor rules newView stored.2 = false ∧ outputOccupied newView stored.2 = false ∧
      inputConsumed newView stored.2 = false ∧
      (checkPlainTransactionWith stored.2.pages (satAdd newView.tipHeight 1) state.clientRules
        rules.batch).isOk = true := by
  rw [onNewBlock, pool_rebuildSlotSets] at mem
  obtain ⟨mem, plain⟩ := mem_evictClientObjectViolations.mp mem
  obtain ⟨mem, present⟩ := mem_evictWhere.mp mem
  obtain ⟨mem, vacant⟩ := mem_evictWhere.mp mem
  obtain ⟨mem, fresh⟩ := mem_evictWhere.mp mem
  have left : stored ∈ (state.pool.removeAll confirmedHashes).entries.entries := by
    rw [← Mempool.onBlockConfirmed_snd]
    exact mem
  obtain ⟨mem, pending⟩ := Mempool.mem_entries_removeAll.mp left
  exact ⟨mem, pending, fresh, vacant, present, plain⟩

theorem mem_of_readmitAfterReorg {txHashes : List Digest}
    (mem : stored ∈ (state.readmitAfterReorg txHashes).pool.entries.entries) :
    stored ∈ state.pool.entries.entries := by
  rw [readmitAfterReorg] at mem
  split at mem
  · exact mem
  · rw [pool_resetFloorIfEmpty] at mem
    exact (Mempool.mem_entries_removeAll.mp mem).1

end MempoolState

end Jetsam
