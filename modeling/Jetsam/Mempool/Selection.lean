import Jetsam.Mempool.Indexes

/-!
# Block selection

The fee order lists the stored groups by descending fee rate and ascending identifier. Selection
takes every group that fits in the pages left.
-/

namespace Jetsam

open Control List

/-- Higher fee rates first, then the identifiers in byte order. -/
def StoredEntry.Precedes (left right : StoredEntry) : Prop :=
  right.2.feeRate < left.2.feeRate ∨
    left.2.feeRate = right.2.feeRate ∧
      (digestBytes left.1).map BitVec.toNat ≤ (digestBytes right.1).map BitVec.toNat

instance : DecidableRel StoredEntry.Precedes := fun _ _ => by
  unfold StoredEntry.Precedes
  infer_instance

/-- Take each group in turn that fits in the pages left. -/
def greedyPacking : Nat → List MempoolEntry → List MempoolEntry
  | _, [] => []
  | budget, entry :: rest =>
    if entry.pages.length ≤ budget then
      entry :: greedyPacking (budget - entry.pages.length) rest
    else greedyPacking budget rest

def Mempool.byPriority (pool : Mempool) : List MempoolEntry :=
  (pool.entries.entries.insertionSort StoredEntry.Precedes).map Sigma.snd

section Order

variable {left right : StoredEntry}

theorem StoredEntry.precedes_total (left right : StoredEntry) :
    left.Precedes right ∨ right.Precedes left := by
  rcases lt_trichotomy left.2.feeRate right.2.feeRate with less | same | more
  · exact .inr (.inl less)
  · rcases le_total ((digestBytes left.1).map BitVec.toNat)
      ((digestBytes right.1).map BitVec.toNat) with before | behind
    · exact .inl (.inr ⟨same, before⟩)
    · exact .inr (.inr ⟨same.symm, behind⟩)
  · exact .inl (.inl more)

instance : Std.Total StoredEntry.Precedes := ⟨StoredEntry.precedes_total⟩

instance : IsTrans StoredEntry StoredEntry.Precedes where
  trans := by
    rintro first second third (higher | ⟨same, before⟩) (next | ⟨alike, behind⟩)
    · exact .inl (next.trans higher)
    · exact .inl (alike ▸ higher)
    · exact .inl (same ▸ next)
    · exact .inr ⟨same.trans alike, before.trans behind⟩

theorem StoredEntry.Precedes.rank_le (precedes : left.Precedes right)
    (rate : left.2.feeRate ≤ u64Max) :
    (FeeKey.new left.2.feeRate left.1).rank ≤ (FeeKey.new right.2.feeRate right.1).rank := by
  rw [FeeKey.rank, FeeKey.rank, FeeKey.new, FeeKey.new, Prod.Lex.toLex_le_toLex]
  rcases precedes with higher | ⟨same, before⟩
  · left
    dsimp only
    omega
  · exact .inr ⟨congrArg (u64Max - ·) same, before⟩

end Order

namespace Mempool

variable {hasher : TxHasher} {pool : Mempool}

theorem feeRate_le (consistent : pool.Consistent hasher) :
    ∀ stored ∈ pool.entries.entries, stored.2.feeRate ≤ u64Max := by
  intro stored mem
  rw [consistent.groups.rated stored mem, MempoolEntry.computeFeeRate, u64Max]
  exact (Nat.div_le_self _ _).trans (by omega)

theorem Consistent.feeIndex_eq (consistent : pool.Consistent hasher) :
    pool.feeIndex = storedKeys (pool.entries.entries.insertionSort StoredEntry.Precedes) := by
  have perm : (pool.entries.entries.insertionSort StoredEntry.Precedes).Perm
      pool.entries.entries := perm_insertionSort _ _
  have keys : pool.feeIndex.Perm
      (storedKeys (pool.entries.entries.insertionSort StoredEntry.Precedes)) :=
    consistent.fees.keys.trans (perm.map _).symm
  have named : ∀ keyed ∈ pool.feeIndex, keyed.2 = keyed.1.hash := by
    intro keyed mem
    obtain ⟨stored, -, rfl⟩ := mem_map.mp (consistent.fees.keys.mem_iff.mp mem)
    rfl
  have sorted : (storedKeys (pool.entries.entries.insertionSort StoredEntry.Precedes)).Pairwise
      fun left right => left.1.rank ≤ right.1.rank := by
    apply pairwise_map.mpr
    apply (pairwise_insertionSort StoredEntry.Precedes pool.entries.entries).imp_of_mem
    intro left right mem _ precedes
    exact precedes.rank_le (feeRate_le consistent left (perm.mem_iff.mp mem))
  refine keys.eq_of_pairwise ?_ consistent.fees.sorted sorted
  intro left right inLeft inRight before behind
  have sameKey : left.1 = right.1 := FeeKey.rank_injective (le_antisymm before behind)
  refine Prod.ext sameKey ?_
  rw [named left inLeft, named right (keys.mem_iff.mpr inRight), sameKey]

theorem greedyPacking_zero {entries : List MempoolEntry}
    (paged : ∀ entry ∈ entries, 0 < entry.pages.length) : greedyPacking 0 entries = [] := by
  induction entries with
  | nil => rfl
  | cons entry entries ih =>
    obtain ⟨here, later⟩ := forall_mem_cons.mp paged
    rw [greedyPacking, if_neg (by omega), ih later]

theorem packPages_eq (keep : MempoolEntry → Bool) {stored : List StoredEntry}
    (found : ∀ entry ∈ stored, pool.entries.lookup entry.1 = some entry.2)
    (paged : ∀ entry ∈ stored, 0 < entry.2.pages.length) (budget : Nat) :
    pool.packPages keep budget (stored.map Sigma.fst) =
      greedyPacking budget ((stored.map Sigma.snd).filter keep) := by
  induction stored generalizing budget with
  | nil => rfl
  | cons first stored ih =>
    obtain ⟨foundHere, foundLater⟩ := forall_mem_cons.mp found
    obtain ⟨pagedHere, pagedLater⟩ := forall_mem_cons.mp paged
    have rest := ih foundLater pagedLater
    rw [map_cons, map_cons, packPages, foundHere]
    dsimp only
    cases kept : keep first.2 with
    | false =>
      rw [filter_cons_of_neg (by simp [kept]), Bool.not_false, if_pos rfl, rest]
    | true =>
      rw [filter_cons_of_pos kept, greedyPacking, if_neg (by simp)]
      rcases Nat.lt_or_ge budget first.2.pages.length with large | fits
      · rw [if_pos large, if_neg (by omega), rest]
      · rw [if_neg (by omega), if_pos fits, rest]
        split
        · rename_i full
          rw [full, greedyPacking_zero]
          intro entry mem
          obtain ⟨holder, inside, rfl⟩ := mem_map.mp (mem_of_mem_filter mem)
          exact pagedLater holder inside
        · rfl

theorem Consistent.selectForBlockMatching (consistent : pool.Consistent hasher) (maxPages : Nat)
    (keep : MempoolEntry → Bool) :
    pool.selectForBlockMatching maxPages keep =
      greedyPacking (min maxPages blockMaxUserPages) (pool.byPriority.filter keep) := by
  have perm : (pool.entries.entries.insertionSort StoredEntry.Precedes).Perm
      pool.entries.entries := perm_insertionSort _ _
  rw [Mempool.selectForBlockMatching, consistent.feeIndex_eq, storedKeys, map_map]
  apply packPages_eq
  · intro stored mem
    exact AList.mem_lookup_iff.mpr (perm.mem_iff.mp mem)
  · intro stored mem
    have valid := consistent.groups.valid stored (perm.mem_iff.mp mem)
    cases pages : stored.2.pages with
    | nil =>
      rw [pages] at valid
      cases valid
    | cons page rest => exact Nat.succ_pos _

theorem capacity_remove (pool : Mempool) (hash : Digest) :
    (pool.remove hash).2.capacity = pool.capacity := by
  rw [remove]
  split
  · rfl
  · simp only [foldl_unindexPage]

theorem capacity_removeAll (pool : Mempool) (hashes : List Digest) :
    (pool.removeAll hashes).capacity = pool.capacity := by
  induction hashes generalizing pool with
  | nil => rfl
  | cons hash hashes ih => exact (ih _).trans (capacity_remove pool hash)

theorem capacity_run {op : MempoolOp} (offered : op.Offered hasher) :
    (op.run hasher pool).capacity = pool.capacity := by
  cases op with
  | admitPages pages height =>
    rcases admit_cases height pool offered with ⟨_, returned⟩ | same
    · obtain ⟨-, spend, -, -, -, -, entered⟩ := admit_returns.mp returned
      rw [MempoolOp.run, ← entered]
      rfl
    · rw [MempoolOp.run, same]
  | remove hash => exact capacity_remove pool hash
  | evictWrongAnchor anchor => exact capacity_removeAll pool _
  | onBlockConfirmed confirmed =>
    rw [MempoolOp.run, onBlockConfirmed_snd, capacity_removeAll]

theorem capacity_after (capacity : Nat) {history : List MempoolOp}
    (offered : ∀ op ∈ history, op.Offered hasher) :
    (after hasher capacity history).capacity = capacity := by
  induction history using List.reverseRecOn with
  | nil => rfl
  | append_singleton history op ih =>
    rw [forall_mem_append, forall_mem_singleton] at offered
    rw [after_concat, capacity_run offered.2, ih offered.1]

/-- After every history of operations the indexes are those of the stored groups, which touch no
slot twice; a refused admission changes nothing, and block selection packs greedily in fee order. -/
theorem indexes_after_history (hasher : TxHasher) (capacity : Nat) (history : List MempoolOp)
    (offered : ∀ op ∈ history, op.Offered hasher)
    (fits : ∀ past, past <+: history → ∀ owner,
      pendingTo (after hasher capacity past).entries.entries owner < u64Bound) :
    (after hasher capacity history).Consistent hasher ∧
      (after hasher capacity history).capacity = capacity ∧
      (after hasher capacity history).IncomingExact ∧
      (∀ pages height error left,
        admitPages hasher pages height (after hasher capacity history) =
          (.error (.error error), left) →
          left = after hasher capacity history) ∧
      ∀ maxPages keep, (after hasher capacity history).selectForBlockMatching maxPages keep =
        greedyPacking (min maxPages blockMaxUserPages)
          ((after hasher capacity history).byPriority.filter keep) :=
  ⟨consistent_after capacity offered, capacity_after capacity offered,
    incomingExact_after capacity offered fits,
    fun pages height error left refused => admitPages_atomic pages height _ error left refused,
    fun maxPages keep => (consistent_after capacity offered).selectForBlockMatching maxPages keep⟩

end Mempool

/-- A spend of one output that pays half of it on and leaves the other half as fee. -/
def smallSpend : TxBody where
  epochAnchor := 1
  fee := 50000
  inputOwner := 7
  inputs := ![⟨1, 100000, 1⟩, .dummy, .dummy, .dummy, .dummy, .dummy, .dummy, .dummy]
  outputs := ![⟨2, 50000, 9⟩, .dummy]
  validityBitmap := 0x101 ||| pagedSpendStartBit ||| pagedSpendEndBit
  isCoinbase := false

/-- Hashing that tells bodies apart by their fee. -/
def feeHasher : TxHasher := ⟨fun body => body.fee.setWidth 256, id⟩

theorem smallSpend_valid : (validatePagedSpend feeHasher [smallSpend]).isOk = true := by
  decide +kernel

/-- The only group of a pool that admitted the spend. -/
def smallEntry : MempoolEntry :=
  ⟨[smallSpend], ⟨hashPagedSpendUnchecked feeHasher [smallSpend], 7, 1, 50000, 1, 1, 100000, 50000⟩,
    3, 25000, 0, []⟩

theorem entries_smallPool :
    (Mempool.after feeHasher 1 [.admitPages [smallSpend] 3]).entries.entries =
      [⟨smallEntry.spend.logicalTxid, smallEntry⟩] := by
  decide +kernel

theorem incomingTo_smallEntry (owner : Address) : smallEntry.incomingTo owner < u64Bound := by
  have outputs : liveOutputsOf smallEntry.pages = [⟨2, 50000, 9⟩] := by decide
  rw [MempoolEntry.incomingTo, paidTo, outputs, u64Bound]
  split
  · norm_num
  · rw [filter_singleton]
    cases (9 : Address) == owner with
    | true => decide
    | false => exact Nat.two_pow_pos 64

theorem indexes_after_smallSpend :
    (Mempool.after feeHasher 1 [.admitPages [smallSpend] 3]).len = 1 ∧
      (Mempool.after feeHasher 1 [.admitPages [smallSpend] 3]).Consistent feeHasher := by
  refine ⟨congrArg List.length entries_smallPool,
    (Mempool.indexes_after_history feeHasher 1 [.admitPages [smallSpend] 3] ?_ ?_).1⟩
  · exact List.forall_mem_singleton.mpr smallSpend_valid
  · rintro (_ | ⟨first, rest⟩) past owner
    · exact Nat.two_pow_pos 64
    · obtain ⟨rfl, ended⟩ := List.cons_prefix_cons.mp past
      rw [List.prefix_nil.mp ended, entries_smallPool]
      exact incomingTo_smallEntry owner

end Jetsam
