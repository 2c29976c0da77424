import Jetsam.Mempool.Pool
import Jetsam.Control.Tables

/-!
# The indexes of the mempool agree

One list of stored groups decides all five indexes. Entering a group and taking it out again are
inverse on each of them, so the agreement holds after every history of operations.
-/

namespace Jetsam

open Control List Function

abbrev StoredEntry : Type := Sigma fun _ : Digest => MempoolEntry

/-- What a group sends to an owner that does not fund it. -/
def MempoolEntry.incomingTo (entry : MempoolEntry) (owner : Address) : Nat :=
  if entry.spend.inputOwner = owner then 0 else paidTo owner entry.pages

def pendingTo (stored : List StoredEntry) (owner : Address) : Nat :=
  (stored.map fun entry => entry.2.incomingTo owner).sum

def storedSlots (stored : List StoredEntry) : List (BitVec 32) :=
  stored.flatMap fun entry => entry.2.pages.flatMap TxBody.touched

def storedKeys (stored : List StoredEntry) : List (FeeKey × Digest) :=
  stored.map fun entry => (FeeKey.new entry.2.feeRate entry.1, entry.1)

/-- A table maps exactly the slots of some groups to their identifiers. -/
def Indexed (side : List TxBody → List (BitVec 32)) (stored : List StoredEntry)
    (table : BitVec 32 → Option Digest) : Prop :=
  ∀ slot hash, table slot = some hash ↔
    ∃ entry, (⟨hash, entry⟩ : StoredEntry) ∈ stored ∧ slot ∈ side entry.pages

/-- The fee order lists the key of every group once. -/
structure FeeOrdered (stored : List StoredEntry) (index : List (FeeKey × Digest)) : Prop where
  keys : index.Perm (storedKeys stored)
  sorted : index.Pairwise fun left right => left.1.rank ≤ right.1.rank

/-- The groups a pool holds, all admissible and apart from each other. -/
structure StoredGroups (hasher : TxHasher) (stored : List StoredEntry) : Prop where
  valid : ∀ entry ∈ stored, validatePagedSpend hasher entry.2.pages = .ok entry.2.spend
  named : ∀ entry ∈ stored, entry.2.spend.logicalTxid = entry.1
  rated : ∀ entry ∈ stored, entry.2.feeRate = MempoolEntry.computeFeeRate entry.2.spend
  hashes : (stored.map Sigma.fst).Nodup
  apart : (storedSlots stored).Nodup

section Tables

variable {κ α : Type} [DecidableEq κ]

theorem setKeys_apply (value : α) (table : κ → α) (keys : List κ) (key : κ) :
    setKeys value table keys key = if key ∈ keys then value else table key := by
  induction keys generalizing table with
  | nil => rfl
  | cons first keys ih =>
    rw [setKeys, foldl_cons]
    refine (ih _).trans ?_
    by_cases later : key ∈ keys
    · rw [if_pos later, if_pos (mem_cons_of_mem first later)]
    · rw [if_neg later]
      rcases eq_or_ne key first with rfl | different
      · rw [update_self, if_pos mem_cons_self]
      · rw [update_of_ne different, if_neg]
        simp [different, later]

theorem setKeys_append (value : α) (table : κ → α) (left right : List κ) :
    setKeys value (setKeys value table left) right = setKeys value table (left ++ right) := by
  rw [setKeys, setKeys, setKeys, foldl_append]

end Tables

variable {other : List StoredEntry}

section Slots

variable {side : List TxBody → List (BitVec 32)} {stored : List StoredEntry}
  {table : BitVec 32 → Option Digest} {hash : Digest} {entry : MempoolEntry}

theorem Indexed.perm (indexed : Indexed side stored table) (same : stored.Perm other) :
    Indexed side other table := by
  intro slot hash
  rw [indexed slot hash]
  simp only [same.mem_iff]

theorem Indexed.insert (indexed : Indexed side stored table)
    (free : ∀ slot ∈ side entry.pages, table slot = none) :
    Indexed side (⟨hash, entry⟩ :: stored) (setKeys (some hash) table (side entry.pages)) := by
  intro slot other
  rw [setKeys_apply]
  split
  · rename_i own
    constructor
    · intro same
      obtain rfl := Option.some.inj same
      exact ⟨entry, mem_cons_self, own⟩
    · rintro ⟨holder, mem, touches⟩
      rcases mem_cons.mp mem with same | old
      · rw [(Sigma.mk.inj same).1]
      · have taken := (indexed slot other).mpr ⟨holder, old, touches⟩
        rw [free slot own] at taken
        exact absurd taken (Option.some_ne_none other).symm
  · rename_i foreign
    rw [indexed slot other]
    constructor
    · rintro ⟨holder, old, touches⟩
      exact ⟨holder, mem_cons_of_mem _ old, touches⟩
    · rintro ⟨holder, mem, touches⟩
      rcases mem_cons.mp mem with same | old
      · cases same
        exact absurd touches foreign
      · exact ⟨holder, old, touches⟩

theorem Indexed.remove (indexed : Indexed side (⟨hash, entry⟩ :: stored) table)
    (apart : ∀ other ∈ stored, ∀ slot ∈ side other.2.pages, slot ∉ side entry.pages) :
    Indexed side stored (setKeys none table (side entry.pages)) := by
  intro slot other
  rw [setKeys_apply]
  split
  · rename_i own
    refine iff_of_false (Option.some_ne_none other).symm ?_
    rintro ⟨holder, old, touches⟩
    exact apart ⟨other, holder⟩ old slot touches own
  · rename_i foreign
    rw [indexed slot other]
    constructor
    · rintro ⟨holder, mem, touches⟩
      rcases mem_cons.mp mem with same | old
      · cases same
        exact absurd touches foreign
      · exact ⟨holder, old, touches⟩
    · rintro ⟨holder, old, touches⟩
      exact ⟨holder, mem_cons_of_mem _ old, touches⟩

end Slots

section Incoming

variable {funder owner : Address}

/-- What a list of outputs sends to an owner other than the funder. -/
def receivedFrom (funder owner : Address) (outputs : List TxOutput) : Nat :=
  if funder = owner then 0
  else ((outputs.filter (·.owner == owner)).map fun output => output.amount.toNat).sum

theorem receivedFrom_cons (output : TxOutput) (outputs : List TxOutput) :
    receivedFrom funder owner (output :: outputs) =
      receivedFrom funder owner [output] + receivedFrom funder owner outputs := by
  rw [receivedFrom, receivedFrom, receivedFrom]
  split
  · rfl
  · by_cases mine : output.owner == owner <;> simp [mine]

theorem receivedFrom_singleton (output : TxOutput) :
    receivedFrom funder owner [output] =
      if output.owner ≠ funder ∧ owner = output.owner then output.amount.toNat else 0 := by
  rw [receivedFrom]
  split
  · rename_i own
    rw [if_neg fun foreign => foreign.1 (foreign.2.symm.trans own.symm)]
  · by_cases mine : owner = output.owner
    · simp_all [eq_comm]
    · simp [mine, Ne.symm mine]

theorem addIncoming_getD {table : Address → Option Nat} {output : TxOutput}
    (fits : (table owner).getD 0 + receivedFrom funder owner [output] < u64Bound) :
    (addIncoming funder table output owner).getD 0 =
      (table owner).getD 0 + receivedFrom funder owner [output] := by
  rw [receivedFrom_singleton] at fits ⊢
  simp only [addIncoming, ite_apply, update_apply]
  grind [satAdd, u64Max, u64Bound]

theorem subIncoming_getD (table : Address → Option Nat) (output : TxOutput) :
    (subIncoming funder table output owner).getD 0 =
      (table owner).getD 0 - receivedFrom funder owner [output] := by
  rw [receivedFrom_singleton]
  cases held : table output.owner with
  | none =>
    simp only [subIncoming, held, ite_self]
    grind
  | some value =>
    simp only [subIncoming, held, ite_apply, update_apply]
    grind

theorem foldl_addIncoming_getD {table : Address → Option Nat} {outputs : List TxOutput}
    (fits : (table owner).getD 0 + receivedFrom funder owner outputs < u64Bound) :
    (outputs.foldl (addIncoming funder) table owner).getD 0 =
      (table owner).getD 0 + receivedFrom funder owner outputs := by
  induction outputs generalizing table with
  | nil => simp [receivedFrom]
  | cons output outputs ih =>
    rw [receivedFrom_cons] at fits ⊢
    have first := @addIncoming_getD funder owner table output (by omega)
    rw [foldl_cons, ih (by omega), first, add_assoc]

theorem foldl_subIncoming_getD (table : Address → Option Nat) (outputs : List TxOutput) :
    (outputs.foldl (subIncoming funder) table owner).getD 0 =
      (table owner).getD 0 - receivedFrom funder owner outputs := by
  induction outputs generalizing table with
  | nil => simp [receivedFrom]
  | cons output outputs ih =>
    rw [receivedFrom_cons, foldl_cons, ih, subIncoming_getD, Nat.sub_sub]

theorem receivedFrom_liveOutputsOf (entry : MempoolEntry) (owner : Address) :
    receivedFrom entry.spend.inputOwner owner (liveOutputsOf entry.pages) =
      entry.incomingTo owner := rfl

end Incoming

namespace Mempool

section Pages

variable (hash : Digest) (funder : Address)

theorem foldl_indexPage (pool : Mempool) (pages : List TxBody) :
    pages.foldl (indexPage hash funder) pool = { pool with
      spentInputs := setKeys (some hash) pool.spentInputs (groupInputSlots pages)
      mintedOutputs := setKeys (some hash) pool.mintedOutputs (groupOutputSlots pages)
      incomingValueByOwner :=
        (liveOutputsOf pages).foldl (addIncoming funder) pool.incomingValueByOwner } := by
  induction pages generalizing pool with
  | nil => rfl
  | cons page pages ih =>
    rw [foldl_cons, ih, indexPage]
    simp only [setKeys_append, groupInputSlots, groupOutputSlots, liveOutputsOf,
      flatMap_cons, foldl_append]

theorem foldl_unindexPage (pool : Mempool) (pages : List TxBody) :
    pages.foldl (unindexPage funder) pool = { pool with
      spentInputs := setKeys none pool.spentInputs (groupInputSlots pages)
      mintedOutputs := setKeys none pool.mintedOutputs (groupOutputSlots pages)
      incomingValueByOwner :=
        (liveOutputsOf pages).foldl (subIncoming funder) pool.incomingValueByOwner } := by
  induction pages generalizing pool with
  | nil => rfl
  | cons page pages ih =>
    rw [foldl_cons, ih, unindexPage]
    simp only [setKeys_append, groupInputSlots, groupOutputSlots, liveOutputsOf,
      flatMap_cons, foldl_append]

end Pages

end Mempool

section Fees

variable {stored : List StoredEntry} {index : List (FeeKey × Digest)} {hash : Digest}
  {entry : MempoolEntry}

theorem FeeKey.rank_injective : Injective FeeKey.rank := by
  rintro ⟨leftRate, leftHash⟩ ⟨rightRate, rightHash⟩ same
  obtain ⟨rates, bytes⟩ := Prod.mk.inj (toLex_inj.mp same)
  have maps := map_injective_iff.mpr (fun _ _ => BitVec.eq_of_toNat_eq) bytes
  rw [FeeKey.mk.injEq]
  exact ⟨rates, digestBytes_injective maps⟩

theorem notMem_storedKeys (fresh : hash ∉ stored.map Sigma.fst) (rate : Nat) :
    ∀ keyed ∈ storedKeys stored, keyed.1 ≠ FeeKey.new rate hash := by
  intro keyed mem same
  obtain ⟨holder, inside, rfl⟩ := mem_map.mp mem
  exact fresh (mem_map.mpr ⟨holder, inside, congrArg FeeKey.hash same⟩)

theorem FeeOrdered.insert (ordered : FeeOrdered stored index)
    (fresh : hash ∉ stored.map Sigma.fst) :
    FeeOrdered (⟨hash, entry⟩ :: stored)
      (Mempool.insertFeeKey (.new entry.feeRate hash) hash index) := by
  have untouched : index.filter (·.1 ≠ FeeKey.new entry.feeRate hash) = index := by
    apply filter_eq_self.mpr
    intro keyed mem
    exact decide_eq_true (notMem_storedKeys fresh _ keyed (ordered.keys.mem_iff.mp mem))
  rw [Mempool.insertFeeKey, untouched]
  constructor
  · exact (perm_orderedInsert _ _ _).trans (ordered.keys.cons _)
  · have total : Std.Total fun left right : FeeKey × Digest => left.1.rank ≤ right.1.rank :=
      ⟨fun left right => le_total _ _⟩
    exact List.Pairwise.orderedInsert _ _ ordered.sorted

theorem FeeOrdered.remove (ordered : FeeOrdered (⟨hash, entry⟩ :: stored) index)
    (fresh : hash ∉ stored.map Sigma.fst) :
    FeeOrdered stored (index.filter (·.1 ≠ FeeKey.new entry.feeRate hash)) := by
  constructor
  · have others : (storedKeys stored).filter (·.1 ≠ FeeKey.new entry.feeRate hash) =
        storedKeys stored := by
      apply filter_eq_self.mpr
      intro keyed mem
      exact decide_eq_true (notMem_storedKeys fresh _ keyed mem)
    have kept := ordered.keys.filter fun keyed => keyed.1 ≠ FeeKey.new entry.feeRate hash
    rw [storedKeys, map_cons, filter_cons_of_neg (by simp)] at kept
    exact kept.trans (List.Perm.of_eq others)
  · exact ordered.sorted.filter _

end Fees

variable {pages : List TxBody}

section Groups

variable {hasher : TxHasher} {stored : List StoredEntry} {hash : Digest} {entry : MempoolEntry}

theorem StoredGroups.perm (groups : StoredGroups hasher stored) (same : stored.Perm other) :
    StoredGroups hasher other where
  valid := fun holder mem => groups.valid holder (same.mem_iff.mpr mem)
  named := fun holder mem => groups.named holder (same.mem_iff.mpr mem)
  rated := fun holder mem => groups.rated holder (same.mem_iff.mpr mem)
  hashes := (same.map Sigma.fst).nodup_iff.mp groups.hashes
  apart := (same.flatMap_right _).nodup_iff.mp groups.apart

theorem StoredGroups.tail (groups : StoredGroups hasher (⟨hash, entry⟩ :: stored)) :
    StoredGroups hasher stored where
  valid := fun holder mem => groups.valid holder (mem_cons_of_mem _ mem)
  named := fun holder mem => groups.named holder (mem_cons_of_mem _ mem)
  rated := fun holder mem => groups.rated holder (mem_cons_of_mem _ mem)
  hashes := (nodup_cons.mp groups.hashes).2
  apart := (nodup_append.mp groups.apart).2.1

theorem nodup_touched_of_valid {spend : PagedSpendFacts}
    (valid : validatePagedSpend hasher pages = .ok spend) :
    (pages.flatMap TxBody.touched).Nodup := by
  cases pages with
  | nil => exact nodup_nil
  | cons first rest =>
    obtain ⟨accepted, -⟩ := validatePagedSpendWith_eq_ok.mp valid
    exact nodup_touched_iff.mpr (accepted.distinct rfl)

end Groups

/-- The stored groups, and every index decided by them. -/
structure Mempool.Consistent (hasher : TxHasher) (pool : Mempool) : Prop where
  groups : StoredGroups hasher pool.entries.entries
  fees : FeeOrdered pool.entries.entries pool.feeIndex
  inputs : Indexed groupInputSlots pool.entries.entries pool.spentInputs
  outputs : Indexed groupOutputSlots pool.entries.entries pool.mintedOutputs
  capped : pool.len ≤ pool.capacity

/-- The incoming values are those of the stored groups. -/
def Mempool.IncomingExact (pool : Mempool) : Prop :=
  ∀ owner, pool.pendingIncomingForOwner owner = pendingTo pool.entries.entries owner

namespace Mempool

variable {hasher : TxHasher} {pool after : Mempool} {hash : Digest} {entry : MempoolEntry}

theorem new_consistent (capacity : Nat) : (new capacity).Consistent hasher where
  groups := ⟨by simp [new], by simp [new], by simp [new], by simp [new], by simp [new, storedSlots]⟩
  fees := ⟨.refl _, .nil⟩
  inputs := fun slot hash => by simp [new]
  outputs := fun slot hash => by simp [new]
  capped := Nat.zero_le _

def entered (pool : Mempool) (hash : Digest) (entry : MempoolEntry) : Mempool where
  entries := pool.entries.insert hash entry
  feeIndex := insertFeeKey (.new entry.feeRate hash) hash pool.feeIndex
  spentInputs := setKeys (some hash) pool.spentInputs (groupInputSlots entry.pages)
  mintedOutputs := setKeys (some hash) pool.mintedOutputs (groupOutputSlots entry.pages)
  incomingValueByOwner := (liveOutputsOf entry.pages).foldl (addIncoming entry.spend.inputOwner)
    pool.incomingValueByOwner
  capacity := pool.capacity

variable {pages : List TxBody}

theorem each_indexPage_returns {ε : Type} {funder : Address} {done : Unit} :
    (InPlace.each (fun page => .update fun pool => indexPage hash funder pool page) pages :
      InPlace Mempool ε Unit) pool = (.ok done, after) ↔
      pages.foldl (indexPage hash funder) pool = after := by
  induction pages generalizing pool with
  | nil => simp [InPlace.each]
  | cons page pages ih => simp [InPlace.each, ih]

theorem admit_returns {pages : List TxBody} {height : Nat} {done : Unit} :
    admitPages hasher pages height pool = (.ok done, after) ↔
      pool.len < pool.capacity ∧ ∃ spend, validatePagedSpend hasher pages = .ok spend ∧
        pool.contains spend.logicalTxid = false ∧ pool.inputConflict pages = none ∧
        pool.outputConflict pages = none ∧
        pool.entered spend.logicalTxid
          ⟨pages, spend, height, MempoolEntry.computeFeeRate spend, 0, []⟩ = after := by
  simp only [admitPages, MempoolEntry.new, InPlace.bind_returns, InPlace.get_returns,
    InPlace.lift_returns, InPlace.expect_returns, InPlace.update_returns, each_indexPage_returns,
    foldl_indexPage, bind_eq_ok, require_eq_ok, requireNone_eq_ok, pure_eq_ok, exists_const,
    exists_eq_left', and_assoc, exists_and_left, exists_exists_and_eq_and, entered]

theorem lookup_isSome_iff : pool.contains hash = true ↔ hash ∈ pool.entries.entries.map Sigma.fst :=
  AList.lookup_isSome

theorem notMem_of_contains (absent : pool.contains hash = false) :
    hash ∉ pool.entries.entries.map Sigma.fst := by
  rw [← lookup_isSome_iff, absent]
  exact Bool.false_ne_true

theorem entries_entered (absent : pool.contains hash = false) :
    (pool.entered hash entry).entries.entries = ⟨hash, entry⟩ :: pool.entries.entries :=
  AList.entries_insert_of_notMem (notMem_of_contains absent)

variable {slot : BitVec 32}

theorem mem_flatMap_touched :
    slot ∈ pages.flatMap TxBody.touched ↔
      slot ∈ groupInputSlots pages ∨ slot ∈ groupOutputSlots pages := by
  rw [← mem_append]
  exact (flatMap_append_perm pages TxBody.inputSlots TxBody.outputSlots).mem_iff.symm

theorem Consistent.free (consistent : pool.Consistent hasher) (spent : pool.spentInputs slot = none)
    (minted : pool.mintedOutputs slot = none) :
    slot ∉ storedSlots pool.entries.entries := by
  intro mem
  obtain ⟨⟨holder, held⟩, inside, touched⟩ := mem_flatMap.mp mem
  rcases mem_flatMap_touched.mp touched with input | output
  · have known := (consistent.inputs slot holder).mpr ⟨held, inside, input⟩
    exact Option.some_ne_none holder (known.symm.trans spent)
  · have known := (consistent.outputs slot holder).mpr ⟨held, inside, output⟩
    exact Option.some_ne_none holder (known.symm.trans minted)

theorem inputConflict_eq_none (none : pool.inputConflict pages = none) :
    ∀ slot ∈ groupInputSlots pages,
      pool.spentInputs slot = .none ∧ pool.mintedOutputs slot = .none := by
  intro slot mem
  exact Option.or_eq_none_iff.mp (findSome?_eq_none_iff.mp none slot mem)

theorem outputConflict_eq_none (none : pool.outputConflict pages = none) :
    ∀ slot ∈ groupOutputSlots pages,
      pool.mintedOutputs slot = .none ∧ pool.spentInputs slot = .none := by
  intro slot mem
  exact Option.or_eq_none_iff.mp (findSome?_eq_none_iff.mp none slot mem)

variable {height : Nat}

theorem Consistent.admitPages (consistent : pool.Consistent hasher)
    (admitted : Mempool.admitPages hasher pages height pool = (.ok (), after)) :
    after.Consistent hasher := by
  obtain ⟨room, spend, valid, absent, inputs, outputs, rfl⟩ := admit_returns.mp admitted
  have inputFree := inputConflict_eq_none inputs
  have outputFree := outputConflict_eq_none outputs
  have fresh := notMem_of_contains absent
  constructor
  · rw [entries_entered absent]
    refine ⟨?_, ?_, ?_, nodup_cons.mpr ⟨fresh, consistent.groups.hashes⟩, ?_⟩
    · exact forall_mem_cons.mpr ⟨valid, consistent.groups.valid⟩
    · exact forall_mem_cons.mpr ⟨rfl, consistent.groups.named⟩
    · exact forall_mem_cons.mpr ⟨rfl, consistent.groups.rated⟩
    · refine nodup_append'.mpr
        ⟨nodup_touched_of_valid valid, consistent.groups.apart, fun slot touched => ?_⟩
      rcases mem_flatMap_touched.mp touched with input | output
      · exact consistent.free (inputFree slot input).1 (inputFree slot input).2
      · exact consistent.free (outputFree slot output).2 (outputFree slot output).1
  · rw [entries_entered absent]
    exact consistent.fees.insert fresh
  · rw [entries_entered absent]
    exact consistent.inputs.insert fun slot input => (inputFree slot input).1
  · rw [entries_entered absent]
    exact consistent.outputs.insert fun slot output => (outputFree slot output).1
  · rw [len, entries_entered absent]
    exact room

theorem Consistent.remove (consistent : pool.Consistent hasher) (hash : Digest) :
    (pool.remove hash).2.Consistent hasher := by
  rw [Mempool.remove]
  cases found : pool.entries.lookup hash with
  | none => exact consistent
  | some entry =>
    have perm := perm_cons_erase found
    have groups := consistent.groups.perm perm
    obtain ⟨fresh, -⟩ := nodup_cons.mp groups.hashes
    have apart : ∀ other ∈ (pool.entries.erase hash).entries, ∀ slot,
        slot ∈ other.2.pages.flatMap TxBody.touched →
        slot ∉ entry.pages.flatMap TxBody.touched := by
      intro other mem slot theirs own
      exact (nodup_append'.mp groups.apart).2.2 own
        (mem_flatMap.mpr ⟨other, mem, theirs⟩)
    simp only [foldl_unindexPage]
    constructor
    · exact groups.tail
    · exact FeeOrdered.remove ⟨consistent.fees.keys.trans (perm.map _), consistent.fees.sorted⟩
        fresh
    · refine (consistent.inputs.perm perm).remove fun other mem slot theirs own => ?_
      exact apart other mem slot (mem_flatMap_touched.mpr (.inl theirs))
        (mem_flatMap_touched.mpr (.inl own))
    · refine (consistent.outputs.perm perm).remove fun other mem slot theirs own => ?_
      exact apart other mem slot (mem_flatMap_touched.mpr (.inr theirs))
        (mem_flatMap_touched.mpr (.inr own))
    · have shorter := perm.length_eq
      rw [length_cons] at shorter
      have capped := consistent.capped
      rw [len] at capped ⊢
      dsimp only
      omega

theorem pendingTo_perm {left right : List StoredEntry} (same : left.Perm right)
    (owner : Address) : pendingTo left owner = pendingTo right owner :=
  (same.map _).sum_eq

theorem pendingTo_cons (first : StoredEntry) (stored : List StoredEntry) (owner : Address) :
    pendingTo (first :: stored) owner = first.2.incomingTo owner + pendingTo stored owner := rfl

theorem IncomingExact.admitPages (exact : pool.IncomingExact)
    (admitted : Mempool.admitPages hasher pages height pool = (.ok (), after))
    (fits : ∀ owner, pendingTo after.entries.entries owner < u64Bound) :
    after.IncomingExact := by
  obtain ⟨-, spend, -, absent, -, -, rfl⟩ := admit_returns.mp admitted
  have fresh : spend.logicalTxid ∉ pool.entries.entries.map Sigma.fst := by
    rw [← lookup_isSome_iff, absent]
    exact Bool.false_ne_true
  intro owner
  have total := fits owner
  rw [entered, AList.entries_insert_of_notMem fresh] at total ⊢
  rw [pendingTo_cons, ← receivedFrom_liveOutputsOf] at total ⊢
  have before : (pool.incomingValueByOwner owner).getD 0 = pendingTo pool.entries.entries owner :=
    exact owner
  dsimp only at total ⊢
  rw [pendingIncomingForOwner, foldl_addIncoming_getD (by omega), before, add_comm]

theorem IncomingExact.remove (exact : pool.IncomingExact) (hash : Digest) :
    (pool.remove hash).2.IncomingExact := by
  rw [Mempool.remove]
  cases found : pool.entries.lookup hash with
  | none => exact exact
  | some entry =>
    intro owner
    have before : (pool.incomingValueByOwner owner).getD 0 = _ := exact owner
    rw [pendingTo_perm (perm_cons_erase found), pendingTo_cons] at before
    simp only [foldl_unindexPage, pendingIncomingForOwner]
    rw [foldl_subIncoming_getD, before, receivedFrom_liveOutputsOf, Nat.add_sub_cancel_left]

end Mempool

inductive MempoolOp where
  | admitPages (pages : List TxBody) (currentHeight : Nat)
  | remove (hash : Digest)
  | evictWrongAnchor (currentAnchor : Digest)
  | onBlockConfirmed (confirmed : List Digest)

namespace MempoolOp

def run (hasher : TxHasher) (pool : Mempool) : MempoolOp → Mempool
  | admitPages pages height => (Mempool.admitPages hasher pages height pool).2
  | remove hash => (pool.remove hash).2
  | evictWrongAnchor anchor => (pool.evictWrongAnchor anchor).2
  | onBlockConfirmed confirmed => (pool.onBlockConfirmed confirmed).2

/-- Only groups that pass the validator are offered. -/
def Offered (hasher : TxHasher) : MempoolOp → Prop
  | admitPages pages _ => (validatePagedSpend hasher pages).isOk = true
  | _ => True

end MempoolOp

namespace Mempool

variable {hasher : TxHasher} {pool : Mempool}

/-- The pool after a history of operations on an empty one. -/
def after (hasher : TxHasher) (capacity : Nat) (history : List MempoolOp) : Mempool :=
  history.foldl (MempoolOp.run hasher) (new capacity)

/-- A refused admission leaves the pool as it was. -/
theorem admitPages_atomic (pages : List TxBody) (height : Nat) :
    (admitPages hasher pages height).Atomic := by
  intro pool
  apply InPlace.AtomicAt.lift_bind
  intro _ _
  apply InPlace.AtomicAt.expect_lift_bind
  intro entry _
  apply InPlace.AtomicAt.lift_bind
  intro _ _
  apply InPlace.AtomicAt.lift_bind
  intro _ _
  apply InPlace.AtomicAt.lift_bind
  intro _ _
  apply InPlace.Infallible.atomicAt
  apply InPlace.Infallible.bind
  · exact @InPlace.each_infallible _ _ _ _ _ (fun _ => True) _
      (fun _ _ _ _ => InPlace.update_infallible _) (fun _ _ _ _ _ _ => trivial) trivial
  · intro _ _ _
    apply InPlace.Infallible.bind (InPlace.update_infallible _)
    intro _ _ _
    exact InPlace.update_infallible _

theorem admit_noPanic (height : Nat) (pool : Mempool)
    (offered : (validatePagedSpend hasher pages).isOk = true) :
    (admitPages hasher pages height).NoPanic pool := by
  obtain ⟨spend, valid⟩ := isOk_eq_true.mp offered
  have made : MempoolEntry.new hasher pages height =
      .ok ⟨pages, spend, height, MempoolEntry.computeFeeRate spend, 0, []⟩ :=
    bind_eq_ok.mpr ⟨spend, valid, rfl⟩
  apply InPlace.NoPanic.lift_bind
  intro _ _
  apply InPlace.NoPanic.expect_lift_bind made
  apply InPlace.NoPanic.lift_bind
  intro _ _
  apply InPlace.NoPanic.lift_bind
  intro _ _
  apply InPlace.NoPanic.lift_bind
  intro _ _
  apply InPlace.NoPanic.bind
  · exact InPlace.each_noPanic fun _ _ _ => InPlace.update_noPanic _
  · intro _ _ _
    apply InPlace.NoPanic.bind (InPlace.update_noPanic _)
    intro _ _ _
    exact InPlace.update_noPanic _

theorem admit_cases (height : Nat) (pool : Mempool)
    (offered : (validatePagedSpend hasher pages).isOk = true) :
    (∃ done, admitPages hasher pages height pool =
        (.ok done, (admitPages hasher pages height pool).2)) ∨
      (admitPages hasher pages height pool).2 = pool :=
  (admitPages_atomic pages height pool).cases (admit_noPanic height pool offered)

theorem Consistent.removeAll (consistent : pool.Consistent hasher) (hashes : List Digest) :
    (pool.removeAll hashes).Consistent hasher := by
  induction hashes generalizing pool with
  | nil => exact consistent
  | cons hash hashes ih => exact ih (consistent.remove hash)

theorem IncomingExact.removeAll (exact : pool.IncomingExact) (hashes : List Digest) :
    (pool.removeAll hashes).IncomingExact := by
  induction hashes generalizing pool with
  | nil => exact exact
  | cons hash hashes ih => exact ih (exact.remove hash)

theorem onBlockConfirmed_snd (pool : Mempool) (confirmed : List Digest) :
    (pool.onBlockConfirmed confirmed).2 = pool.removeAll confirmed := by
  induction confirmed generalizing pool with
  | nil => rfl
  | cons hash confirmed ih => exact ih _

variable {op : MempoolOp}

theorem Consistent.run (consistent : pool.Consistent hasher) (offered : op.Offered hasher) :
    (op.run hasher pool).Consistent hasher := by
  cases op with
  | admitPages pages height =>
    rcases admit_cases height pool offered with ⟨_, returned⟩ | same
    · exact consistent.admitPages returned
    · rw [MempoolOp.run, same]
      exact consistent
  | remove hash => exact consistent.remove hash
  | evictWrongAnchor anchor => exact consistent.removeAll _
  | onBlockConfirmed confirmed =>
    rw [MempoolOp.run, onBlockConfirmed_snd]
    exact consistent.removeAll confirmed

theorem IncomingExact.run (exact : pool.IncomingExact) (offered : op.Offered hasher)
    (fits : ∀ owner, pendingTo (op.run hasher pool).entries.entries owner < u64Bound) :
    (op.run hasher pool).IncomingExact := by
  cases op with
  | admitPages pages height =>
    rcases admit_cases height pool offered with ⟨_, returned⟩ | same
    · exact exact.admitPages returned fits
    · rw [MempoolOp.run, same]
      exact exact
  | remove hash => exact exact.remove hash
  | evictWrongAnchor anchor => exact exact.removeAll _
  | onBlockConfirmed confirmed =>
    rw [MempoolOp.run, onBlockConfirmed_snd]
    exact exact.removeAll confirmed

theorem after_concat (capacity : Nat) (history : List MempoolOp) (op : MempoolOp) :
    after hasher capacity (history ++ [op]) = op.run hasher (after hasher capacity history) := by
  rw [after, foldl_append]
  rfl

theorem consistent_after (capacity : Nat) {history : List MempoolOp}
    (offered : ∀ op ∈ history, op.Offered hasher) :
    (after hasher capacity history).Consistent hasher := by
  induction history using List.reverseRecOn with
  | nil => exact new_consistent capacity
  | append_singleton history op ih =>
    rw [after_concat]
    rw [forall_mem_append, forall_mem_singleton] at offered
    exact (ih offered.1).run offered.2

theorem incomingExact_after (capacity : Nat) {history : List MempoolOp}
    (offered : ∀ op ∈ history, op.Offered hasher)
    (fits : ∀ past, past <+: history → ∀ owner,
      pendingTo (after hasher capacity past).entries.entries owner < u64Bound) :
    (after hasher capacity history).IncomingExact := by
  induction history using List.reverseRecOn with
  | nil => exact fun owner => rfl
  | append_singleton history op ih =>
    rw [forall_mem_append, forall_mem_singleton] at offered
    have earlier := ih offered.1 fun past isPast =>
      fits past (isPast.trans (prefix_append history [op]))
    have now := fits _ (prefix_refl _)
    rw [after_concat] at now ⊢
    exact earlier.run offered.2 now

end Mempool

end Jetsam
