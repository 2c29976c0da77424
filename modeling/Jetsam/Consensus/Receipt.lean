import Jetsam.Client.Openings
import Jetsam.Mempool.IntentWire
import Jetsam.Merkle.Path

/-!
# Receipts of confirmed transactions

A receipt opens one leaf of the transaction tree of a block, whose root is wrapped with the number
of leaves. The checks read the receipt and a header only; what they establish about the block rests
on the hashes that the two of them evaluate.
-/

namespace Jetsam

open Control Wire List

/-- A leaf of the transaction tree: a system record, or the pages of a user group. -/
inductive LogicalTransaction where
  | system (record : TxBody)
  | spend (pages : List TxBody)
  deriving DecidableEq

def LogicalTransaction.txid (hasher : TxHasher) : LogicalTransaction → Digest
  | system record => hasher.bodyHash record
  | spend pages => hashPagedSpendUnchecked hasher pages

/-- The leaves of a body with the given layout, in order. -/
def logicalTransactions (transactions : List TxBody) (facts : BlockPageStreamFacts) :
    List LogicalTransaction :=
  (transactions.take facts.userStartIndex).map .system ++ facts.groups.map fun group =>
    .spend (((transactions.drop facts.userStartIndex).drop group.startPage).take group.pageCount)

/-- The siblings read from the layers of the tree, from the leaves upwards. -/
def siblingLayers (compress : Digest → Digest → Digest) :
    Nat → (Nat → Digest) → Nat → List Digest
  | 0, _, _ => []
  | levels + 1, layer, index =>
    layer (index ^^^ 1) :: siblingLayers compress levels
      (fun index => compress (layer (2 * index)) (layer (2 * index + 1))) (index >>> 1)

theorem length_siblingLayers (compress : Digest → Digest → Digest) (levels : Nat)
    (layer : Nat → Digest) (index : Nat) :
    (siblingLayers compress levels layer index).length = levels := by
  induction levels generalizing layer index with
  | zero => rfl
  | succ levels ih => rw [siblingLayers, length_cons, ih]

/-- The siblings of one leaf, the lowest first. -/
structure TxPath where
  siblings : List Digest
  depth : siblings.length = txTreeDepth
  deriving DecidableEq

/-- The path of a real leaf; `none` where an assertion of the source fails. -/
def pathFromHashes (tree : TxTreeHasher) (hashes : List Digest) (index : Nat) : Option TxPath :=
  if hashes ≠ [] ∧ hashes.length ≤ txTreeLeaves ∧ index < hashes.length then
    some ⟨siblingLayers tree.compress txTreeDepth (fun leaf => hashes.getD leaf 0) index,
      length_siblingLayers _ _ _ _⟩
  else none

/-- Walk up a path; the directions are the bits of the index. -/
def walkPath (compress : Digest → Digest → Digest) (leaf : Digest) (index : Nat)
    (siblings : List Digest) : Digest :=
  siblings.zipIdx.foldl (fun current entry =>
    if (index >>> entry.2) &&& 1 = 1 then compress entry.1 current
    else compress current entry.1) leaf

/-- Check a path and the wrap that binds the number of leaves. -/
def verifyPath (tree : TxTreeHasher) (leaf : Digest) (path : TxPath) (index count : Nat)
    (claimedRoot : Digest) : Bool :=
  decide ((1 ≤ count ∧ count ≤ txTreeLeaves) ∧ index < count) &&
    tree.bindTxCount (walkPath tree.compress leaf index path.siblings) count == claimedRoot

structure TxSummary where
  logicalTxid : Digest
  inputs : List (BitVec 32 × Address)
  outputs : List (BitVec 32 × BitVec 64 × Address)
  feeMicroJtm : BitVec 64
  confirmedHeight : Nat
  confirmedUnix : Nat
  deriving DecidableEq

/-- A proof that a transaction is in the canonical chain. -/
structure JetsamReceipt where
  constructionMarker : Byte
  pagedSpend : List Byte
  txIndex : BitVec 16
  txCount : BitVec 16
  merklePath : TxPath
  claimedRoot : Digest
  claimedHeight : Nat
  summary : TxSummary
  deriving DecidableEq

def receiptConstructionMarker : Byte := 0x02

/-- The payment data of a group of pages; `none` when they are no group. -/
def summaryFromPages (hasher : TxHasher) (pages : List TxBody)
    (confirmedHeight confirmedUnix : Nat) : Option TxSummary :=
  match validatePagedSpend hasher pages with
  | .error _ => none
  | .ok facts =>
    some
      { logicalTxid := facts.logicalTxid
        inputs := pages.flatMap fun page =>
          page.liveInputs.map fun live => (live.2.slotIndex, page.inputOwner)
        outputs := pages.flatMap fun page =>
          page.liveOutputs.map fun live => (live.2.slotIndex, live.2.amount, live.2.owner)
        feeMicroJtm := facts.fee
        confirmedHeight
        confirmedUnix }

section Checks

variable {D : Type} (hashes : ChainHashes D)

/-- The receipt of a transaction; `none` where the source panics. -/
def generateReceipt (header : BlockHeader D) (pages : List TxBody) (txIndex : Nat)
    (blockTxHashes : List Digest) : Option JetsamReceipt := do
  let intent ← (PagedSpendIntent.new hashes.tx pages []).toOption
  let logicalTxid := hashPagedSpendUnchecked hashes.tx intent.pages
  guard (blockTxHashes[txIndex]? = some logicalTxid)
  let merklePath ← pathFromHashes hashes.tree blockTxHashes txIndex
  let summary ← summaryFromPages hashes.tx intent.pages header.height header.timestamp
  let pagedSpend ← (intent.toBytes hashes.tx).toOption
  pure
    { constructionMarker := receiptConstructionMarker
      pagedSpend
      txIndex := BitVec.ofNat 16 txIndex
      txCount := BitVec.ofNat 16 blockTxHashes.length
      merklePath
      claimedRoot := header.txRoot
      claimedHeight := header.height
      summary }

/-- The offline check; `none` where the source panics. -/
def verifyMerkleInclusion (receipt : JetsamReceipt) : Option Bool :=
  if receipt.constructionMarker ≠ receiptConstructionMarker then some false
  else
    match PagedSpendIntent.fromBytes hashes.tx receipt.pagedSpend with
    | .error _ => some false
    | .ok intent =>
      if intent.authorizationBytes ≠ [] then some false
      else do
        let expected ← summaryFromPages hashes.tx intent.pages receipt.claimedHeight
          receipt.summary.confirmedUnix
        if receipt.summary ≠ expected then some false
        else
          some (verifyPath hashes.tree (hashPagedSpendUnchecked hashes.tx intent.pages)
            receipt.merklePath receipt.txIndex.toNat receipt.txCount.toNat receipt.claimedRoot)

def verifyAgainstHeader (receipt : JetsamReceipt) (canonicalHeader : BlockHeader D) : Bool :=
  canonicalHeader.height == receipt.claimedHeight &&
    canonicalHeader.txRoot == receipt.claimedRoot &&
    canonicalHeader.timestamp == receipt.summary.confirmedUnix

end Checks

section Tree

variable {compress : Digest → Digest → Digest}

theorem compressLayers_eq_root (levels : Nat) (layer : Nat → Digest) :
    compressLayers compress levels layer = Merkle.root compress levels layer := by
  induction levels generalizing layer with
  | zero => rfl
  | succ levels ih => rw [compressLayers, ih, Merkle.root_succ_bottom]

theorem walkPath_eq_pathRoot (leaf : Digest) (index : Nat) (siblings : List Digest) :
    walkPath compress leaf index siblings = Merkle.pathRoot compress leaf index siblings := by
  -- the fold counts levels from below, the walk halves the position: start at any level
  have from_level : ∀ (siblings : List Digest) (level : Nat) (leaf : Digest),
      (siblings.zipIdx level).foldl (fun current entry =>
        if (index >>> entry.2) &&& 1 = 1 then compress entry.1 current
        else compress current entry.1) leaf =
      Merkle.pathRoot compress leaf (index / 2 ^ level) siblings := by
    intro siblings
    induction siblings with
    | nil => intro level leaf; rfl
    | cons sibling siblings ih =>
      intro level leaf
      rw [zipIdx_cons, foldl_cons, ih, Merkle.pathRoot, pow_succ, ← Nat.div_div_eq_div_mul]
      simp only [Nat.and_one_is_mod, Nat.shiftRight_eq_div_pow]
      rcases Nat.mod_two_eq_zero_or_one (index / 2 ^ level) with even | odd
      · rw [if_neg (by omega), if_pos even]
      · rw [if_pos odd, if_neg (by omega)]
  have bottom := from_level siblings 0 leaf
  rwa [pow_zero, Nat.div_one] at bottom

theorem pathRoot_siblingLayers {levels index : Nat} (layer : Nat → Digest)
    (inside : index < 2 ^ levels) :
    Merkle.pathRoot compress (layer index) index (siblingLayers compress levels layer index) =
      compressLayers compress levels layer := by
  induction levels generalizing layer index with
  | zero =>
    obtain rfl : index = 0 := by simpa using inside
    rfl
  | succ levels ih =>
    have half : index / 2 < 2 ^ levels := by
      omega
    have upper := ih (fun index => compress (layer (2 * index)) (layer (2 * index + 1))) half
    rw [siblingLayers, Merkle.pathRoot, compressLayers, ← upper, Nat.shiftRight_one]
    rcases Nat.mod_two_eq_zero_or_one index with even | odd
    · rw [if_pos even, Nat.xor_one_of_even (Nat.even_iff.mpr even),
        show 2 * (index / 2) = index by omega]
    · rw [if_neg (by omega), Nat.xor_one_of_odd (Nat.odd_iff.mpr odd),
        show 2 * (index / 2) = index - 1 by omega, show index - 1 + 1 = index by omega]

end Tree

section Leaves

variable {hasher : TxHasher} {tree : TxTreeHasher} {layout : BlockLayout}

theorem map_pages_groupFacts {β : Type} (read : List TxBody → β) {user before : List TxBody}
    {groups : List PageGroup} {start : Nat} (begins : before.length = start)
    (split : user = before ++ groups.flatMap PageGroup.pages) :
    ((groupFacts hasher start groups).map fun group =>
      read ((user.drop group.startPage).take group.pageCount)) =
      groups.map fun group => read group.pages := by
  induction groups generalizing before start with
  | nil => rfl
  | cons group groups ih =>
    have slice : (user.drop start).take group.pages.length = group.pages := by
      rw [split, ← begins, drop_left, flatMap_cons, take_left]
    have rest := @ih (before ++ group.pages) (start + group.pages.length) (by simp [begins])
      (by rw [split, flatMap_cons, append_assoc])
    rw [groupFacts, map_cons, map_cons, rest, slice]

theorem logicalTransactions_records (layout : BlockLayout) (hasher : TxHasher) :
    logicalTransactions layout.records (layout.facts hasher .v1) =
      layout.system.map .system ++ layout.groups.map fun group => .spend group.pages := by
  rw [logicalTransactions, BlockLayout.facts, BlockLayout.records, take_left, drop_left]
  exact congrArg _ (map_pages_groupFacts LogicalTransaction.spend length_nil rfl)

theorem map_txid_records (layout : BlockLayout) (hasher : TxHasher) :
    (logicalTransactions layout.records (layout.facts hasher .v1)).map
      (LogicalTransaction.txid hasher) = layout.txids hasher := by
  rw [logicalTransactions_records, map_append, map_map, map_map]
  rfl

theorem BlockLayout.Accepted.length_txids (accepted : layout.Accepted) (hasher : TxHasher) :
    1 ≤ (layout.txids hasher).length ∧ (layout.txids hasher).length ≤ txTreeLeaves := by
  constructor
  · rw [BlockLayout.txids, BlockLayout.system, map_cons, cons_append, length_cons]
    exact Nat.succ_pos _
  · exact (layout.length_txids_le hasher).trans accepted.length_records

end Leaves

variable {tree : TxTreeHasher} {leaf : Digest} {path : TxPath}

section Soundness

variable {D : Type} {hashes : ChainHashes D} {receipt : JetsamReceipt}

def JetsamReceipt.pages (hashes : ChainHashes D) (receipt : JetsamReceipt) : List TxBody :=
  match PagedSpendIntent.fromBytes hashes.tx receipt.pagedSpend with
  | .ok intent => intent.pages
  | .error _ => []

theorem verifyPath_eq_true {root : Digest} {index count : Nat} :
    verifyPath tree leaf path index count root = true ↔
      ((1 ≤ count ∧ count ≤ txTreeLeaves) ∧ index < count) ∧
        tree.bindTxCount (Merkle.pathRoot tree.compress leaf index path.siblings) count = root := by
  rw [verifyPath, Bool.and_eq_true, decide_eq_true_eq, beq_iff_eq, walkPath_eq_pathRoot]

theorem verifyMerkleInclusion_eq_true :
    verifyMerkleInclusion hashes receipt = some true ↔
      receipt.constructionMarker = receiptConstructionMarker ∧
        PagedSpendIntent.fromBytes hashes.tx receipt.pagedSpend = .ok ⟨receipt.pages hashes, []⟩ ∧
        summaryFromPages hashes.tx (receipt.pages hashes) receipt.claimedHeight
          receipt.summary.confirmedUnix = some receipt.summary ∧
        verifyPath hashes.tree (hashPagedSpendUnchecked hashes.tx (receipt.pages hashes))
          receipt.merklePath receipt.txIndex.toNat receipt.txCount.toNat receipt.claimedRoot =
            true := by
  rw [verifyMerkleInclusion, JetsamReceipt.pages]
  by_cases marked : receipt.constructionMarker = receiptConstructionMarker
  · rw [if_neg (not_not_intro marked), and_iff_right marked]
    cases decoded : PagedSpendIntent.fromBytes hashes.tx receipt.pagedSpend with
    | error error => simp
    | ok intent =>
      obtain ⟨pages, authorization⟩ := intent
      by_cases empty : authorization = []
      · subst empty
        simp only [ne_eq, not_true_eq_false, if_false, true_and, Option.bind_eq_bind,
          Option.bind_eq_some_iff]
        constructor
        · rintro ⟨expected, derived, judged⟩
          by_cases same : receipt.summary = expected
          · rw [if_neg (not_not_intro same)] at judged
            exact ⟨same ▸ derived, Option.some.inj judged⟩
          · simp [same] at judged
        · rintro ⟨derived, verified⟩
          exact ⟨_, derived, by simp [verified]⟩
      · simp [empty]
  · simp [marked]

/-- Inputs on which the hashes of the tree and of its leaves are evaluated. -/
structure HashInputs where
  pairs : Set (Digest × Digest)
  counts : Set (Digest × Nat)
  transactions : Set LogicalTransaction

/-- The inputs behind the root of a list of leaves. -/
def treeInputs (hashes : ChainHashes D) (leaves : List LogicalTransaction) : HashInputs where
  pairs := Merkle.subtreePairs hashes.tree.compress
    (fun index => (leaves.map (LogicalTransaction.txid hashes.tx)).getD index 0) txTreeDepth 0
  counts := {(compressLayers hashes.tree.compress txTreeDepth
    (fun index => (leaves.map (LogicalTransaction.txid hashes.tx)).getD index 0), leaves.length)}
  transactions := {leaf | leaf ∈ leaves}

/-- The inputs behind the check of a receipt. -/
def receiptInputs (hashes : ChainHashes D) (receipt : JetsamReceipt) : HashInputs where
  pairs := {pair | pair ∈ Merkle.pathPairs hashes.tree.compress
    (hashPagedSpendUnchecked hashes.tx (receipt.pages hashes)) receipt.txIndex.toNat
    receipt.merklePath.siblings}
  counts := {(walkPath hashes.tree.compress
    (hashPagedSpendUnchecked hashes.tx (receipt.pages hashes)) receipt.txIndex.toNat
    receipt.merklePath.siblings, receipt.txCount.toNat)}
  transactions := {.spend (receipt.pages hashes)}

/-- No two of the inputs of two computations collide. -/
structure CollisionFree (hashes : ChainHashes D) (left right : HashInputs) : Prop where
  compress : Set.InjOn (Function.uncurry hashes.tree.compress) (left.pairs ∪ right.pairs)
  bindTxCount : Set.InjOn (Function.uncurry hashes.tree.bindTxCount) (left.counts ∪ right.counts)
  txid : Set.InjOn (LogicalTransaction.txid hashes.tx) (left.transactions ∪ right.transactions)

/-- A path that leads to the root of a list of leaves opens the leaf at its index, and the count
wrapped with it is theirs. -/
theorem CollisionFree.opened {leaves : List LogicalTransaction}
    (free : CollisionFree hashes (treeInputs hashes leaves) (receiptInputs hashes receipt))
    (verified : verifyPath hashes.tree (hashPagedSpendUnchecked hashes.tx (receipt.pages hashes))
      receipt.merklePath receipt.txIndex.toNat receipt.txCount.toNat
      (rootFromHashes hashes.tree (leaves.map (LogicalTransaction.txid hashes.tx))) = true)
    (real : leaves ≠ []) :
    receipt.txCount.toNat = leaves.length ∧
      leaves[receipt.txIndex.toNat]? = some (.spend (receipt.pages hashes)) := by
  obtain ⟨⟨⟨-, fits⟩, inside⟩, wrapped⟩ := verifyPath_eq_true.mp verified
  have some : leaves.map (LogicalTransaction.txid hashes.tx) ≠ [] := by simpa using real
  rw [rootFromHashes, if_neg some, length_map, ← walkPath_eq_pathRoot] at wrapped
  have claimed : (_, receipt.txCount.toNat) ∈ (receiptInputs hashes receipt).counts := rfl
  have genuine : (_, leaves.length) ∈ (treeInputs hashes leaves).counts := rfl
  obtain ⟨top, count⟩ := Prod.mk.inj (free.bindTxCount (Set.mem_union_right _ claimed)
    (Set.mem_union_left _ genuine) wrapped)
  refine ⟨count, ?_⟩
  rw [count] at inside fits
  rw [walkPath_eq_pathRoot, compressLayers_eq_root, ← Merkle.subtree_top] at top
  have leaf := Merkle.entry_eq_subtree_of_injOn free.compress receipt.merklePath.depth.le
    (fun pair mem => Set.mem_union_right _ mem)
    (fun pair mem => Set.mem_union_left _ mem) top
  have small : receipt.txIndex.toNat < 2 ^ txTreeDepth := inside.trans_le fits
  rw [receipt.merklePath.depth, Nat.sub_self, Nat.zero_mul, Nat.zero_add, Nat.mod_eq_of_lt small,
    Merkle.subtree_zero, getD_eq_getElem _ _ (by simpa using inside), getElem_map] at leaf
  rw [getElem?_eq_getElem inside, Option.some.injEq]
  exact free.txid (Set.mem_union_left _ (getElem_mem inside)) (Set.mem_union_right _ rfl)
    leaf.symm

end Soundness

section Blocks

variable {D : Type} {hashes : ChainHashes D} {header : BlockHeader D} {layout : BlockLayout}

variable {index : Nat} {leaves : List Digest}

theorem verifyPath_of_pathFromHashes (reads : leaves[index]? = some leaf)
    (built : pathFromHashes tree leaves index = some path) :
    verifyPath tree leaf path index leaves.length (rootFromHashes tree leaves) = true := by
  rw [pathFromHashes, Option.ite_none_right_eq_some, Option.some.injEq] at built
  obtain ⟨⟨real, fits, inside⟩, rfl⟩ := built
  have pos : 1 ≤ leaves.length := length_pos_iff.mpr real
  rw [verifyPath_eq_true, rootFromHashes, if_neg real]
  refine ⟨⟨⟨pos, fits⟩, inside⟩, ?_⟩
  have leads := @pathRoot_siblingLayers tree.compress txTreeDepth index
    (fun leaf => leaves.getD leaf 0) (inside.trans_le fits)
  rw [← leads]
  simp only [getD_eq_getElem?_getD, reads, Option.getD_some]

def receiptOf (header : BlockHeader D) (pages : List TxBody) (index count : Nat) (path : TxPath)
    (summary : TxSummary) : JetsamReceipt where
  constructionMarker := receiptConstructionMarker
  pagedSpend := PagedSpendIntent.wire ⟨pages, []⟩
  txIndex := BitVec.ofNat 16 index
  txCount := BitVec.ofNat 16 count
  merklePath := path
  claimedRoot := header.txRoot
  claimedHeight := header.height
  summary := summary

theorem toOption_eq_some {ε α : Type} {outcome : Except ε α} {value : α} :
    outcome.toOption = some value ↔ outcome = .ok value := by
  cases outcome <;> simp [Except.toOption]

variable {pages : List TxBody}

variable {receipt : JetsamReceipt}

theorem generateReceipt_eq_some :
    generateReceipt hashes header pages index leaves = some receipt ↔
      PagedSpendIntent.Accepted hashes.tx ⟨pages, []⟩ ∧
        leaves[index]? = some (hashPagedSpendUnchecked hashes.tx pages) ∧
        ∃ path, pathFromHashes hashes.tree leaves index = some path ∧
          ∃ summary, summaryFromPages hashes.tx pages header.height header.timestamp =
              some summary ∧
            receipt = receiptOf header pages index leaves.length path summary := by
  simp only [generateReceipt, Option.bind_eq_bind, Option.bind_eq_some_iff, toOption_eq_some,
    PagedSpendIntent.new_eq_ok, PagedSpendIntent.toBytes_eq_ok, Option.guard_eq_some',
    Option.pure_def, Option.some.injEq, exists_const]
  constructor
  · rintro ⟨_, ⟨accepted, rfl⟩, reads, path, built, summary, derived, _, ⟨-, rfl⟩, rfl⟩
    exact ⟨accepted, reads, path, built, summary, derived, rfl⟩
  · rintro ⟨accepted, reads, path, built, summary, derived, rfl⟩
    exact ⟨_, ⟨accepted, rfl⟩, reads, path, built, summary, derived, _, ⟨accepted, rfl⟩, rfl⟩

theorem confirmed_of_summaryFromPages {hasher : TxHasher} {height unix : Nat} {summary : TxSummary}
    (derived : summaryFromPages hasher pages height unix = some summary) :
    summary.confirmedHeight = height ∧ summary.confirmedUnix = unix := by
  rw [summaryFromPages] at derived
  split at derived
  · cases derived
  · obtain rfl := Option.some.inj derived
    exact ⟨rfl, rfl⟩

theorem toNat_ofNat_leaf {number : Nat} (small : number ≤ txTreeLeaves) :
    (BitVec.ofNat 16 number).toNat = number := by
  rw [BitVec.toNat_ofNat, Nat.mod_eq_of_lt (small.trans_lt (by decide))]

/-- A receipt that was generated against the root of the leaves passes both checks. -/
theorem verified_of_generateReceipt (rooted : header.txRoot = rootFromHashes hashes.tree leaves)
    (generated : generateReceipt hashes header pages index leaves = some receipt) :
    verifyMerkleInclusion hashes receipt = some true ∧
      verifyAgainstHeader receipt header = true := by
  obtain ⟨accepted, reads, path, built, summary, derived, rfl⟩ :=
    generateReceipt_eq_some.mp generated
  have decoded : PagedSpendIntent.fromBytes hashes.tx (PagedSpendIntent.wire ⟨pages, []⟩) =
      .ok ⟨pages, []⟩ := PagedSpendIntent.fromBytes_eq_ok.mpr ⟨accepted, rfl⟩
  obtain ⟨-, dated⟩ := confirmed_of_summaryFromPages derived
  have verified := verifyPath_of_pathFromHashes reads built
  obtain ⟨⟨⟨-, fits⟩, inside⟩, -⟩ := verifyPath_eq_true.mp verified
  have carried : (receiptOf header pages index leaves.length path summary).pages hashes =
      pages := by
    rw [JetsamReceipt.pages, receiptOf, decoded]
  constructor
  · rw [verifyMerkleInclusion_eq_true, carried]
    refine ⟨rfl, decoded, ?_, ?_⟩
    · rw [receiptOf, dated]
      exact derived
    · rw [receiptOf, toNat_ofNat_leaf fits, toNat_ofNat_leaf (inside.le.trans fits), rooted]
      exact verified
  · simp [verifyAgainstHeader, receiptOf, dated]

theorem BlockLayout.Accepted.exists_receipt (accepted : layout.Accepted) (header : BlockHeader D)
    {group : PageGroup} (mem : group ∈ layout.groups)
    (reads : (layout.txids hashes.tx)[index]? =
      some (hashPagedSpendUnchecked hashes.tx group.pages)) :
    ∃ receipt, generateReceipt hashes header group.pages index (layout.txids hashes.tx) =
      some receipt := by
  have valid : validatePagedSpend hashes.tx group.pages =
      .ok (pagedSpendFacts hashes.tx group.1 group.2) :=
    validatePagedSpend_pages.mpr ⟨group, rfl, accepted.stream.accepted group mem, rfl⟩
  obtain ⟨pos, fits⟩ := accepted.length_txids hashes.tx
  have inside : index < (layout.txids hashes.tx).length :=
    (List.getElem?_eq_some_iff.mp reads).1
  obtain ⟨summary, derived⟩ : ∃ summary, summaryFromPages hashes.tx group.pages header.height
      header.timestamp = some summary := by
    rw [summaryFromPages, valid]
    exact ⟨_, rfl⟩
  exact ⟨_, generateReceipt_eq_some.mpr ⟨⟨⟨_, valid⟩, Nat.zero_le _⟩, reads, _,
    if_pos ⟨ne_nil_of_length_pos pos, fits, inside⟩, summary, derived, rfl⟩⟩

theorem BlockLayout.Accepted.isCoinbase_system (accepted : layout.Accepted) :
    ∀ record ∈ layout.system, record.isCoinbase = true := by
  rw [BlockLayout.system, forall_mem_cons]
  refine ⟨TxBody.isCoinbase_of_primary accepted.primary, fun record mem => ?_⟩
  exact TxBody.isCoinbase_of_development
    (accepted.development record (Option.mem_toList.mp mem))

theorem generateReceipt_of_coinbase {record : TxBody} (system : record.isCoinbase = true)
    (index : Nat) (leaves : List Digest) :
    generateReceipt hashes header [record] index leaves = none := by
  rw [Option.eq_none_iff_forall_ne_some]
  intro receipt generated
  obtain ⟨⟨⟨facts, valid⟩, -⟩, -⟩ := generateReceipt_eq_some.mp generated
  obtain ⟨group, single, accepted, -⟩ := validatePagedSpend_pages.mp valid
  have user := (accepted.shape record (by rw [← PageGroup.pages, ← single]; simp)).user
  rw [system] at user
  cases user

end Blocks

/-- Every user transaction of a valid block has a receipt that passes both checks, and no system
record has one. A receipt that passes them names the number of leaves, the transaction at its index
and its payment data, unless two of the hashed inputs collide. -/
theorem receipts_of_block {D : Type} (hashes : ChainHashes D) (header : BlockHeader D)
    (transactions : List TxBody) (facts : BlockPageStreamFacts) (blockTxHashes : List Digest)
    (valid : validateBlockPageStream hashes.tx transactions = .ok facts)
    (hashed : tryComputeLogicalTxids hashes.tx transactions = .ok blockTxHashes)
    (rooted : header.txRoot = rootFromHashes hashes.tree blockTxHashes) :
    (∀ index pages, (logicalTransactions transactions facts)[index]? = some (.spend pages) →
      ∃ receipt, generateReceipt hashes header pages index blockTxHashes = some receipt ∧
        verifyMerkleInclusion hashes receipt = some true ∧
        verifyAgainstHeader receipt header = true) ∧
      (∀ index record, (logicalTransactions transactions facts)[index]? = some (.system record) →
        generateReceipt hashes header [record] index blockTxHashes = none) ∧
      ∀ (canonical : BlockHeader D) (receipt : JetsamReceipt), canonical.txRoot = header.txRoot →
        CollisionFree hashes (treeInputs hashes (logicalTransactions transactions facts))
            (receiptInputs hashes receipt) →
          verifyMerkleInclusion hashes receipt = some true →
            verifyAgainstHeader receipt canonical = true →
              receipt.txCount.toNat = (logicalTransactions transactions facts).length ∧
                (logicalTransactions transactions facts)[receipt.txIndex.toNat]? =
                  some (.spend (receipt.pages hashes)) ∧
                summaryFromPages hashes.tx (receipt.pages hashes) canonical.height
                  canonical.timestamp = some receipt.summary := by
  obtain ⟨layout, rfl, accepted, rfl⟩ := validateBlockPageStreamIn_eq_ok.mp valid
  obtain rfl : layout.txids hashes.tx = blockTxHashes :=
    Except.ok.inj ((accepted.tryComputeLogicalTxids hashes.tx).symm.trans hashed)
  have leaves := logicalTransactions_records layout hashes.tx
  refine ⟨fun index pages reads => ?_, fun index record reads => ?_, ?_⟩
  · have member := List.mem_of_getElem? reads
    have txid := congrArg (Option.map (LogicalTransaction.txid hashes.tx)) reads
    rw [← List.getElem?_map, map_txid_records] at txid
    rw [leaves, List.mem_append, List.mem_map, List.mem_map] at member
    rcases member with ⟨_, -, other⟩ | ⟨group, inGroups, same⟩
    · cases other
    · obtain rfl := LogicalTransaction.spend.inj same
      obtain ⟨receipt, generated⟩ := accepted.exists_receipt header inGroups txid
      exact ⟨receipt, generated, verified_of_generateReceipt rooted generated⟩
  · have member := List.mem_of_getElem? reads
    rw [leaves, List.mem_append, List.mem_map, List.mem_map] at member
    rcases member with ⟨_, inSystem, same⟩ | ⟨_, -, other⟩
    · obtain rfl := LogicalTransaction.system.inj same
      exact generateReceipt_of_coinbase (accepted.isCoinbase_system _ inSystem) _ _
    · cases other
  · intro canonical receipt sameRoot free included against
    obtain ⟨-, -, derived, verified⟩ := verifyMerkleInclusion_eq_true.mp included
    simp only [verifyAgainstHeader, Bool.and_eq_true, beq_iff_eq] at against
    obtain ⟨⟨height, root⟩, dated⟩ := against
    rw [← root, sameRoot, rooted, ← map_txid_records] at verified
    rw [← height, ← dated] at derived
    have real : logicalTransactions layout.records (layout.facts hashes.tx .v1) ≠ [] := by
      exact List.cons_ne_nil _ _
    obtain ⟨count, opened⟩ := free.opened verified real
    exact ⟨count, opened, derived⟩

section Sample

/-- A compression that counts levels, and identifiers that tell the coinbase. -/
def countingHashes : ChainHashes Unit where
  state := ⟨fun _ => (), fun _ _ => (), ()⟩
  tx := ⟨fun body => if body.isCoinbase then 1000 else 7, id⟩
  tree := ⟨fun left _ => left + 1, fun root count => root + count⟩
  blockId := fun _ => 0
  commitment := fun _ => 0

def sampleTxid : Digest := hashPagedSpendUnchecked countingHashes.tx [markerPage]

def receiptHeader : BlockHeader Unit :=
  { markerHeader with txRoot := rootFromHashes countingHashes.tree [1000, sampleTxid] }

def sampleLeaves : List LogicalTransaction := [.system emptyCoinbase, .spend [markerPage]]

def partner (left : Digest) : Digest :=
  if left < 1000 then left else if left = 1000 then sampleTxid else left - 1000

theorem root_countingHashes (depth : Nat) (leaves : Nat → Digest) :
    Merkle.root countingHashes.tree.compress depth leaves = leaves 0 + BitVec.ofNat 256 depth := by
  induction depth generalizing leaves with
  | zero => simp [Merkle.root_zero]
  | succ depth ih =>
    rw [Merkle.root_succ, ih, BitVec.ofNat_add, ← BitVec.add_assoc]
    rfl

theorem subtreePairs_sample {pair : Digest × Digest}
    (mem : pair ∈ Merkle.subtreePairs countingHashes.tree.compress
      (fun index => ([1000, sampleTxid] : List Digest).getD index 0) txTreeDepth 0) :
    pair.2 = partner pair.1 := by
  obtain ⟨lower, position, below, -, rfl⟩ := mem
  simp only [Merkle.subtree, root_countingHashes, Nat.add_zero]
  have small : lower < 8 := below
  by_cases first : position = 0
  · subst first
    interval_cases lower <;> decide
  · have power := Nat.two_pow_pos lower
    have far : ∀ place, 2 ≤ place →
        ([1000, sampleTxid] : List Digest).getD (2 ^ lower * place) 0 = 0 := by
      intro place large
      have beyond : 2 ≤ 2 ^ lower * place := large.trans (Nat.le_mul_of_pos_left _ power)
      exact getD_eq_default _ _ beyond
    rw [far _ (by omega), far _ (by omega)]
    interval_cases lower <;> decide

def sampleReceipt : JetsamReceipt :=
  receiptOf receiptHeader [markerPage] 1 2 ⟨[1000, 1, 2, 3, 4, 5, 6, 7], rfl⟩
    ⟨sampleTxid, [(1, 1)], [(2, 0, (openRegistration 1).marker openCommitment)], 0, 1, 0⟩

theorem collisionFree_sample :
    CollisionFree countingHashes (treeInputs countingHashes sampleLeaves)
      (receiptInputs countingHashes sampleReceipt) where
  compress := by
    have determined : ∀ pair ∈ (treeInputs countingHashes sampleLeaves).pairs ∪
        (receiptInputs countingHashes sampleReceipt).pairs, pair.2 = partner pair.1 := by
      rintro pair (inTree | onPath)
      · exact subtreePairs_sample inTree
      · have walk : (Merkle.pathPairs countingHashes.tree.compress
            (hashPagedSpendUnchecked countingHashes.tx (sampleReceipt.pages countingHashes))
            sampleReceipt.txIndex.toNat sampleReceipt.merklePath.siblings).all
            (fun pair => pair.2 == partner pair.1) = true := by decide +kernel
        exact eq_of_beq (all_eq_true.mp walk pair onPath)
    intro left inLeft right inRight same
    have first : left.1 = right.1 := add_right_cancel same
    exact Prod.ext first (by rw [determined left inLeft, determined right inRight, first])
  bindTxCount := by
    have wrapped : (walkPath countingHashes.tree.compress
        (hashPagedSpendUnchecked countingHashes.tx (sampleReceipt.pages countingHashes))
        sampleReceipt.txIndex.toNat sampleReceipt.merklePath.siblings,
        sampleReceipt.txCount.toNat) = (compressLayers countingHashes.tree.compress txTreeDepth
        (fun index => (sampleLeaves.map (LogicalTransaction.txid countingHashes.tx)).getD index 0),
        sampleLeaves.length) := by decide
    have single : (receiptInputs countingHashes sampleReceipt).counts =
        (treeInputs countingHashes sampleLeaves).counts :=
      congrArg (fun pair => ({pair} : Set (Digest × Nat))) wrapped
    rw [single, Set.union_self]
    exact Set.injOn_singleton _ _
  txid := by
    have carried : sampleReceipt.pages countingHashes = [markerPage] := by decide +kernel
    have apart : LogicalTransaction.txid countingHashes.tx (.system emptyCoinbase) ≠
        LogicalTransaction.txid countingHashes.tx (.spend [markerPage]) := by decide
    have leaves : ∀ leaf ∈ (treeInputs countingHashes sampleLeaves).transactions ∪
        (receiptInputs countingHashes sampleReceipt).transactions,
        leaf = .system emptyCoinbase ∨ leaf = .spend [markerPage] := by
      rintro leaf (inTree | rfl)
      · simpa [treeInputs, sampleLeaves] using inTree
      · exact Or.inr (congrArg _ carried)
    intro left inLeft right inRight same
    rcases leaves left inLeft with rfl | rfl <;> rcases leaves right inRight with rfl | rfl
    · rfl
    · exact absurd same apart
    · exact absurd same.symm apart
    · rfl

theorem leaves_sample :
    (validateBlockPageStream countingHashes.tx [emptyCoinbase, markerPage]).toOption.map
      (logicalTransactions [emptyCoinbase, markerPage]) = some sampleLeaves := by
  decide

theorem receipts_of_sample :
    generateReceipt countingHashes receiptHeader [markerPage] 1 [1000, sampleTxid] =
        some sampleReceipt ∧
      sampleReceipt.txCount.toNat = 2 ∧
      sampleLeaves[sampleReceipt.txIndex.toNat]? =
        some (.spend (sampleReceipt.pages countingHashes)) := by
  have generated : generateReceipt countingHashes receiptHeader [markerPage] 1 [1000, sampleTxid] =
      some sampleReceipt := by rfl
  obtain ⟨facts, valid, leaves⟩ := Option.map_eq_some_iff.mp leaves_sample
  rw [toOption_eq_some] at valid
  have sound := (receipts_of_block countingHashes receiptHeader [emptyCoinbase, markerPage] facts
    [1000, sampleTxid] valid (by decide) rfl).2.2 receiptHeader sampleReceipt rfl
    (leaves ▸ collisionFree_sample) (by decide +kernel) (by decide)
  rw [leaves] at sound
  exact ⟨generated, sound.1, sound.2.1⟩

theorem receipts_of_coinbase :
    (validateBlockPageStream countingHashes.tx [emptyCoinbase, markerPage]).toOption.map
        (logicalTransactions [emptyCoinbase, markerPage]) =
          some [.system emptyCoinbase, .spend [markerPage]] ∧
      tryComputeLogicalTxids countingHashes.tx [emptyCoinbase, markerPage] =
        .ok [1000, sampleTxid] ∧
      receiptHeader.txRoot = rootFromHashes countingHashes.tree [1000, sampleTxid] ∧
      generateReceipt countingHashes receiptHeader [emptyCoinbase] 0 [1000, sampleTxid] = none := by
  decide

end Sample

end Jetsam
