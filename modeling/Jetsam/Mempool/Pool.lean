import Jetsam.Client.Block
import Jetsam.Control.InPlace
import Jetsam.Tx.Wire
import Mathlib.Data.List.AList

/-!
# The mempool

A conflict-free set of admitted groups with five indexes: the entries, the fee order, the two slot
maps and the value each owner is about to receive. Every operation updates them one by one.
-/

namespace Jetsam

open Control

/-- Key of the fee order: higher fee rates sort first, then the identifiers in byte order. -/
structure FeeKey where
  negFeeRate : Nat
  hash : Digest
  deriving DecidableEq

namespace FeeKey

def new (feeRate : Nat) (hash : Digest) : FeeKey := ⟨u64Max - feeRate, hash⟩

def rank (key : FeeKey) : Nat ×ₗ List Nat :=
  toLex (key.negFeeRate, (digestBytes key.hash).map BitVec.toNat)

end FeeKey

structure MempoolEntry where
  pages : List TxBody
  spend : PagedSpendFacts
  admittedHeight : Nat
  feeRate : Nat
  /-- Length of the authorization inside the retained intent; zero when none is retained. -/
  cachedAuthorizationLen : Nat
  intentBytes : List Wire.Byte
  deriving DecidableEq

namespace MempoolEntry

/-- Fee per weighted resource of a group; slots it adds to the state weigh more. -/
def computeFeeRate (spend : PagedSpendFacts) : Nat :=
  let netNewSlots := spend.liveOutputs - spend.liveInputs
  let weight := max (satAdd (satAdd spend.liveInputs spend.liveOutputs) (satMul netNewSlots 4)) 1
  spend.fee.toNat / weight

def new (hasher : TxHasher) (pages : List TxBody) (currentHeight : Nat) :
    Except PagedSpendError MempoolEntry := do
  let spend ← validatePagedSpend hasher pages
  return ⟨pages, spend, currentHeight, computeFeeRate spend, 0, []⟩

end MempoolEntry

inductive MempoolError where
  | alreadyAdmitted
  | inputConflict (conflictingHash : Digest)
  | outputConflict (conflictingHash : Digest)
  | full
  deriving DecidableEq

structure Mempool where
  entries : AList fun _ : Digest => MempoolEntry
  feeIndex : List (FeeKey × Digest)
  spentInputs : BitVec 32 → Option Digest
  mintedOutputs : BitVec 32 → Option Digest
  incomingValueByOwner : Address → Option Nat
  capacity : Nat

def setKeys {κ α : Type} [DecidableEq κ] (value : α) (table : κ → α) (keys : List κ) : κ → α :=
  keys.foldl (fun table key => Function.update table key value) table

/-- Count one output as incoming, unless its owner funds the group. -/
def addIncoming (funder : Address) (table : Address → Option Nat) (output : TxOutput) :
    Address → Option Nat :=
  if output.owner ≠ funder then
    Function.update table output.owner (some (match table output.owner with
      | some value => satAdd value output.amount.toNat
      | none => output.amount.toNat))
  else table

/-- Take one output off the incoming values; an owner with nothing left is dropped. -/
def subIncoming (funder : Address) (table : Address → Option Nat) (output : TxOutput) :
    Address → Option Nat :=
  if output.owner ≠ funder then
    match table output.owner with
    | some value =>
      let left := value - output.amount.toNat
      Function.update table output.owner (if left = 0 then none else some left)
    | none => table
  else table

/-- Offset of the authorization in the wire form of an intent with some pages. -/
def pagedSpendAuthorizationWireOffset (pageCount : Nat) : Option Nat :=
  if 1 ≤ pageCount ∧ pageCount ≤ maxPagedSpendPages then
    some (1 + 2 + pageCount * transactionWireSize + 4)
  else none

namespace Mempool

def new (capacity : Nat) : Mempool :=
  ⟨∅, [], fun _ => none, fun _ => none, fun _ => none, capacity⟩

def len (pool : Mempool) : Nat := pool.entries.entries.length

def contains (pool : Mempool) (hash : Digest) : Bool := (pool.entries.lookup hash).isSome

def inputConflict (pool : Mempool) (pages : List TxBody) : Option Digest :=
  (groupInputSlots pages).findSome? fun slot =>
    (pool.spentInputs slot).or (pool.mintedOutputs slot)

def outputConflict (pool : Mempool) (pages : List TxBody) : Option Digest :=
  (groupOutputSlots pages).findSome? fun slot =>
    (pool.mintedOutputs slot).or (pool.spentInputs slot)

/-- Enter the slots and the incoming values of one page. -/
def indexPage (hash : Digest) (funder : Address) (pool : Mempool) (page : TxBody) : Mempool :=
  { pool with
    spentInputs := setKeys (some hash) pool.spentInputs page.inputSlots
    mintedOutputs := setKeys (some hash) pool.mintedOutputs page.outputSlots
    incomingValueByOwner :=
      (page.liveOutputs.map Prod.snd).foldl (addIncoming funder) pool.incomingValueByOwner }

/-- Take the slots and the incoming values of one page out again. -/
def unindexPage (funder : Address) (pool : Mempool) (page : TxBody) : Mempool :=
  { pool with
    spentInputs := setKeys none pool.spentInputs page.inputSlots
    mintedOutputs := setKeys none pool.mintedOutputs page.outputSlots
    incomingValueByOwner :=
      (page.liveOutputs.map Prod.snd).foldl (subIncoming funder) pool.incomingValueByOwner }

def insertFeeKey (key : FeeKey) (hash : Digest) (index : List (FeeKey × Digest)) :
    List (FeeKey × Digest) :=
  (index.filter (·.1 ≠ key)).orderedInsert
    (fun left right => left.1.rank ≤ right.1.rank) (key, hash)

/-- Admit a complete group; a group that is not valid is a panic of the caller. -/
def admitPages (hasher : TxHasher) (pages : List TxBody) (currentHeight : Nat) :
    InPlace Mempool MempoolError Unit := do
  let pool ← .get
  .lift (require (pool.len < pool.capacity) .full)
  let entry ← (InPlace.lift (MempoolEntry.new hasher pages currentHeight)).expect
  let hash := entry.spend.logicalTxid
  .lift (require (pool.contains hash = false) .alreadyAdmitted)
  .lift (requireNone (pool.inputConflict entry.pages) .inputConflict)
  .lift (requireNone (pool.outputConflict entry.pages) .outputConflict)
  .each (fun page => .update fun pool => pool.indexPage hash entry.spend.inputOwner page)
    entry.pages
  .update fun pool =>
    { pool with feeIndex := insertFeeKey (.new entry.feeRate hash) hash pool.feeIndex }
  .update fun pool => { pool with entries := pool.entries.insert hash entry }

def remove (pool : Mempool) (hash : Digest) : Option MempoolEntry × Mempool :=
  match pool.entries.lookup hash with
  | none => (none, pool)
  | some entry =>
    let pool := { pool with
      entries := pool.entries.erase hash
      feeIndex := pool.feeIndex.filter (·.1 ≠ FeeKey.new entry.feeRate hash) }
    (some entry, entry.pages.foldl (unindexPage entry.spend.inputOwner) pool)

def removeAll (pool : Mempool) (hashes : List Digest) : Mempool :=
  hashes.foldl (fun pool hash => (pool.remove hash).2) pool

def hashesWhere (pool : Mempool) (condition : MempoolEntry → Bool) : List Digest :=
  (pool.entries.entries.filter fun stored => condition stored.2).map Sigma.fst

def evictWrongAnchor (pool : Mempool) (currentAnchor : Digest) : List Digest × Mempool :=
  let expired := pool.hashesWhere fun entry => entry.spend.epochAnchor ≠ currentAnchor
  (expired, pool.removeAll expired)

/-- Remove the groups of a confirmed block; the number of those that were in the pool. -/
def onBlockConfirmed (pool : Mempool) : List Digest → Nat × Mempool
  | [] => (0, pool)
  | hash :: confirmed =>
    let (removed, pool) := pool.remove hash
    let (count, pool) := pool.onBlockConfirmed confirmed
    (count + removed.isSome.toNat, pool)

/-- Pack entries in fee order while pages remain. -/
def packPages (pool : Mempool) (keep : MempoolEntry → Bool) :
    Nat → List Digest → List MempoolEntry
  | _, [] => []
  | remaining, hash :: rest =>
    match pool.entries.lookup hash with
    | none => pool.packPages keep remaining rest
    | some entry =>
      if !keep entry then pool.packPages keep remaining rest
      else if remaining < entry.pages.length then pool.packPages keep remaining rest
      else if remaining - entry.pages.length = 0 then [entry]
      else entry :: pool.packPages keep (remaining - entry.pages.length) rest

/-- Complete groups that meet a condition, in fee order, within a page budget. -/
def selectForBlockMatching (pool : Mempool) (maxPages : Nat) (keep : MempoolEntry → Bool) :
    List MempoolEntry :=
  pool.packPages keep (min maxPages blockMaxUserPages) (pool.feeIndex.map Prod.snd)

/-- Retain the wire form of an admitted group, of which the authorization is the last part. -/
def setIntentBytes (pool : Mempool) (hash : Digest) (bytes : List Wire.Byte) : Mempool :=
  match pool.entries.lookup hash with
  | none => pool
  | some entry =>
    let authorizationLen := do
      let offset ← pagedSpendAuthorizationWireOffset entry.pages.length
      let length ← checkedSub bytes.length offset
      if length < 2 ^ 32 then some length else none
    { pool with
      entries := pool.entries.replace hash { entry with
        cachedAuthorizationLen := authorizationLen.getD 0
        intentBytes := bytes } }

def totalIntentBytes (pool : Mempool) : Nat :=
  (pool.entries.entries.map fun stored => stored.2.intentBytes.length).sum

def pendingIncomingForOwner (pool : Mempool) (owner : Address) : Nat :=
  (pool.incomingValueByOwner owner).getD 0

end Mempool
end Jetsam
