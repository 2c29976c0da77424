import Jetsam.Tx.Body

/-!
# The Poseidon2b sponge

Four lanes, rate two, capacity two. The permutation is a parameter.
-/

namespace Jetsam

/-- The four lanes of a sponge state. -/
structure Lanes (F : Type) where
  rate0 : F
  rate1 : F
  capacity0 : F
  capacity1 : F
  deriving DecidableEq

/-- What the transaction layer takes from its hash: the body hash and the sponge permutation. -/
structure TxHasher where
  /-- Body hash of a page, its transaction identifier. -/
  bodyHash : TxBody → Digest
  /-- The Poseidon2b permutation on tower lanes. -/
  permute : Lanes Block128 → Lanes Block128

def digestOfFields (low high : Block128) : Digest :=
  (high.setWidth 256 <<< 128) ||| low.setWidth 256

/-- Capacity words of a domain label. -/
def capacityIv (label : BitVec 64) : Block128 × Block128 :=
  (label.setWidth 128 <<< 64, label.setWidth 128)

def spongeWithIv (iv : Block128 × Block128) : Lanes Block128 :=
  ⟨0, 0, iv.1, iv.2⟩

def absorbPair (permute : Lanes Block128 → Lanes Block128) (state : Lanes Block128)
    (pair : Block128 × Block128) : Lanes Block128 :=
  permute { state with rate0 := state.rate0 ^^^ pair.1, rate1 := state.rate1 ^^^ pair.2 }

/-- The padding block of an empty buffer: `0x80` in its first byte, `0x01` in its last. -/
def spongePad : Block128 × Block128 := (0x80, 1 <<< 120)

def spongeFinalize (permute : Lanes Block128 → Lanes Block128) (state : Lanes Block128) : Digest :=
  let squeezed := absorbPair permute state spongePad
  digestOfFields squeezed.rate0 squeezed.rate1

def tagPagedSpend : BitVec 64 := 0x504147454454585f

/-- Format version absorbed before the page count. -/
def pagedSpendVersion : Block128 := 1

/-- Sponge state after the version and the page count were absorbed. -/
def pagedSpendStart (permute : Lanes Block128 → Lanes Block128) (pageCount : Nat) :
    Lanes Block128 :=
  absorbPair permute (spongeWithIv (capacityIv tagPagedSpend))
    (pagedSpendVersion, BitVec.ofNat 128 pageCount)

/-- Logical transaction identifier of a page group. -/
def hashPagedSpendUnchecked (hasher : TxHasher) (pages : List TxBody) : Digest :=
  let start := pagedSpendStart hasher.permute pages.length
  let absorbed := pages.foldl
    (fun state page => absorbPair hasher.permute state (asFields (hasher.bodyHash page))) start
  spongeFinalize hasher.permute absorbed

end Jetsam
