import Jetsam.Tx.Sponge
import Jetsam.Wire.Reader

/-!
# The byte sponge

The tower and the flat sponge buffer bytes alike and differ only in their permutation, which is a
parameter. However the bytes are cut into updates, a sponge absorbs the padded blocks of their
concatenation, which determine the bytes.
-/

namespace Jetsam

open Wire List

/-- A sponge with a buffer of one rate block; beyond the filled bytes it holds old ones. -/
structure ByteSponge where
  state : Lanes Block128
  buffer : List Byte
  filledBytes : ℕ

def byteSpongeWithIv (iv : Block128 × Block128) : ByteSponge :=
  ⟨spongeWithIv iv, List.replicate 32 0, 0⟩

def copyInto (buffer : List Byte) (start : ℕ) (bytes : List Byte) : List Byte :=
  buffer.take start ++ bytes ++ buffer.drop (start + bytes.length)

section Source

variable (permute : Lanes Block128 → Lanes Block128)

def absorbBlock (state : Lanes Block128) (block : List Byte) : Lanes Block128 :=
  absorbPair permute state
    (BitVec.ofNat 128 (ofLeBytes (block.take 16)),
      BitVec.ofNat 128 (ofLeBytes ((block.drop 16).take 16)))

def permuteBuffer (sponge : ByteSponge) : ByteSponge :=
  { sponge with state := absorbBlock permute sponge.state sponge.buffer }

/-- Append to a started block, and absorb the block when it is full. -/
def topUp (sponge : ByteSponge) (bytes : List Byte) : ByteSponge :=
  let filled : ByteSponge :=
    { sponge with
      buffer := copyInto sponge.buffer sponge.filledBytes bytes
      filledBytes := sponge.filledBytes + bytes.length }
  if filled.filledBytes = 32 then { permuteBuffer permute filled with filledBytes := 0 } else filled

/-- Absorb the given number of whole chunks and buffer what remains. -/
def absorbChunks : ℕ → ByteSponge → List Byte → ByteSponge
  | 0, sponge, remaining =>
    if remaining = [] then sponge
    else
      { sponge with
        buffer := copyInto sponge.buffer 0 remaining
        filledBytes := remaining.length }
  | count + 1, sponge, data =>
    absorbChunks count (permuteBuffer permute { sponge with buffer := data.take 32 })
      (data.drop 32)

def spongeUpdate (sponge : ByteSponge) (data : List Byte) : ByteSponge :=
  if sponge.filledBytes ≠ 0 then
    let toCopy := min data.length (32 - sponge.filledBytes)
    let rest := data.drop toCopy
    absorbChunks permute (rest.length / 32) (topUp permute sponge (data.take toCopy)) rest
  else absorbChunks permute (data.length / 32) sponge data

/-- A slice of padding: both markers on zeros, which coincide in a single byte. -/
def fillPadding (length : ℕ) : List Byte :=
  ((List.replicate length 0).modify 0 (· ||| 0x80)).modify (length - 1) (· ||| 0x01)

/-- Pad, permute and squeeze. -/
def byteSpongeFinalize (sponge : ByteSponge) : Digest :=
  let padding := fillPadding (32 - sponge.filledBytes)
  let last := permuteBuffer permute
    { sponge with buffer := copyInto sponge.buffer sponge.filledBytes padding }
  digestOfFields last.state.rate0 last.state.rate1

def tagBytehash : BitVec 64 := 0x455f425954454853

/-- The updates of the hash of byte slices. -/
def byteSliceUpdates (domain : List Byte) (pieces : List (List Byte)) : List (List Byte) :=
  [leBytes 8 domain.length, domain, leBytes 8 pieces.length] ++
    pieces.flatMap fun piece => [leBytes 8 piece.length, piece]

def poseidon2bHashByteSlices (domain : List Byte) (pieces : List (List Byte)) : Digest :=
  byteSpongeFinalize permute ((byteSliceUpdates domain pieces).foldl (spongeUpdate permute)
    (byteSpongeWithIv (capacityIv tagBytehash)))

end Source

section Feeding

/-- Blocks filled so far, and the bytes of the next one. -/
abbrev Filling := List (List Byte) × List Byte

def pushByte (filling : Filling) (byte : Byte) : Filling :=
  if filling.2.length = 31 then (filling.1 ++ [filling.2 ++ [byte]], [])
  else (filling.1, filling.2 ++ [byte])

def feed (filling : Filling) (bytes : List Byte) : Filling := bytes.foldl pushByte filling

/-- The blocks absorbed for a byte string, with the padded last one. -/
def paddedBlocks (bytes : List Byte) : List (List Byte) :=
  let filling := feed ([], []) bytes
  filling.1 ++ [filling.2 ++ fillPadding (32 - filling.2.length)]

/-- The digest of blocks absorbed from capacity words. -/
def blocksDigest (permute : Lanes Block128 → Lanes Block128) (iv : Block128 × Block128)
    (blocks : List (List Byte)) : Digest :=
  let absorbed := blocks.foldl (absorbBlock permute) (spongeWithIv iv)
  digestOfFields absorbed.rate0 absorbed.rate1

variable {filling : Filling} {bytes : List Byte}

theorem feed_append (filling : Filling) (bytes more : List Byte) :
    feed filling (bytes ++ more) = feed (feed filling bytes) more := foldl_append

theorem feed_short (short : filling.2.length + bytes.length < 32) :
    feed filling bytes = (filling.1, filling.2 ++ bytes) := by
  induction bytes generalizing filling with
  | nil => simp [feed]
  | cons byte bytes ih =>
    rw [length_cons] at short
    have step : pushByte filling byte = (filling.1, filling.2 ++ [byte]) := if_neg (by omega)
    have later : (pushByte filling byte).2.length + bytes.length < 32 := by
      rw [step, length_append, length_singleton]
      omega
    refine (ih later).trans ?_
    rw [step, append_assoc, singleton_append]

theorem feed_full (started : filling.2.length < 32)
    (full : filling.2.length + bytes.length = 32) :
    feed filling bytes = (filling.1 ++ [filling.2 ++ bytes], []) := by
  obtain rfl | ⟨initial, byte, rfl⟩ := bytes.eq_nil_or_concat'
  · rw [length_nil] at full
    omega
  · rw [length_append, length_singleton] at full
    have before : feed filling initial = (filling.1, filling.2 ++ initial) :=
      feed_short (by omega)
    rw [feed_append, before, ← append_assoc]
    refine if_pos ?_
    rw [length_append]
    omega

theorem feed_bytes (filling : Filling) (bytes : List Byte) (started : filling.2.length < 32) :
    (feed filling bytes).1.flatten ++ (feed filling bytes).2 =
        filling.1.flatten ++ filling.2 ++ bytes ∧
      (feed filling bytes).2.length < 32 := by
  induction bytes generalizing filling with
  | nil => simpa [feed] using started
  | cons byte bytes ih =>
    by_cases full : filling.2.length = 31
    · have step : pushByte filling byte = (filling.1 ++ [filling.2 ++ [byte]], []) := if_pos full
      have rest := ih (pushByte filling byte) (by simp [step])
      simpa [feed, step] using rest
    · have step : pushByte filling byte = (filling.1, filling.2 ++ [byte]) := if_neg full
      have rest := ih (pushByte filling byte) (by simp [step]; omega)
      simpa [feed, step] using rest

end Feeding

section Refinement

variable {permute : Lanes Block128 → Lanes Block128} {start : Lanes Block128}
  {sponge : ByteSponge} {filling : Filling} {bytes : List Byte}

/-- A sponge that absorbed the filled blocks and buffers the started one. -/
structure Feeds (permute : Lanes Block128 → Lanes Block128) (start : Lanes Block128)
    (sponge : ByteSponge) (filling : Filling) : Prop where
  state : sponge.state = filling.1.foldl (absorbBlock permute) start
  pending : sponge.buffer.take sponge.filledBytes = filling.2
  whole : sponge.buffer.length = 32
  started : sponge.filledBytes < 32

section

variable (feeds : Feeds permute start sponge filling)

include feeds

theorem Feeds.length :
    filling.2.length = sponge.filledBytes := by
  rw [← feeds.pending, length_take, feeds.whole]
  exact min_eq_left feeds.started.le

/-- Writing at the end of the started block extends it and keeps the buffer's length. -/
theorem Feeds.copyInto (bytes : List Byte) (fits : sponge.filledBytes + bytes.length ≤ 32) :
    (copyInto sponge.buffer sponge.filledBytes bytes).length = 32 ∧
      (copyInto sponge.buffer sponge.filledBytes bytes).take (sponge.filledBytes + bytes.length) =
        filling.2 ++ bytes := by
  have whole := feeds.whole
  have size : (filling.2 ++ bytes).length = sponge.filledBytes + bytes.length := by
    rw [length_append, feeds.length]
  rw [Jetsam.copyInto, feeds.pending, ← size, take_left]
  refine ⟨?_, rfl⟩
  rw [length_append, length_drop]
  omega

theorem Feeds.topUp (fits : sponge.filledBytes + bytes.length ≤ 32) :
    Feeds permute start (topUp permute sponge bytes) (feed filling bytes) := by
  obtain ⟨size, front⟩ := feeds.copyInto bytes fits
  have pending := feeds.length
  rw [Jetsam.topUp]
  split
  next full =>
    dsimp only at full
    rw [feed_full (pending ▸ feeds.started) (by omega)]
    refine ⟨?_, rfl, size, Nat.zero_lt_succ 31⟩
    rw [full, take_of_length_le size.le] at front
    rw [foldl_append, ← feeds.state, ← front]
    rfl
  next partly =>
    dsimp only at partly
    rw [feed_short (by omega)]
    exact ⟨feeds.state, front, size, by dsimp only; omega⟩

end

theorem Feeds.absorbChunks (count : ℕ) (feeds : Feeds permute start sponge filling)
    (aligned : sponge.filledBytes = 0 ∨ bytes = []) (chunks : bytes.length / 32 = count) :
    Feeds permute start (absorbChunks permute count sponge bytes) (feed filling bytes) := by
  induction count generalizing sponge filling bytes with
  | zero =>
    rw [Jetsam.absorbChunks]
    split
    next empty => simpa [empty, feed] using feeds
    next some =>
      have empty := aligned.resolve_right some
      have pending := feeds.length
      obtain ⟨size, front⟩ := feeds.copyInto bytes (by omega)
      rw [empty] at size front
      rw [zero_add] at front
      rw [feed_short (by omega)]
      exact ⟨feeds.state, front, size, by dsimp only; omega⟩
  | succ count ih =>
    have empty := aligned.resolve_right (by rintro rfl; simp at chunks)
    have none : filling.2 = [] := eq_nil_of_length_eq_zero (feeds.length.trans empty)
    have chunk : (bytes.take 32).length = 32 := by
      rw [length_take]
      omega
    have first : feed filling (bytes.take 32) = (filling.1 ++ [bytes.take 32], []) := by
      rw [feed_full (by simp [none]) (by simp [none, chunk]), none, nil_append]
    rw [← take_append_drop 32 bytes, feed_append, first, take_append_drop,
      Jetsam.absorbChunks]
    refine ih ⟨?_, ?_, chunk, ?_⟩ (Or.inl empty) (by rw [length_drop]; omega)
    · rw [permuteBuffer, foldl_append, ← feeds.state]
      rfl
    · rw [permuteBuffer, empty, take_zero]
    · exact empty.trans_lt (by decide)

section

variable (feeds : Feeds permute start sponge filling)

include feeds

theorem Feeds.update (data : List Byte) :
    Feeds permute start (spongeUpdate permute sponge data) (feed filling data) := by
  rw [spongeUpdate]
  split
  next =>
    have started := feeds.started
    set toCopy := min data.length (32 - sponge.filledBytes)
    have size : (data.take toCopy).length = toCopy := by
      rw [length_take]
      omega
    conv_rhs => rw [← take_append_drop toCopy data, feed_append]
    refine (feeds.topUp (by omega)).absorbChunks _ ?_ rfl
    rcases lt_or_ge data.length (32 - sponge.filledBytes) with short | enough
    · exact Or.inr (drop_of_length_le (by omega))
    · left
      rw [Jetsam.topUp, if_pos (by dsimp only; omega)]
  next aligned => exact feeds.absorbChunks _ (Or.inl (not_not.mp aligned)) rfl

theorem Feeds.updates (updates : List (List Byte)) :
    Feeds permute start (updates.foldl (spongeUpdate permute) sponge)
      (feed filling updates.flatten) := by
  induction updates generalizing sponge filling with
  | nil => exact feeds
  | cons data updates ih =>
    rw [flatten_cons, feed_append]
    exact ih (feeds.update data)

/-- Finalizing absorbs the started block with its padding. -/
theorem Feeds.finalize :
    (permuteBuffer permute { sponge with
      buffer := Jetsam.copyInto sponge.buffer sponge.filledBytes
        (fillPadding (32 - sponge.filledBytes)) }).state =
      (filling.1 ++ [filling.2 ++ fillPadding (32 - filling.2.length)]).foldl
        (absorbBlock permute) start := by
  have started := feeds.started
  have padding : (fillPadding (32 - sponge.filledBytes)).length = 32 - sponge.filledBytes := by
    simp [fillPadding]
  obtain ⟨size, front⟩ := feeds.copyInto (fillPadding (32 - sponge.filledBytes)) (by omega)
  rw [padding, Nat.add_sub_cancel' started.le, take_of_length_le size.le] at front
  rw [foldl_append, ← feeds.state, feeds.length, ← front]
  rfl

end

/-- The digest of the bytes of several updates is that of the padded blocks of all the bytes. -/
theorem byteSpongeFinalize_updates (iv : Block128 × Block128) (updates : List (List Byte)) :
    byteSpongeFinalize permute (updates.foldl (spongeUpdate permute) (byteSpongeWithIv iv)) =
      blocksDigest permute iv (paddedBlocks updates.flatten) := by
  have fresh : Feeds permute (spongeWithIv iv) (byteSpongeWithIv iv) ([], []) :=
    ⟨rfl, rfl, rfl, Nat.zero_lt_succ 31⟩
  rw [byteSpongeFinalize, (fresh.updates updates).finalize]
  rfl

end Refinement

section Padding

/-- Remove the padding of a reversed byte string. -/
def unpadReversed : List Byte → List Byte
  | [] => []
  | last :: bytes => if last = 0x81 then bytes else (bytes.dropWhile (· = 0)).tail

theorem unpadReversed_fillPadding (bytes : List Byte) {length : ℕ} (pos : 0 < length) :
    unpadReversed (bytes ++ fillPadding length).reverse = bytes.reverse := by
  obtain _ | _ | length := length
  · omega
  · simp [fillPadding, unpadReversed]
  · have padding : fillPadding (length + 2) = 0x80 :: (List.replicate length 0 ++ [0x01]) := by
      have last : ((List.replicate length (0 : Byte) ++ [0]).modify length (· ||| 1)) =
          List.replicate length 0 ++ [1] := by
        induction length with
        | zero => rfl
        | succ length ih => simpa [replicate_succ] using ih
      rw [fillPadding, replicate_succ, replicate_succ', modify_zero_cons]
      exact congrArg (List.cons _) last
    simp [padding, unpadReversed]

theorem paddedBlocks_injective : Function.Injective paddedBlocks := by
  have strip (bytes : List Byte) :
      unpadReversed (paddedBlocks bytes).flatten.reverse = bytes.reverse := by
    obtain ⟨kept, started⟩ := feed_bytes ([], []) bytes (by decide)
    rw [paddedBlocks, flatten_append, flatten_singleton, ← append_assoc, kept]
    exact unpadReversed_fillPadding bytes (by omega)
  intro bytes other same
  exact reverse_injective ((strip bytes).symm.trans (same ▸ strip other))

end Padding

section Slices

/-- Lengths that a machine word holds. -/
def SliceLengths (domain : List Byte) (pieces : List (List Byte)) : Prop :=
  domain.length < 2 ^ 64 ∧ pieces.length < 2 ^ 64 ∧ ∀ piece ∈ pieces, piece.length < 2 ^ 64

theorem leBytes_append_inj {count other : ℕ} {rest more : List Byte} (fits : count < 2 ^ 64)
    (otherFits : other < 2 ^ 64) (same : leBytes 8 count ++ rest = leBytes 8 other ++ more) :
    count = other ∧ rest = more := by
  obtain ⟨counts, rests⟩ := append_inj same (by simp)
  refine ⟨?_, rests⟩
  have read : ofLeBytes (leBytes 8 count) = count := ofLeBytes_leBytes fits
  rw [← read, counts, ofLeBytes_leBytes otherFits]

theorem slice_append_inj {bytes other rest more : List Byte} (fits : bytes.length < 2 ^ 64)
    (otherFits : other.length < 2 ^ 64)
    (same : leBytes 8 bytes.length ++ (bytes ++ rest) = leBytes 8 other.length ++ (other ++ more)) :
    bytes = other ∧ rest = more := by
  obtain ⟨size, tails⟩ := leBytes_append_inj fits otherFits same
  exact append_inj tails size

theorem pieces_inj {pieces others : List (List Byte)} (size : pieces.length = others.length)
    (fits : ∀ piece ∈ pieces, piece.length < 2 ^ 64)
    (otherFits : ∀ piece ∈ others, piece.length < 2 ^ 64)
    (same : (pieces.flatMap fun piece => [leBytes 8 piece.length, piece]).flatten =
      (others.flatMap fun piece => [leBytes 8 piece.length, piece]).flatten) : pieces = others := by
  induction pieces generalizing others with
  | nil => exact (eq_nil_of_length_eq_zero size.symm).symm
  | cons piece pieces ih =>
    obtain _ | ⟨other, others⟩ := others
    · simp at size
    obtain ⟨here, later⟩ := forall_mem_cons.mp fits
    obtain ⟨otherHere, otherLater⟩ := forall_mem_cons.mp otherFits
    obtain ⟨rfl, rest⟩ := slice_append_inj here otherHere (by simpa using same)
    rw [ih (by simpa using size) later otherLater rest]

theorem byteSliceUpdates_inj {domain other : List Byte} {pieces others : List (List Byte)}
    (fits : SliceLengths domain pieces) (otherFits : SliceLengths other others)
    (same : (byteSliceUpdates domain pieces).flatten = (byteSliceUpdates other others).flatten) :
    domain = other ∧ pieces = others := by
  obtain ⟨domainFits, countFits, pieceFits⟩ := fits
  obtain ⟨otherDomain, otherCount, otherPieces⟩ := otherFits
  obtain ⟨domains, rest⟩ := slice_append_inj domainFits otherDomain same
  obtain ⟨size, slices⟩ := leBytes_append_inj countFits otherCount rest
  exact ⟨domains, pieces_inj size pieceFits otherPieces slices⟩

end Slices

/-- Digests are functions of the padded blocks of the concatenated updates, and these blocks
determine the bytes, the domain and the slices. -/
theorem byteSponge_blocks (permute : Lanes Block128 → Lanes Block128) (iv : Block128 × Block128) :
    (∀ updates : List (List Byte), byteSpongeFinalize permute
      (updates.foldl (spongeUpdate permute) (byteSpongeWithIv iv)) =
        blocksDigest permute iv (paddedBlocks updates.flatten)) ∧
    (∀ updates others : List (List Byte), updates.flatten = others.flatten →
      byteSpongeFinalize permute (updates.foldl (spongeUpdate permute) (byteSpongeWithIv iv)) =
        byteSpongeFinalize permute (others.foldl (spongeUpdate permute) (byteSpongeWithIv iv))) ∧
    (∀ bytes other, bytes ≠ other → paddedBlocks bytes ≠ paddedBlocks other) ∧
    (∀ domain pieces, poseidon2bHashByteSlices permute domain pieces =
      blocksDigest permute (capacityIv tagBytehash)
        (paddedBlocks (byteSliceUpdates domain pieces).flatten)) ∧
    (∀ domain pieces other others, SliceLengths domain pieces → SliceLengths other others →
      (domain, pieces) ≠ (other, others) →
        paddedBlocks (byteSliceUpdates domain pieces).flatten ≠
          paddedBlocks (byteSliceUpdates other others).flatten) := by
  refine ⟨byteSpongeFinalize_updates iv, fun updates others same => ?_,
    fun _ _ => paddedBlocks_injective.ne, fun _ _ => byteSpongeFinalize_updates _ _,
    fun domain pieces other others fits otherFits different same => different ?_⟩
  · rw [byteSpongeFinalize_updates, byteSpongeFinalize_updates, same]
  · obtain ⟨rfl, rfl⟩ := byteSliceUpdates_inj fits otherFits (paddedBlocks_injective same)
    rfl

end Jetsam
