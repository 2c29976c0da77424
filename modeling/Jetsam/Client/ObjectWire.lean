import Jetsam.Consensus.Validation
import Jetsam.Tx.Wire

/-!
# Wire format of client objects

An object is a tag and a fixed payload. A block's objects are one section behind its records, absent
when there are none.
-/

namespace Jetsam

open Control Wire

def clientObjectsSectionMarker : Byte := 0xC1

namespace ClientObject

/-- Canonical bytes: the tag of the kind, then its payload. -/
def encode : ClientObject → List Byte
  | registration object =>
    [1] ++ digestBytes object.matrixDigest ++ digestBytes object.matrixFileRoot ++
      leBytes 4 object.matrixFileLen.toNat
  | submission object =>
    [2] ++ digestBytes object.matrixDigest ++ digestBytes object.ioCommitment
  | batchSubmission object =>
    [3] ++ digestBytes object.batchClass ++ digestBytes object.statementsRoot ++
      leBytes 4 object.count.toNat

def decode : Reader WireError ClientObject := do
  let tag ← takeByte
  if tag = 1 then do
    let matrixDigest ← takeDigest
    let matrixFileRoot ← takeDigest
    let matrixFileLen ← takeU32
    pure (registration ⟨matrixDigest, matrixFileRoot, matrixFileLen⟩)
  else if tag = 2 then do
    let matrixDigest ← takeDigest
    let ioCommitment ← takeDigest
    pure (submission ⟨matrixDigest, ioCommitment⟩)
  else if tag = 3 then do
    let batchClass ← takeDigest
    let statementsRoot ← takeDigest
    let count ← takeU32
    pure (batchSubmission ⟨batchClass, statementsRoot, count⟩)
  else
    check (.error .badMarker)

theorem length_encode (object : ClientObject) : object.encode.length = object.wireLen := by
  cases object <;> simp [encode, wireLen, digestBytes]

end ClientObject

theorem reads_clientObject : Reads ClientObject.decode (fun _ => True) ClientObject.encode := by
  intro input object rest
  simp only [ClientObject.decode, run_bind_eq_ok, reads_takeByte _ _ _, true_and]
  constructor
  · rintro ⟨tag, after, rfl, read⟩
    -- The payload that follows decides the kind, so each tag is read on its own.
    split_ifs at read with isRegistration isSubmission isBatch
    · simp only [run_bind_eq_ok, reads_takeDigest _ _ _, reads_takeU32 _ _ _, run_pure_eq_ok,
        true_and] at read
      obtain ⟨digest, _, rfl, fileRoot, _, rfl, fileLen, _, rfl, rfl, rfl⟩ := read
      simp [ClientObject.encode, isRegistration]
    · simp only [run_bind_eq_ok, reads_takeDigest _ _ _, run_pure_eq_ok, true_and] at read
      obtain ⟨digest, _, rfl, commitment, _, rfl, rfl, rfl⟩ := read
      simp [ClientObject.encode, isSubmission]
    · simp only [run_bind_eq_ok, reads_takeDigest _ _ _, reads_takeU32 _ _ _, run_pure_eq_ok,
        true_and] at read
      obtain ⟨batchClass, _, rfl, root, _, rfl, count, _, rfl, rfl, rfl⟩ := read
      simp [ClientObject.encode, isBatch]
    · simp at read
  · rintro rfl
    cases object with
    | registration object =>
      refine ⟨1, _, rfl, ?_⟩
      simp only [if_true, run_bind_eq_ok, reads_takeDigest _ _ _, reads_takeU32 _ _ _,
        run_pure_eq_ok, true_and]
      exact ⟨_, _, rfl, _, _, rfl, _, _, rfl, rfl, rfl⟩
    | submission object =>
      refine ⟨2, _, rfl, ?_⟩
      rw [if_neg (by decide), if_pos rfl]
      simp only [run_bind_eq_ok, reads_takeDigest _ _ _, run_pure_eq_ok, true_and]
      exact ⟨_, _, rfl, _, _, rfl, rfl, rfl⟩
    | batchSubmission object =>
      refine ⟨3, _, rfl, ?_⟩
      rw [if_neg (by decide), if_neg (by decide), if_pos rfl]
      simp only [run_bind_eq_ok, reads_takeDigest _ _ _, reads_takeU32 _ _ _, run_pure_eq_ok,
        true_and]
      exact ⟨_, _, rfl, _, _, rfl, _, _, rfl, rfl, rfl⟩

/-- The section of a list of objects; a list over the cap is not written. -/
def encodeClientObjectsSection (objects : List ClientObject) : Option (List Byte) :=
  if objects = [] then some []
  else if objects.length ≤ maxBlockClientObjects then
    some ([clientObjectsSectionMarker, BitVec.ofNat 8 objects.length] ++
      objects.flatMap ClientObject.encode)
  else none

/-- Read the section that follows the records of a block, to the end of the bytes. -/
def decodeClientObjectsSection : Reader WireError (List ClientObject) := fun input =>
  if input = [] then .ok ([], [])
  else
    (do
      let marker ← takeByte
      check (require (marker = clientObjectsSectionMarker) .badMarker)
      let count ← takeByte
      check (require (count ≠ 0 ∧ count.toNat ≤ maxBlockClientObjects) .lengthOverflow)
      let objects ← readMany ClientObject.decode count.toNat
      atEnd .trailingBytes
      pure objects : Reader WireError (List ClientObject)) input

variable {objects : List ClientObject}

theorem decodeClientObjectsSection_eq_ok {input rest : List Byte} :
    decodeClientObjectsSection input = .ok (objects, rest) ↔
      encodeClientObjectsSection objects = some input ∧ rest = [] := by
  by_cases empty : input = []
  · subst empty
    simp only [decodeClientObjectsSection, if_true, Except.ok.injEq, Prod.mk.injEq]
    constructor
    · rintro ⟨rfl, rfl⟩
      exact ⟨rfl, rfl⟩
    · rintro ⟨encoded, rfl⟩
      refine ⟨?_, rfl⟩
      by_contra some
      simp only [encodeClientObjectsSection, Ne.symm some, if_false] at encoded
      simp at encoded
  · simp only [decodeClientObjectsSection, empty, if_false, run_bind_eq_ok, reads_takeByte _ _ _,
      run_check_eq_ok, require_eq_ok, reads_clientObject.many _ _ _ _, run_atEnd_eq_ok,
      run_pure_eq_ok, true_and, implies_true, and_true]
    constructor
    · rintro ⟨_, _, rfl, _, _, ⟨rfl, rfl⟩, count, _, rfl, _, _, ⟨⟨some, small⟩, rfl⟩, objects, _,
        ⟨size, rfl⟩, _, _, ⟨rfl, rfl⟩, rfl, rfl⟩
      have nonempty : objects ≠ [] := by
        rintro rfl
        exact some (BitVec.eq_of_toNat_eq size.symm)
      rw [encodeClientObjectsSection, if_neg nonempty, if_pos (size ▸ small), size]
      simp
    · rintro ⟨encoded, rfl⟩
      simp only [encodeClientObjectsSection] at encoded
      split_ifs at encoded with none small
      · exact absurd (Option.some.inj encoded).symm empty
      · obtain rfl := Option.some.inj encoded
        have counted : (BitVec.ofNat 8 objects.length).toNat = objects.length := by
          rw [BitVec.toNat_ofNat, Nat.mod_eq_of_lt]
          exact small.trans_lt (by decide)
        refine ⟨_, _, rfl, (), _, ⟨rfl, rfl⟩, _, _, rfl, (), _,
          ⟨⟨?_, counted.trans_le small⟩, rfl⟩, objects, [], ⟨counted.symm, by simp⟩, (), [],
          ⟨rfl, rfl⟩, rfl, rfl⟩
        intro zero
        rw [zero] at counted
        exact none (List.eq_nil_of_length_eq_zero counted.symm)

theorem length_encodeClientObjectsSection {bytes : List Byte}
    (encoded : encodeClientObjectsSection objects = some bytes) :
    objects.length ≤ maxBlockClientObjects ∧
      bytes.length = if objects = [] then 0 else 2 + (objects.map ClientObject.wireLen).sum := by
  simp only [encodeClientObjectsSection] at encoded
  split_ifs at encoded ⊢ with none small
  · obtain rfl := Option.some.inj encoded
    simp [none]
  · obtain rfl := Option.some.inj encoded
    refine ⟨small, ?_⟩
    simp only [List.length_append, List.length_cons, List.length_nil, List.length_flatMap,
      ClientObject.length_encode]

theorem encodeClientObjectsSection_isSome (few : objects.length ≤ maxBlockClientObjects) :
    ∃ bytes, encodeClientObjectsSection objects = some bytes := by
  rw [encodeClientObjectsSection]
  split_ifs
  · exact ⟨_, rfl⟩
  · exact ⟨_, rfl⟩

theorem head_encodeClientObjectsSection {bytes : List Byte}
    (encoded : encodeClientObjectsSection objects = some bytes) :
    bytes.head? = if objects = [] then none else some clientObjectsSectionMarker := by
  simp only [encodeClientObjectsSection] at encoded
  split_ifs at encoded ⊢
  · obtain rfl := Option.some.inj encoded
    rfl
  · obtain rfl := Option.some.inj encoded
    rfl

end Jetsam
