import Jetsam.Algebra.BinarySums
import Jetsam.Capsule.BinaryRank

/-!
# The affine code

A message of `2 ^ 11` field elements is padded to `2 ^ 16` and transformed by layers of butterflies
whose factors are the values of the scaled subspace polynomials on the affine domain `beta + span (b
0, …, b 15)`.
-/

namespace Jetsam

open BinaryField List

def affineCodeMessageLog : ℕ := 11

def affineCodeLogRate : ℕ := 5

def affineCodeLogLen : ℕ := affineCodeMessageLog + affineCodeLogRate

def affineCodeMessageLen : ℕ := 2 ^ affineCodeMessageLog

def affineCodeLen : ℕ := 2 ^ affineCodeLogLen

def affineFundamentalLog : ℕ := 9

/-- The number of message cells that hide the queried positions. -/
def affineRankRandomBlockLen : ℕ := 2 ^ 10

/-- The first of these cells. -/
def affineRankRandomBlockStart : ℕ := affineCodeMessageLen - affineRankRandomBlockLen

/-- The level of the polynomial that stands in front of these cells. -/
def affineRankFactorLevel : ℕ := 10

inductive ZkAffineCodeError
  | basisRank (expected actual : ℕ)
  | betaInCodeSpan
  | betaInFundamentalSpan
  | zeroSubspaceNormalizer
  | messageLength (expected actual : ℕ)
  | foldCountOutOfRange
  | domainIndexOutOfRange
  | layerOutOfRange
  | blockOutOfRange
  | cosetLength (expected actual : ℕ)
  | cosetIndexOutOfRange
  | tooManyDistinctQueries (max actual : ℕ)
  | rankFactorVanished
deriving DecidableEq

/-- Add the values whose bit is set in the index. -/
def addSelected {K : Type} [Add K] (start : K) (values : List K) (index : ℕ) : K :=
  values.zipIdx.foldl
    (fun point entry => if index.testBit entry.2 then point + entry.1 else point) start

theorem addSelected_range {K : Type} [Field K] (start : K) (f : ℕ → K) (count index : ℕ) :
    addSelected start ((List.range count).map f) index = start + combine f count index := by
  induction count with
  | zero => simp [addSelected, combine]
  | succ count ih =>
    rw [addSelected] at ih ⊢
    rw [range_succ, map_append, zipIdx_append, foldl_append, ih,
      combine_succ, length_map, length_range]
    simp only [map_cons, map_nil, zipIdx_cons, zipIdx_nil, foldl_cons, foldl_nil, zero_add]
    split
    · rw [add_assoc]
    · rw [add_zero]

/-- The next row of raw values: the head of the row is the root. -/
def nextRow {K : Type} [Add K] [Mul K] : List K → List K
  | [] => []
  | root :: rest => rest.map fun value => value * (value + root)

/-- The values of the subspace polynomial of a level at the basis elements above it. -/
def rawRow {K : Type} [Add K] [Mul K] (basis : List K) : ℕ → List K
  | 0 => basis
  | level + 1 => nextRow (rawRow basis level)

def normalizer {K : Type} [Field K] (basis : List K) (level : ℕ) : K := (rawRow basis level).headD 0

def betaRaw {K : Type} [Field K] (basis : List K) (beta : K) : ℕ → K
  | 0 => beta
  | level + 1 =>
    betaRaw basis beta level * (betaRaw basis beta level + normalizer basis level)

theorem rawRow_range {K : Type} [Field K] [CharP K 2] (b : ℕ → K) (count level : ℕ) :
    rawRow ((List.range count).map b) level =
      (List.range (count - level)).map fun index => subspaceEval b level (b (level + index)) := by
  induction level with
  | zero => simp only [rawRow, Nat.sub_zero, subspaceEval, Nat.zero_add]
  | succ level ih =>
    rw [rawRow, ih]
    rcases lt_or_ge level count with below | above
    · obtain ⟨left, rest⟩ : ∃ left, count - level = left + 1 := ⟨count - level - 1, by omega⟩
      have shorter : count - (level + 1) = left := by omega
      rw [rest, shorter, range_succ_eq_map, map_cons, nextRow, map_map, map_map]
      apply map_congr_left
      intro index _
      simp only [Function.comp_apply, subspaceEval, add_zero, Nat.succ_eq_add_one]
      rw [show level + (index + 1) = level + 1 + index by omega]
    · rw [Nat.sub_eq_zero_of_le above, Nat.sub_eq_zero_of_le (Nat.le_succ_of_le above)]
      rfl

variable {count level : ℕ}

theorem normalizer_range {K : Type} [Field K] [CharP K 2] (b : ℕ → K) (below : level < count) :
    normalizer ((List.range count).map b) level = subspaceEval b level (b level) := by
  obtain ⟨left, rest⟩ : ∃ left, count - level = left + 1 := ⟨count - level - 1, by omega⟩
  rw [normalizer, rawRow_range, rest, range_succ_eq_map, map_cons]
  rfl

theorem betaRaw_range {K : Type} [Field K] [CharP K 2] (b : ℕ → K) (beta : K)
    (below : level ≤ count) :
    betaRaw ((List.range count).map b) beta level = subspaceEval b level beta := by
  induction level with
  | zero => rfl
  | succ level ih =>
    rw [betaRaw, ih (Nat.le_of_succ_le below), normalizer_range b below, subspaceEval]

/-- A checked affine domain: the levels can be scaled, and `beta` is no sum of the sixteen basis
elements. -/
structure ZkAffineLchCode (K : Type) [Field K] where
  basis : ℕ → K
  beta : K
  nonzero : ∀ level < affineCodeLogLen, subspaceEval basis level (basis level) ≠ 0
  outside : ∀ mask, beta ≠ combine basis affineCodeLogLen mask

variable {K : Type} [Field K] [CharP K 2] [DecidableEq K]

/-- Check the rank of the basis, the place of `beta` and the normalizers. -/
def ZkAffineLchCode.checked (words : WordBasis K 128) (basis : ℕ → K) (beta : K) :
    Except ZkAffineCodeError (ZkAffineLchCode K) :=
  let elements := (List.range affineCodeLogLen).map basis
  let flat := (List.range affineCodeLogLen).map fun index => words.toWord (basis index)
  if binaryRank flat ≠ affineCodeLogLen then
    .error (.basisRank affineCodeLogLen (binaryRank flat))
  else if code : binarySpanContains flat (words.toWord beta) = true then
    .error .betaInCodeSpan
  else if binarySpanContains (flat.take affineFundamentalLog) (words.toWord beta) = true then
    .error .betaInFundamentalSpan
  else if scaled : ∀ level < affineCodeLogLen, normalizer elements level ≠ 0 then
    .ok
      { basis := basis
        beta := beta
        nonzero := fun level below => normalizer_range basis below ▸ scaled level below
        outside := ne_combine_of_binarySpanContains words (Bool.eq_false_of_not_eq_true code) }
  else .error .zeroSubspaceNormalizer

omit [CharP K 2] [DecidableEq K] in
def selectedBasis (words : WordBasis K 128) (index : ℕ) : K :=
  words.toWord.symm (1#128 <<< index)

omit [CharP K 2] [DecidableEq K] in
def selectedBeta (words : WordBasis K 128) : K :=
  words.toWord.symm (1#128 <<< affineCodeLogLen)

namespace ZkAffineLchCode

/-- The code that the protocol uses. -/
def selected (words : WordBasis K 128) : Except ZkAffineCodeError (ZkAffineLchCode K) :=
  checked words (selectedBasis words) (selectedBeta words)

omit [CharP K 2] [DecidableEq K] in
def elements (code : ZkAffineLchCode K) : List K := (List.range affineCodeLogLen).map code.basis

/-- An entry of the table of twiddles: the scaled value at the point of the block. -/
def twiddleEntry (code : ZkAffineLchCode K) (layer block : ℕ) : K :=
  let level := affineCodeLogLen - layer - 1
  let inverse := (normalizer code.elements level)⁻¹
  addSelected (betaRaw code.elements code.beta level * inverse)
    ((rawRow code.elements level).tail.map fun value => value * inverse) block

variable {L : Type} [Field L] [Algebra K L]

/-- One layer of butterflies: each joins the cells at the same place of the halves of a block. -/
def butterflyLayer (twiddle : ℕ → L) (half : ℕ) (data : ℕ → L) (index : ℕ) : L :=
  let block := index / (2 * half)
  if index % (2 * half) < half then data index + data (index + half) * twiddle block
  else data index + (data (index - half) + data index * twiddle block)

def forwardExtension (code : ZkAffineLchCode K) (codeLog : ℕ) (data : ℕ → L) : ℕ → L :=
  (List.range codeLog).foldl
    (fun data layer => butterflyLayer (fun block => algebraMap K L (code.twiddleEntry layer block))
      (2 ^ (codeLog - layer - 1)) data) data

/-- Encode a message from which the lowest variables have been folded away. -/
def encodeExtensionAfterLowFolds (code : ZkAffineLchCode K) (message : List L) (foldsDone : ℕ) :
    Except ZkAffineCodeError (List L) :=
  if affineCodeMessageLog < foldsDone then .error .foldCountOutOfRange
  else if message.length ≠ 2 ^ (affineCodeMessageLog - foldsDone) then
    .error (.messageLength (2 ^ (affineCodeMessageLog - foldsDone)) message.length)
  else
    .ok ((List.range (2 ^ (affineCodeLogLen - foldsDone))).map
      (code.forwardExtension (affineCodeLogLen - foldsDone) fun index => message.getD index 0))

theorem checked_eq_ok {words : WordBasis K 128} {basis : ℕ → K} {beta : K}
    {code : ZkAffineLchCode K} (accepted : checked words basis beta = .ok code) :
    code.basis = basis ∧ code.beta = beta := by
  simp only [checked] at accepted
  split at accepted
  · cases accepted
  · split at accepted
    · cases accepted
    · split at accepted
      · cases accepted
      · split at accepted
        · cases accepted
          exact ⟨rfl, rfl⟩
        · cases accepted

variable (words : WordBasis K 128)

omit [CharP K 2] [DecidableEq K] in
theorem selected_words (count : ℕ) :
    ((List.range count).map fun index => words.toWord (selectedBasis words index)) =
      (List.range count).map fun index => 1#128 <<< index := by
  simp only [selectedBasis, Equiv.apply_symm_apply]

variable {level : ℕ}

omit [DecidableEq K] in
theorem selected_nonzero (below : level < affineCodeLogLen) :
    subspaceEval (selectedBasis words) level (selectedBasis words level) ≠ 0 := by
  intro zero
  obtain ⟨mask, -, sum⟩ := exists_combine_of_subspaceEval_eq_zero (selectedBasis words) zero
  have fresh : ∀ level < affineCodeLogLen,
      binarySpanContains ((List.range level).map fun index => 1#128 <<< index)
        (1#128 <<< level) = false := by
    decide +kernel
  apply ne_combine_of_binarySpanContains words _ mask sum
  rw [selected_words, selectedBasis, Equiv.apply_symm_apply]
  exact fresh level below

theorem selected_isOk : ∃ code, selected words = .ok code := by
  have rank : binaryRank ((List.range affineCodeLogLen).map fun index => 1#128 <<< index) =
      affineCodeLogLen := by
    decide +kernel
  have outside : binarySpanContains
      ((List.range affineCodeLogLen).map fun index => 1#128 <<< index)
      (1#128 <<< affineCodeLogLen) = false := by
    decide +kernel
  have outsideFundamental : binarySpanContains
      (((List.range affineCodeLogLen).map fun index => 1#128 <<< index).take affineFundamentalLog)
      (1#128 <<< affineCodeLogLen) = false := by
    decide +kernel
  have scaled : ∀ level < affineCodeLogLen,
      normalizer ((List.range affineCodeLogLen).map (selectedBasis words)) level ≠ 0 := by
    intro level below
    rw [normalizer_range _ below]
    exact selected_nonzero words below
  have offset : words.toWord (selectedBeta words) = 1#128 <<< affineCodeLogLen :=
    words.toWord.apply_symm_apply _
  rw [← selected_words words] at rank outside outsideFundamental
  rw [← offset] at outside outsideFundamental
  simp only [selected, checked]
  rw [if_neg (not_not_intro rank), dif_neg (ne_true_of_eq_false outside),
    if_neg (ne_true_of_eq_false outsideFundamental), dif_pos scaled]
  exact ⟨_, rfl⟩

variable (code : ZkAffineLchCode K)

omit [DecidableEq K] in
theorem normalizer_elements (below : level < affineCodeLogLen) :
    normalizer code.elements level = subspaceEval code.basis level (code.basis level) :=
  normalizer_range code.basis below

omit [DecidableEq K] in
theorem twiddleEntry_eq {layer : ℕ} (depth : layer + level + 1 = affineCodeLogLen) (block : ℕ) :
    code.twiddleEntry layer block = normalizedEval code.basis level
      (code.beta + combine (fun index => code.basis (level + 1 + index)) layer block) := by
  have here : affineCodeLogLen - layer - 1 = level := by omega
  have inside : level < affineCodeLogLen := by omega
  have rest : affineCodeLogLen - level = layer + 1 := by omega
  have row : (rawRow code.elements level).tail.map
      (fun value => value * (subspaceEval code.basis level (code.basis level))⁻¹) =
      (List.range layer).map
        fun index => normalizedEval code.basis level (code.basis (level + 1 + index)) := by
    rw [elements, rawRow_range, rest, range_succ_eq_map, map_cons, tail_cons, map_map, map_map]
    apply map_congr_left
    intro index _
    simp only [Function.comp_apply, Nat.succ_eq_add_one, normalizedEval]
    rw [show level + (index + 1) = level + 1 + index by omega]
  have start : betaRaw code.elements code.beta level = subspaceEval code.basis level code.beta :=
    betaRaw_range code.basis code.beta inside.le
  simp only [twiddleEntry, here]
  rw [code.normalizer_elements inside, row, start, addSelected_range, normalizedEval_add,
    normalizedEval_combine]
  rfl

/-- The product of the scaled polynomials from a level on that the index chooses. -/
def upperProduct (code : ZkAffineLchCode K) (start count index : ℕ) (x : K) : K :=
  ∏ place ∈ Finset.range count,
    if index.testBit place then normalizedEval code.basis (start + place) x else 1

/-- The point of a block: its bits choose among the basis elements from a level on. -/
def blockPoint (code : ZkAffineLchCode K) (start count block : ℕ) : K :=
  code.beta + combine (fun index => code.basis (start + index)) count block

omit [DecidableEq K] [CharP K 2] in
theorem upperProduct_succ (start count index : ℕ) (bit : Bool) (x : K) :
    code.upperProduct start (count + 1) (2 * index + bit.toNat) x =
      (if bit then normalizedEval code.basis start x else 1) *
        code.upperProduct (start + 1) count index x := by
  rw [upperProduct, Finset.prod_range_succ', mul_comm]
  simp only [testBit_zero_two_mul_add_toNat, testBit_succ_two_mul_add_toNat, add_zero]
  congr 1
  apply Finset.prod_congr rfl
  intro place _
  rw [show start + (place + 1) = start + 1 + place by omega]

omit [DecidableEq K] in
theorem upperProduct_add_basis (start count index : ℕ) (x : K) :
    code.upperProduct (start + 1) count index (x + code.basis start) =
      code.upperProduct (start + 1) count index x := by
  apply Finset.prod_congr rfl
  intro place _
  rw [normalizedEval_add, normalizedEval_of_lt code.basis (by omega), add_zero]

omit [DecidableEq K] [CharP K 2] in
theorem blockPoint_succ (start count block : ℕ) (bit : Bool) :
    code.blockPoint start (count + 1) (2 * block + bit.toNat) =
      code.blockPoint (start + 1) count block + if bit then code.basis start else 0 := by
  have shifted : (fun index => code.basis (start + (index + 1))) =
      fun index => code.basis (start + 1 + index) := by
    funext index
    rw [show start + (index + 1) = start + 1 + index by omega]
  rw [blockPoint, combine_succ', testBit_zero_two_mul_add_toNat, two_mul_add_toNat_div_two, shifted,
    blockPoint, add_zero, add_assoc, add_comm (if bit = true then code.basis start else 0)]

variable {offset : ℕ}

omit [CharP K 2] [DecidableEq K] [Algebra K L] in
theorem butterflyLayer_apply (twiddle : ℕ → L) {half : ℕ} (data : ℕ → L) (block : ℕ) (bit : Bool)
    (inside : offset < half) :
    butterflyLayer twiddle half data ((2 * block + bit.toNat) * half + offset) =
      data (2 * block * half + offset) + data ((2 * block + 1) * half + offset) * twiddle block +
        if bit then data ((2 * block + 1) * half + offset) else 0 := by
  have pos : 0 < 2 * half := by omega
  cases bit with
  | false =>
    have place : (2 * block + false.toNat) * half + offset = offset + 2 * half * block := by
      simp only [Bool.toNat_false]
      ring
    have right : offset + 2 * half * block + half = (2 * block + 1) * half + offset := by ring
    have left : offset + 2 * half * block = 2 * block * half + offset := by ring
    rw [butterflyLayer, place, Nat.add_mul_div_left _ _ pos, Nat.add_mul_mod_self_left,
      Nat.div_eq_of_lt (by omega), Nat.mod_eq_of_lt (by omega), if_pos inside, right, left,
      zero_add, if_neg Bool.false_ne_true, add_zero]
  | true =>
    have place : (2 * block + true.toNat) * half + offset =
        half + offset + 2 * half * block := by
      simp only [Bool.toNat_true]
      ring
    have right : half + offset + 2 * half * block = (2 * block + 1) * half + offset := by ring
    have left : (2 * block + 1) * half + offset - half = 2 * block * half + offset := by
      rw [add_mul, one_mul]
      omega
    rw [butterflyLayer, place, Nat.add_mul_div_left _ _ pos, Nat.add_mul_mod_self_left,
      Nat.div_eq_of_lt (by omega), Nat.mod_eq_of_lt (by omega), if_neg (by omega), right, left,
      zero_add, if_pos rfl]
    ring

variable {start : ℕ}

omit [DecidableEq K] in
theorem normalizedEval_blockPoint_succ (below : start < affineCodeLogLen) (count block : ℕ)
    (bit : Bool) :
    normalizedEval code.basis start (code.blockPoint start (count + 1) (2 * block + bit.toNat)) =
      normalizedEval code.basis start (code.blockPoint (start + 1) count block) +
        if bit then 1 else 0 := by
  rw [blockPoint_succ, normalizedEval_add]
  cases bit with
  | false => simp only [Bool.false_eq_true, if_false, normalizedEval_zero]
  | true => simp only [if_true, normalizedEval_self (code.nonzero start below)]

omit [DecidableEq K] in
theorem upperProduct_blockPoint_succ (start count index block : ℕ) (bit : Bool) :
    code.upperProduct (start + 1) count index
        (code.blockPoint start (count + 1) (2 * block + bit.toNat)) =
      code.upperProduct (start + 1) count index (code.blockPoint (start + 1) count block) := by
  rw [blockPoint_succ]
  cases bit with
  | false => simp only [Bool.false_eq_true, if_false, add_zero]
  | true => simp only [if_true, upperProduct_add_basis]

omit [DecidableEq K] in
/-- After some layers every cell holds the sums over the bits that have been transformed, at
the point of its block. -/
theorem forwardExtension_layers {codeLog : ℕ} (depth : start + codeLog = affineCodeLogLen)
    (data : ℕ → L) {layers rest : ℕ} (split : layers + rest = codeLog) {block : ℕ}
    (known : block < 2 ^ layers) (inside : offset < 2 ^ rest) :
    ((List.range layers).foldl
      (fun data layer => butterflyLayer
        (fun block => algebraMap K L (code.twiddleEntry layer block))
        (2 ^ (codeLog - layer - 1)) data) data) (block * 2 ^ rest + offset) =
      ∑ index ∈ Finset.range (2 ^ layers), data (index * 2 ^ rest + offset) *
        algebraMap K L (code.upperProduct (start + rest) layers index
          (code.blockPoint (start + rest) layers block)) := by
  induction layers generalizing rest block offset with
  | zero =>
    obtain rfl : block = 0 := by omega
    simp [upperProduct]
  | succ layers ih =>
    obtain ⟨parent, bit, rfl⟩ := exists_two_mul_add_toNat block
    have known' : parent < 2 ^ layers := by
      omega
    have width : codeLog - layers - 1 = rest := by omega
    have left : 2 * parent * 2 ^ rest + offset = parent * 2 ^ (rest + 1) + offset := by ring
    have right : (2 * parent + 1) * 2 ^ rest + offset =
        parent * 2 ^ (rest + 1) + (2 ^ rest + offset) := by ring
    have level : start + (rest + 1) = start + rest + 1 := by omega
    have twiddle : code.twiddleEntry layers parent = normalizedEval code.basis (start + rest)
        (code.blockPoint (start + rest + 1) layers parent) :=
      code.twiddleEntry_eq (by omega) parent
    rw [range_succ, foldl_append, foldl_cons, foldl_nil, width,
      butterflyLayer_apply _ _ _ _ inside, left, right,
      ih (by omega) known' (by omega), ih (by omega) known' (by omega), pow_succ 2 layers,
      mul_comm (2 ^ layers), sum_range_two_mul, Finset.sum_mul, twiddle, level]
    have even : ∀ index, code.upperProduct (start + rest) (layers + 1) (2 * index)
        (code.blockPoint (start + rest) (layers + 1) (2 * parent + bit.toNat)) =
        code.upperProduct (start + rest + 1) layers index
          (code.blockPoint (start + rest + 1) layers parent) := by
      intro index
      have product := code.upperProduct_succ (start + rest) layers index false
        (code.blockPoint (start + rest) (layers + 1) (2 * parent + bit.toNat))
      rw [upperProduct_blockPoint_succ] at product
      simpa using product
    have odd : ∀ index, code.upperProduct (start + rest) (layers + 1) (2 * index + 1)
        (code.blockPoint (start + rest) (layers + 1) (2 * parent + bit.toNat)) =
        (normalizedEval code.basis (start + rest)
          (code.blockPoint (start + rest + 1) layers parent) + if bit then 1 else 0) *
        code.upperProduct (start + rest + 1) layers index
          (code.blockPoint (start + rest + 1) layers parent) := by
      intro index
      have product := code.upperProduct_succ (start + rest) layers index true
        (code.blockPoint (start + rest) (layers + 1) (2 * parent + bit.toNat))
      rw [upperProduct_blockPoint_succ, if_pos rfl,
        code.normalizedEval_blockPoint_succ (by omega)] at product
      simpa using product
    have spread : ∀ index, data ((2 * index) * 2 ^ rest + offset) =
        data (index * 2 ^ (rest + 1) + offset) ∧ data ((2 * index + 1) * 2 ^ rest + offset) =
        data (index * 2 ^ (rest + 1) + (2 ^ rest + offset)) := by
      intro index
      constructor <;> congr 1 <;> ring
    simp only [even, odd, (spread _).1, (spread _).2, map_mul, map_add]
    rw [← Finset.sum_add_distrib]
    cases bit with
    | false =>
      simp only [Bool.false_eq_true, if_false, add_zero, map_zero]
      apply Finset.sum_congr rfl
      intro index _
      ring
    | true =>
      simp only [if_true, map_one]
      rw [← Finset.sum_add_distrib]
      apply Finset.sum_congr rfl
      intro index _
      ring

end ZkAffineLchCode

end Jetsam
