import Mathlib.Algebra.Order.Star.Basic
import Jetsam.Algebra.NovelCodes
import Jetsam.Capsule.AffineCode
import Jetsam.Field.Tower

/-!
# The affine code as an evaluation code

The encoder computes the values of the polynomial whose coordinates are the message at distinct
points, so that two messages agree in few positions, and the upper half of a message hides few
positions completely.
-/

namespace Jetsam

open BinaryField Polynomial

variable {K : Type} [Field K]

/-- The point whose value stands at a position once some variables are folded away. -/
def foldedPoint (basis : ℕ → K) (beta : K) (folds position : ℕ) : K :=
  normalizedEval basis folds
    (beta + combine (fun index => basis (folds + index)) (affineCodeLogLen - folds) position)

/-- The polynomial whose coordinates in the novel basis of the folded basis are the message. -/
noncomputable def messagePoly {L : Type} [Field L] [Algebra K L] (basis : ℕ → K) (folds : ℕ)
    (message : List L) : L[X] :=
  novelCombination (projected basis folds) (affineCodeMessageLog - folds) message

namespace ZkAffineLchCode

variable [CharP K 2] {L : Type} [Field L] [Algebra K L] (code : ZkAffineLchCode K) {folds : ℕ}

variable {position : ℕ}

/-- The whole transform evaluates the products at the points of the domain. -/
theorem forwardExtension_eq {codeLog start : ℕ} (depth : start + codeLog = affineCodeLogLen)
    (data : ℕ → L) (inside : position < 2 ^ codeLog) :
    code.forwardExtension codeLog data position =
      ∑ index ∈ Finset.range (2 ^ codeLog), data index *
        algebraMap K L (code.upperProduct start codeLog index
          (code.blockPoint start codeLog position)) := by
  have value := code.forwardExtension_layers depth data (add_zero codeLog) inside one_pos
  simpa [forwardExtension] using value

omit [CharP K 2] in
theorem upperProduct_eq_novelEval (few : folds ≤ affineCodeMessageLog) {index : ℕ}
    (small : index < 2 ^ (affineCodeMessageLog - folds)) (x : K) :
    code.upperProduct folds (affineCodeLogLen - folds) index x =
      novelEval (projected code.basis folds) (affineCodeMessageLog - folds) index
        (normalizedEval code.basis folds x) := by
  have inside : folds < affineCodeLogLen := few.trans_lt (by decide)
  have narrow : affineCodeMessageLog - folds ≤ affineCodeLogLen - folds :=
    Nat.sub_le_sub_right (by decide) folds
  rw [novelEval_projected (code.nonzero folds inside), upperProduct]
  symm
  apply Finset.prod_subset (Finset.range_subset_range.mpr narrow)
  intro place _ above
  have high : affineCodeMessageLog - folds ≤ place := by simpa using above
  rw [Nat.testBit_lt_two_pow (small.trans_le (Nat.pow_le_pow_right Nat.two_pos high)),
    if_neg Bool.false_ne_true]

variable {message : List L}

theorem forwardExtension_message (few : folds ≤ affineCodeMessageLog)
    (long : message.length = 2 ^ (affineCodeMessageLog - folds))
    (inside : position < 2 ^ (affineCodeLogLen - folds)) :
    code.forwardExtension (affineCodeLogLen - folds) (fun index => message.getD index 0) position =
      (messagePoly code.basis folds message).eval
        (algebraMap K L (foldedPoint code.basis code.beta folds position)) := by
  have depth : folds + (affineCodeLogLen - folds) = affineCodeLogLen :=
    Nat.add_sub_of_le (few.trans (by decide))
  have narrow : 2 ^ (affineCodeMessageLog - folds) ≤ 2 ^ (affineCodeLogLen - folds) :=
    Nat.pow_le_pow_right Nat.two_pos (Nat.sub_le_sub_right (by decide) folds)
  rw [code.forwardExtension_eq depth _ inside, messagePoly, novelCombination, eval_finsetSum]
  symm
  -- the cells behind the message are zero
  apply Finset.sum_subset_zero_on_sdiff (Finset.range_subset_range.mpr narrow)
  · intro index behind
    have high : message.length ≤ index := by
      rw [long]
      simpa using (Finset.mem_sdiff.mp behind).2
    rw [List.getD_eq_default _ _ high, zero_mul]
  · intro index small
    rw [eval_mul, eval_C, eval_map, eval₂_at_apply, eval_novelPoly,
      code.upperProduct_eq_novelEval few (Finset.mem_range.mp small)]
    rfl

theorem encodeExtensionAfterLowFolds_eq (few : folds ≤ affineCodeMessageLog)
    (long : message.length = 2 ^ (affineCodeMessageLog - folds)) :
    code.encodeExtensionAfterLowFolds message folds =
      .ok ((List.range (2 ^ (affineCodeLogLen - folds))).map fun position =>
        (messagePoly code.basis folds message).eval
          (algebraMap K L (foldedPoint code.basis code.beta folds position))) := by
  rw [encodeExtensionAfterLowFolds, if_neg (not_lt.mpr few), if_neg (not_not_intro long)]
  congr 1
  apply List.map_congr_left
  intro position inside
  exact code.forwardExtension_message few long (List.mem_range.mp inside)

omit [CharP K 2] in
theorem length_of_encode_eq_ok {code : ZkAffineLchCode K} {word : List L}
    (encoded : code.encodeExtensionAfterLowFolds message folds = .ok word) :
    message.length = 2 ^ (affineCodeMessageLog - folds) := by
  rw [encodeExtensionAfterLowFolds] at encoded
  split at encoded
  · cases encoded
  · split at encoded
    · cases encoded
    · exact not_not.mp ‹_›

omit [CharP K 2] in
theorem projected_nonzero (few : folds ≤ affineCodeMessageLog) :
    ∀ level < affineCodeLogLen - folds,
      subspaceEval (projected code.basis folds) level (projected code.basis folds level) ≠ 0 := by
  intro level below
  apply subspaceEval_projected_ne_zero
  · exact code.nonzero folds (few.trans_lt (by decide))
  · exact code.nonzero (folds + level) (by omega)

theorem foldedPoint_injOn (few : folds ≤ affineCodeMessageLog) :
    Set.InjOn (foldedPoint code.basis code.beta folds)
      (Set.Iio (2 ^ (affineCodeLogLen - folds))) := by
  intro position inside position' inside' same
  rw [foldedPoint, foldedPoint, normalizedEval_add, normalizedEval_add, add_right_inj,
    normalizedEval_combine, normalizedEval_combine] at same
  exact combine_injOn (code.projected_nonzero few) inside inside' same

omit [CharP K 2] in
theorem projected_nonzero_message (few : folds ≤ affineCodeMessageLog) :
    ∀ level < affineCodeMessageLog - folds,
      subspaceEval (projected code.basis folds) level (projected code.basis folds level) ≠ 0 :=
  fun level below => code.projected_nonzero few level
    (below.trans_le (Nat.sub_le_sub_right (by decide) folds))

omit [CharP K 2] in
theorem messagePoly_eq_message (few : folds ≤ affineCodeMessageLog) (message : List L) :
    messagePoly code.basis folds message =
      EvaluationCode.message (novelSequence (code.projected_nonzero_message few) L)
        (2 ^ (affineCodeMessageLog - folds)) fun index => message.getD index 0 :=
  novelCombination_eq_message (code.projected_nonzero_message few) message

omit [CharP K 2] in
theorem degree_messagePoly_lt (few : folds ≤ affineCodeMessageLog) (message : List L) :
    (messagePoly code.basis folds message).degree < 2 ^ (affineCodeMessageLog - folds) := by
  rw [code.messagePoly_eq_message few]
  exact_mod_cast EvaluationCode.degree_message_lt
    (novelSequence (code.projected_nonzero_message few) L)
    (n := 2 ^ (affineCodeMessageLog - folds)) _

theorem card_agree_lt [DecidableEq L] (few : folds ≤ affineCodeMessageLog) {message' : List L}
    (long : message.length = 2 ^ (affineCodeMessageLog - folds))
    (long' : message'.length = 2 ^ (affineCodeMessageLog - folds)) (differ : message ≠ message') :
    ((Finset.range (2 ^ (affineCodeLogLen - folds))).filter fun position =>
      (messagePoly code.basis folds message).eval
          (algebraMap K L (foldedPoint code.basis code.beta folds position)) =
        (messagePoly code.basis folds message').eval
          (algebraMap K L (foldedPoint code.basis code.beta folds position))).card <
      2 ^ (affineCodeMessageLog - folds) := by
  by_contra many
  rw [not_lt] at many
  apply differ
  have distinct : Set.InjOn
      (fun position => algebraMap K L (foldedPoint code.basis code.beta folds position))
      (Set.Iio (2 ^ (affineCodeLogLen - folds))) := by
    intro position inside position' inside' same
    exact code.foldedPoint_injOn few inside inside' ((algebraMap K L).injective same)
  -- the points of the common positions are as many, and they determine the coordinates
  rw [← Finset.card_image_of_injOn (distinct.mono ?_)] at many
  · have same := EvaluationCode.eq_of_agree (novelSequence (code.projected_nonzero_message few) L)
      (a := fun index => message.getD index 0) (b := fun index => message'.getD index 0) many ?_
    · apply List.ext_getElem (long.trans long'.symm)
      intro index inside inside'
      have cell := congrFun same ⟨index, long ▸ inside⟩
      simpa [inside, inside'] using cell
    · intro x mem
      obtain ⟨position, common, rfl⟩ := Finset.mem_image.mp mem
      rw [← code.messagePoly_eq_message few, ← code.messagePoly_eq_message few]
      exact (Finset.mem_filter.mp common).2
  · intro position common
    exact Finset.mem_range.mp (Finset.mem_filter.mp common).1

/-- The polynomial in front of the upper half of the message vanishes nowhere on the domain. -/
theorem normalizedEval_ne_zero {level : ℕ} (below : level < affineCodeLogLen) (position : ℕ) :
    normalizedEval code.basis level (code.beta + combine code.basis affineCodeLogLen position) ≠
      0 := by
  intro zero
  have root : subspaceEval code.basis level
      (code.beta + combine code.basis affineCodeLogLen position) = 0 := by
    exact (mul_eq_zero.mp zero).resolve_right (inv_ne_zero (code.nonzero level below))
  obtain ⟨mask, small, sum⟩ := exists_combine_of_subspaceEval_eq_zero code.basis root
  apply code.outside (mask ^^^ position)
  have wide : combine code.basis affineCodeLogLen mask = combine code.basis level mask :=
    combine_eq_of_lt code.basis below.le small
  rw [combine_xor, wide, ← sum, add_assoc, CharTwo.add_self_eq_zero, add_zero]

theorem card_hidden {positions : Finset ℕ}
    (inside : ∀ position ∈ positions, position < affineCodeLen)
    (few : positions.card ≤ affineRankRandomBlockLen) {low : List L}
    (half : low.length = affineRankRandomBlockStart) (target : ℕ → L) :
    Nat.card {high : Fin affineRankRandomBlockLen → L // ∀ position ∈ positions,
        (messagePoly code.basis 0 (low ++ List.ofFn high)).eval
          (algebraMap K L (foldedPoint code.basis code.beta 0 position)) = target position} =
      Nat.card L ^ (affineRankRandomBlockLen - positions.card) := by
  have nonzero : ∀ level < affineRankFactorLevel,
      subspaceEval (projected code.basis 0) level (projected code.basis 0 level) ≠ 0 :=
    fun level below => code.projected_nonzero (Nat.zero_le _) level (below.trans (by decide))
  let points : positions → L := fun position =>
    algebraMap K L (foldedPoint code.basis code.beta 0 position)
  have distinct : Function.Injective points := by
    intro position position' same
    apply Subtype.ext
    exact code.foldedPoint_injOn (Nat.zero_le _) (inside _ position.2) (inside _ position'.2)
      ((algebraMap K L).injective same)
  have present : ∀ position : positions,
      ((normalizedPoly (projected code.basis 0) affineRankFactorLevel).map
        (algebraMap K L)).eval (points position) ≠ 0 := by
    intro position
    have below : affineRankFactorLevel < affineCodeLogLen := by decide
    have value := code.normalizedEval_ne_zero below position
    rw [eval_map, eval₂_at_apply, eval_normalizedPoly, foldedPoint,
      normalizedEval_projected (code.nonzero 0 (by decide))]
    simpa using value
  have few' : Fintype.card positions ≤ 2 ^ affineRankFactorLevel := by
    rw [Fintype.card_coe]
    exact few
  have half' : low.length = 2 ^ affineRankFactorLevel := half
  have count := card_upper_halves nonzero distinct present few' half'
    fun position => target position
  rw [Fintype.card_coe] at count
  refine Eq.trans (Nat.card_congr (Equiv.subtypeEquivRight fun high => ?_)) count
  rw [Subtype.forall]
  rfl

end ZkAffineLchCode

/-- The encoder evaluates the polynomial of the message at distinct points, two messages agree in
fewer positions than they have cells, and the last cells reach every choice of few values equally
often. -/
theorem affineCode_evaluates_and_hides [DecidableEq K] [CharP K 2] {L : Type} [Field L]
    [DecidableEq L] [Algebra K L] {words : WordBasis K 128} {basis : ℕ → K} {beta : K}
    {code : ZkAffineLchCode K} (accepted : ZkAffineLchCode.checked words basis beta = .ok code) :
    (∀ folds ≤ affineCodeMessageLog,
      Set.InjOn (foldedPoint basis beta folds) (Set.Iio (2 ^ (affineCodeLogLen - folds))) ∧
      (∀ index < 2 ^ (affineCodeMessageLog - folds),
        (novelPoly (projected basis folds) (affineCodeMessageLog - folds) index).degree = index) ∧
      (∀ message : List L, message.length = 2 ^ (affineCodeMessageLog - folds) →
        (messagePoly basis folds message).degree < 2 ^ (affineCodeMessageLog - folds) ∧
        code.encodeExtensionAfterLowFolds message folds =
          .ok ((List.range (2 ^ (affineCodeLogLen - folds))).map fun position =>
            (messagePoly basis folds message).eval
              (algebraMap K L (foldedPoint basis beta folds position)))) ∧
      ∀ (message message' : List L) (word word' : List L),
        code.encodeExtensionAfterLowFolds message folds = .ok word →
        code.encodeExtensionAfterLowFolds message' folds = .ok word' → message ≠ message' →
        ((Finset.range (2 ^ (affineCodeLogLen - folds))).filter fun position =>
          word[position]? = word'[position]?).card ≤ 2 ^ (affineCodeMessageLog - folds) - 1) ∧
    ∀ positions : Finset ℕ, (∀ position ∈ positions, position < affineCodeLen) →
      positions.card ≤ affineRankRandomBlockLen →
      ∀ low : List L, low.length = affineRankRandomBlockStart → ∀ target : ℕ → L,
        Nat.card {high : Fin affineRankRandomBlockLen → L //
            ∃ word, code.encodeExtensionAfterLowFolds (low ++ List.ofFn high) 0 = .ok word ∧
              ∀ position ∈ positions, word[position]? = some (target position)} =
          Nat.card L ^ (affineRankRandomBlockLen - positions.card) := by
  obtain ⟨rfl, rfl⟩ := ZkAffineLchCode.checked_eq_ok accepted
  constructor
  · intro folds few
    refine ⟨code.foldedPoint_injOn few, ?_, ?_, ?_⟩
    · intro index small
      exact degree_novelPoly (code.projected_nonzero_message few) small
    · intro message long
      exact ⟨code.degree_messagePoly_lt few message, code.encodeExtensionAfterLowFolds_eq few long⟩
    · intro message message' word word' encoded encoded' differ
      have long := ZkAffineLchCode.length_of_encode_eq_ok encoded
      have long' := ZkAffineLchCode.length_of_encode_eq_ok encoded'
      have agree := code.card_agree_lt few long long' differ
      rw [code.encodeExtensionAfterLowFolds_eq few long] at encoded
      rw [code.encodeExtensionAfterLowFolds_eq few long'] at encoded'
      cases encoded
      cases encoded'
      apply Nat.le_sub_one_of_lt
      apply lt_of_eq_of_lt _ agree
      congr 1
      apply Finset.filter_congr
      intro position inside
      rw [List.getElem?_map, List.getElem?_map, List.getElem?_range (Finset.mem_range.mp inside),
        Option.map_some, Option.map_some, Option.some_inj]
  · intro positions inside few low half target
    rw [← code.card_hidden inside few half target]
    apply Nat.card_congr
    apply Equiv.subtypeEquivRight
    intro high
    have long : (low ++ List.ofFn high).length = 2 ^ (affineCodeMessageLog - 0) := by
      rw [List.length_append, List.length_ofFn, half]
      rfl
    have cell : ∀ (value : ℕ → L), ∀ position ∈ positions,
        ((List.range (2 ^ (affineCodeLogLen - 0))).map value)[position]? =
          some (value position) := by
      intro value position member
      have below : position < 2 ^ (affineCodeLogLen - 0) := inside position member
      rw [List.getElem?_map, List.getElem?_range below, Option.map_some]
    rw [code.encodeExtensionAfterLowFolds_eq (Nat.zero_le _) long]
    constructor
    · rintro ⟨word, encoded, values⟩ position member
      obtain rfl := Except.ok.inj encoded
      have value := values position member
      rw [cell _ position member] at value
      exact Option.some_inj.mp value
    · intro values
      refine ⟨_, rfl, fun position member => ?_⟩
      rw [cell _ position member, values position member]

open Tower in
/-- The selected domain over the tower fields: one upper half clears 1024 positions. -/
theorem affineCode_hides_selected :
    ∃ code, ZkAffineLchCode.selected (K := Block128) Block128.words = .ok code ∧
      Nat.card {high : Fin affineRankRandomBlockLen → Block256 //
        ∃ word, code.encodeExtensionAfterLowFolds
            (List.replicate affineRankRandomBlockStart 0 ++ List.ofFn high) 0 = .ok word ∧
          ∀ position ∈ Finset.range 1024, word[position]? = some 0} = 1 := by
  obtain ⟨code, accepted⟩ := ZkAffineLchCode.selected_isOk (K := Block128) Block128.words
  refine ⟨code, accepted, ?_⟩
  have hidden := (affineCode_evaluates_and_hides (L := Block256) accepted).2 (Finset.range 1024)
    (fun position inside => (Finset.mem_range.mp inside).trans (by decide))
    (Finset.card_range 1024).le (List.replicate affineRankRandomBlockStart 0)
    List.length_replicate fun _ => 0
  rw [hidden, Finset.card_range]
  rfl

end Jetsam
