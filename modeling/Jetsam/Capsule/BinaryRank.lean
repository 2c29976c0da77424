import Mathlib.Data.Nat.Bitwise
import Jetsam.Algebra.Subspace
import Jetsam.Algebra.WordBasis

/-!
# Rank of a list of words

Gaussian elimination over the field with two elements: a table holds at most one word for each
highest bit, and a word that does not reduce to zero is stored at its own.
-/

namespace Jetsam

open BinaryField List Function

variable {width : ℕ}

/-- Reduce a word against the table, and store what remains. Each reduction clears the highest bit.
-/
def reduceInto (table : ℕ → BitVec width) (rank : ℕ) :
    ℕ → BitVec width → (ℕ → BitVec width) × ℕ
  | 0, _ => (table, rank)
  | fuel + 1, value =>
    if value = 0#(width) then (table, rank)
    else
      let pivot := value.toNat.log2
      if table pivot = 0#(width) then (Function.update table pivot value, rank + 1)
      else reduceInto table rank fuel (value ^^^ table pivot)

/-- Insert the words one after the other into the empty table. -/
def eliminate (values : List (BitVec width)) : (ℕ → BitVec width) × ℕ :=
  values.foldl (fun state value => reduceInto state.1 state.2 width value) (fun _ => 0#(width), 0)

def binaryRank (values : List (BitVec width)) : ℕ := (eliminate values).2

/-- Whether one more word leaves the rank as it is. -/
def binarySpanContains (basis : List (BitVec width)) (value : BitVec width) : Bool :=
  binaryRank (basis ++ [value]) == binaryRank basis

/-- The exclusive or of the table entries below `count` chosen by a mask. -/
def combineWords (table : ℕ → BitVec width) : ℕ → ℕ → BitVec width
  | 0, _ => 0#(width)
  | count + 1, mask =>
    combineWords table count mask ^^^ if mask.testBit count then table count else 0#(width)

/-- Every stored word has its place as its highest bit. -/
def Echelon (table : ℕ → BitVec width) : Prop :=
  ∀ pivot, table pivot ≠ 0#(width) → (table pivot).toNat.log2 = pivot

/-- The word is an exclusive or of stored words. -/
def Spanned (table : ℕ → BitVec width) (value : BitVec width) : Prop :=
  ∃ mask, value = combineWords table width mask

variable {table : ℕ → BitVec width} {value value' : BitVec width}

theorem combineWords_xor (table : ℕ → BitVec width) (count mask mask' : ℕ) :
    combineWords table count (mask ^^^ mask') =
      combineWords table count mask ^^^ combineWords table count mask' := by
  induction count with
  | zero => exact (BitVec.xor_self).symm
  | succ count ih =>
    rw [combineWords, combineWords, combineWords, ih, Nat.testBit_xor]
    cases mask.testBit count <;> cases mask'.testBit count
    · simp
    · simp only [Bool.false_xor, if_true, Bool.false_eq_true, if_false, BitVec.xor_zero]
      ac_rfl
    · simp only [Bool.xor_false, if_true, Bool.false_eq_true, if_false, BitVec.xor_zero]
      ac_rfl
    · have cancels : combineWords table count mask ^^^ table count ^^^
          (combineWords table count mask' ^^^ table count) =
          combineWords table count mask ^^^ combineWords table count mask' ^^^
            (table count ^^^ table count) := by
        ac_rfl
      simp only [Bool.xor_self, if_true, Bool.false_eq_true, if_false, cancels, BitVec.xor_self]

theorem Spanned.xor (left : Spanned table value) (right : Spanned table value') :
    Spanned table (value ^^^ value') := by
  obtain ⟨mask, rfl⟩ := left
  obtain ⟨mask', rfl⟩ := right
  exact ⟨mask ^^^ mask', (combineWords_xor table width mask mask').symm⟩

theorem spanned_zero : Spanned table 0#(width) := by
  refine ⟨0, ?_⟩
  have none : ∀ count, combineWords table count 0 = 0#(width) := by
    intro count
    induction count with
    | zero => rfl
    | succ count ih => simp [combineWords, ih]
  exact (none width).symm

theorem combineWords_two_pow (table : ℕ → BitVec width) (index count : ℕ) :
    combineWords table count (2 ^ index) = if index < count then table index else 0#(width) := by
  induction count with
  | zero => rfl
  | succ count ih =>
    rw [combineWords, ih, Nat.testBit_two_pow]
    rcases lt_trichotomy index count with less | rfl | greater
    · simp [less, Nat.lt_succ_of_lt less, less.ne]
    · simp
    · simp [greater.not_gt, greater.ne', not_lt.mpr (Nat.succ_le_of_lt greater)]

theorem spanned_entry {index : ℕ} (below : index < width) : Spanned table (table index) :=
  ⟨2 ^ index, by rw [combineWords_two_pow, if_pos below]⟩

theorem log2_lt (nonzero : value ≠ 0#(width)) : value.toNat.log2 < width := by
  have pos : value.toNat ≠ 0 := fun zero => nonzero (BitVec.eq_of_toNat_eq zero)
  exact (Nat.log2_lt pos).mpr value.isLt

theorem log2_le_of_lt (nonzero : value ≠ 0#(width)) {fuel : ℕ}
    (below : value.toNat < 2 ^ (fuel + 1)) :
    value.toNat.log2 ≤ fuel := by
  have pos : value.toNat ≠ 0 := fun zero => nonzero (BitVec.eq_of_toNat_eq zero)
  exact Nat.lt_succ_iff.mp ((Nat.log2_lt pos).mpr below)

theorem xor_lt_of_log2_eq (nonzero : value ≠ 0#(width)) (nonzero' : value' ≠ 0#(width))
    (same : value.toNat.log2 = value'.toNat.log2) :
    (value ^^^ value').toNat < 2 ^ value.toNat.log2 := by
  have pos : value.toNat ≠ 0 := fun zero => nonzero (BitVec.eq_of_toNat_eq zero)
  have positive' : value'.toNat ≠ 0 := fun zero => nonzero' (BitVec.eq_of_toNat_eq zero)
  obtain ⟨high, low⟩ := (Nat.log2_eq_iff pos).mp rfl
  obtain ⟨high', low'⟩ := (Nat.log2_eq_iff positive').mp same.symm
  rw [BitVec.toNat_xor]
  apply Nat.lt_pow_two_of_testBit
  intro index above
  rw [Nat.testBit_xor]
  rcases eq_or_lt_of_le above with rfl | higher
  · rw [Nat.testBit_of_two_pow_le_and_two_pow_add_one_gt high low,
      Nat.testBit_of_two_pow_le_and_two_pow_add_one_gt high' low', Bool.xor_self]
  · have bound := Nat.pow_le_pow_right two_pos higher
    rw [Nat.testBit_lt_two_pow (low.trans_le bound), Nat.testBit_lt_two_pow (low'.trans_le bound),
      Bool.xor_self]

theorem Echelon.combineWords_bound (echelon : Echelon table) (count mask : ℕ) :
    (combineWords table count mask).toNat < 2 ^ count ∧
      (combineWords table count mask ≠ 0#(width) →
        table (combineWords table count mask).toNat.log2 ≠ 0#(width)) := by
  induction count with
  | zero => exact ⟨by simp [combineWords], fun nonzero => absurd rfl nonzero⟩
  | succ count ih =>
    obtain ⟨small, stored⟩ := ih
    have wider : 2 ^ count < 2 ^ (count + 1) :=
      Nat.pow_lt_pow_right one_lt_two (Nat.lt_succ_self count)
    rw [combineWords]
    by_cases empty : mask.testBit count = false ∨ table count = 0#(width)
    · have none : (if mask.testBit count then table count else 0#(width)) = 0#(width) := by
        rcases empty with clear | zero
        · rw [clear, if_neg Bool.false_ne_true]
        · rw [zero, ite_self]
      rw [none, BitVec.xor_zero]
      exact ⟨small.trans wider, stored⟩
    · push Not at empty
      rw [if_pos (Bool.eq_true_of_not_eq_false empty.1)]
      have top := echelon count empty.2
      have pos : (table count).toNat ≠ 0 := fun zero => empty.2 (BitVec.eq_of_toNat_eq zero)
      obtain ⟨high, low⟩ := (Nat.log2_eq_iff pos).mp top
      have entry : (table count).toNat.testBit count = true :=
        Nat.testBit_of_two_pow_le_and_two_pow_add_one_gt high low
      have bit : (combineWords table count mask ^^^ table count).toNat.testBit count = true := by
        rw [BitVec.toNat_xor, Nat.testBit_xor, entry, Nat.testBit_lt_two_pow small]
        rfl
      have bound : (combineWords table count mask ^^^ table count).toNat < 2 ^ (count + 1) := by
        exact Nat.xor_lt_two_pow (small.trans wider) low
      have least := Nat.ge_two_pow_of_testBit bit
      have place : (combineWords table count mask ^^^ table count).toNat.log2 = count := by
        rw [Nat.log2_eq_iff (ne_of_gt ((Nat.two_pow_pos count).trans_le least))]
        exact ⟨least, bound⟩
      exact ⟨bound, fun _ => by rw [place]; exact empty.2⟩

theorem Echelon.stored_of_spanned (echelon : Echelon table) (spanned : Spanned table value)
    (nonzero : value ≠ 0#(width)) : table value.toNat.log2 ≠ 0#(width) := by
  obtain ⟨mask, rfl⟩ := spanned
  exact (echelon.combineWords_bound width mask).2 nonzero

theorem Echelon.update (echelon : Echelon table) (value : BitVec width) :
    Echelon (update table value.toNat.log2 value) := by
  intro pivot stored
  rcases eq_or_ne pivot value.toNat.log2 with rfl | other
  · rw [update_self]
  · rw [update_of_ne other] at stored ⊢
    exact echelon pivot stored

theorem Spanned.update {pivot : ℕ} (free : table pivot = 0#(width)) (spanned : Spanned table value)
    (word : BitVec width) : Spanned (update table pivot word) value := by
  obtain ⟨mask, rfl⟩ := spanned
  have bits : ∀ count, Spanned (update table pivot word) (combineWords table count mask) ∨
      width < count := by
    intro count
    induction count with
    | zero => exact .inl spanned_zero
    | succ count ih =>
      rcases lt_or_ge count width with below | above
      · refine .inl ((ih.resolve_right below.le.not_gt).xor ?_)
        split
        · rcases eq_or_ne count pivot with rfl | other
          · rw [free]
            exact spanned_zero
          · have entry := @spanned_entry width (update table pivot word) count below
            rwa [update_of_ne other] at entry
        · exact spanned_zero
      · exact .inr (Nat.lt_succ_of_le above)
  exact (bits width).resolve_right (lt_irrefl width)

theorem Echelon.reduceInto_cases (echelon : Echelon table) (rank : ℕ) {fuel : ℕ}
    (enough : value.toNat < 2 ^ fuel) :
    reduceInto table rank fuel value = (table, rank) ∧ Spanned table value ∨
      ∃ next, reduceInto table rank fuel value = (next, rank + 1) ∧ ¬Spanned table value ∧
        Echelon next ∧ Spanned next value ∧ ∀ other, Spanned table other → Spanned next other := by
  induction fuel generalizing value with
  | zero =>
    obtain rfl : value = 0#(width) := BitVec.eq_of_toNat_eq (by simpa using enough)
    exact .inl ⟨rfl, spanned_zero⟩
  | succ fuel ih =>
    rw [reduceInto]
    split
    · rename_i zero
      exact .inl ⟨rfl, zero ▸ spanned_zero⟩
    · rename_i nonzero
      have below := log2_lt nonzero
      dsimp only
      split
      · rename_i free
        have stored := @spanned_entry width
          (Function.update table value.toNat.log2 value) value.toNat.log2 below
        rw [update_self] at stored
        exact .inr ⟨_, rfl, fun spanned => echelon.stored_of_spanned spanned nonzero free,
          echelon.update value, stored, fun other spanned => spanned.update free value⟩
      · rename_i taken
        have entry := @spanned_entry width table value.toNat.log2 below
        have cleared : (value ^^^ table value.toNat.log2).toNat < 2 ^ fuel :=
          (xor_lt_of_log2_eq nonzero taken (echelon _ taken).symm).trans_le
            (Nat.pow_le_pow_right two_pos (log2_le_of_lt nonzero enough))
        have back : value ^^^ table value.toNat.log2 ^^^ table value.toNat.log2 = value := by
          rw [BitVec.xor_assoc, BitVec.xor_self, BitVec.xor_zero]
        rcases ih cleared with ⟨same, spanned⟩ | ⟨next, stored, outside, form, inside, grows⟩
        · exact .inl ⟨same, back ▸ spanned.xor entry⟩
        · exact .inr ⟨next, stored, fun spanned => outside (spanned.xor entry), form,
            back ▸ inside.xor (grows _ entry), grows⟩

theorem eliminate_spans (values : List (BitVec width)) :
    Echelon (eliminate values).1 ∧ ∀ value ∈ values, Spanned (eliminate values).1 value := by
  induction values using List.reverseRecOn with
  | nil => exact ⟨fun _ stored => absurd rfl stored, fun _ impossible => nomatch impossible⟩
  | append_singleton values value ih =>
    obtain ⟨echelon, spanned⟩ := ih
    rw [eliminate, foldl_append, foldl_cons, foldl_nil, ← eliminate]
    rcases echelon.reduceInto_cases (eliminate values).2 value.isLt with
      ⟨same, inside⟩ | ⟨next, stored, -, form, inside, grows⟩
    · rw [same]
      refine ⟨echelon, fun other mem => ?_⟩
      rcases mem_append.mp mem with old | new
      · exact spanned other old
      · exact mem_singleton.mp new ▸ inside
    · rw [stored]
      refine ⟨form, fun other mem => ?_⟩
      rcases mem_append.mp mem with old | new
      · exact grows other (spanned other old)
      · exact mem_singleton.mp new ▸ inside

/-- A word that the test finds outside is no exclusive or of the words of the list. -/
theorem not_spanned_of_binarySpanContains {values : List (BitVec width)}
    (outside : binarySpanContains values value = false) : ¬Spanned (eliminate values).1 value := by
  intro spanned
  have echelon := (eliminate_spans values).1
  have same : binaryRank (values ++ [value]) = binaryRank values := by
    rw [binaryRank, eliminate, foldl_append, foldl_cons, foldl_nil, ← eliminate]
    rcases echelon.reduceInto_cases (eliminate values).2 value.isLt with
      ⟨same, -⟩ | ⟨_, -, absent, -⟩
    · rw [same, binaryRank]
    · exact absurd spanned absent
  rw [binarySpanContains, same, beq_self_eq_true] at outside
  exact Bool.noConfusion outside

/-- Elements of a binary field whose words pass the test lie outside the sums of the others. -/
theorem ne_combine_of_binarySpanContains {K : Type} [Field K]
    (words : WordBasis K width) {b : ℕ → K} {count : ℕ} {x : K}
    (outside : binarySpanContains ((List.range count).map fun index => words.toWord (b index))
      (words.toWord x) = false) (mask : ℕ) : x ≠ combine b count mask := by
  rintro rfl
  apply not_spanned_of_binarySpanContains outside
  have spans := (eliminate_spans ((List.range count).map fun index => words.toWord (b index))).2
  have sums : ∀ part ≤ count, Spanned (eliminate ((List.range count).map fun index =>
      words.toWord (b index))).1 (words.toWord (combine b part mask)) := by
    intro part
    induction part with
    | zero =>
      intro _
      rw [combine, Finset.sum_range_zero, words.map_zero]
      exact spanned_zero
    | succ part ih =>
      intro within
      rw [combine_succ, words.map_add]
      refine (ih (Nat.le_of_succ_le within)).xor ?_
      split
      · exact spans _ (mem_map_of_mem (mem_range.mpr within))
      · rw [words.map_zero]
        exact spanned_zero
  exact sums count le_rfl

end Jetsam
