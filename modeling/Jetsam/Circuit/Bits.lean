import Jetsam.Circuit.Builder
import Jetsam.Algebra.WordBasis
import Mathlib.Data.Nat.Bitwise

/-!
# Unsigned arithmetic on bits of a binary field

Numbers are lists of zeros and ones of the field, the low bit first. Sums and comparisons are ripple
recurrences in which the products never overlap, so that the addition of the field is the exclusive
or.
-/

namespace BinaryField.WordBasis

variable {K : Type} {width : ℕ} [Field K] (words : WordBasis K width)

def toNat (x : K) : ℕ := (words.toWord x).toNat

def ofNat (value : ℕ) : K := words.toWord.symm (BitVec.ofNat width value)

theorem toNat_lt (x : K) : words.toNat x < 2 ^ width := (words.toWord x).isLt

theorem toNat_ofNat {value : ℕ} (bound : value < 2 ^ width) :
    words.toNat (words.ofNat value) = value := by
  rw [toNat, ofNat, Equiv.apply_symm_apply, BitVec.toNat_ofNat, Nat.mod_eq_of_lt bound]

theorem ofNat_toNat (x : K) : words.ofNat (words.toNat x) = x := by
  rw [toNat, ofNat, BitVec.ofNat_toNat, BitVec.setWidth_eq, Equiv.symm_apply_apply]

theorem toNat_zero : words.toNat 0 = 0 := by
  rw [toNat, words.map_zero]
  rfl

theorem ofNat_zero : words.ofNat 0 = 0 := by
  rw [← words.toNat_zero, words.ofNat_toNat]

end BinaryField.WordBasis

namespace Circuit

open BinaryField Builder

variable {K : Type} [Field K]

def flag (bit : Bool) : K := if bit then 1 else 0

@[simp] theorem flag_true : (flag true : K) = 1 := rfl

@[simp] theorem flag_false : (flag false : K) = 0 := rfl

theorem flag_mul (a b : Bool) : (flag a * flag b : K) = flag (a && b) := by
  cases a <;> simp

theorem flag_eq_zero {bit : Bool} : (flag bit : K) = 0 ↔ bit = false := by
  cases bit <;> simp

theorem exists_flag {value : K} (boolean : value = 0 ∨ value = 1) : ∃ bit, value = flag bit := by
  rcases boolean with rfl | rfl
  · exact ⟨false, rfl⟩
  · exact ⟨true, rfl⟩

def bitsOf : ℕ → ℕ → List K
  | 0, _ => []
  | count + 1, value => flag (value.testBit 0) :: bitsOf count (value / 2)

@[simp] theorem length_bitsOf (count value : ℕ) : (bitsOf count value : List K).length = count := by
  induction count generalizing value with
  | zero => rfl
  | succ count ih => rw [bitsOf, List.length_cons, ih]

theorem bitsOf_eq_map (count value : ℕ) :
    (bitsOf count value : List K) = (List.range count).map fun i => flag (value.testBit i) := by
  induction count generalizing value with
  | zero => rfl
  | succ count ih =>
    rw [bitsOf, ih, List.range_succ_eq_map, List.map_cons, List.map_map]
    congr 1
    apply List.map_congr_left
    intro i _
    rw [Function.comp_apply, Nat.testBit_div_two]

theorem getD_bitsOf {count value i : ℕ} (inside : i < count) :
    (bitsOf count value : List K).getD i 0 = flag (value.testBit i) := by
  rw [bitsOf_eq_map]
  simp [List.getD_eq_getElem?_getD, inside]

theorem bitsOf_zero (count : ℕ) : (bitsOf count 0 : List K) = List.replicate count 0 := by
  induction count with
  | zero => rfl
  | succ count ih => rw [bitsOf, Nat.zero_div, ih, List.replicate_succ]; rfl

theorem bitsOf_append_zeros {count value : ℕ} (bound : value < 2 ^ count) (extra : ℕ) :
    (bitsOf count value : List K) ++ List.replicate extra 0 = bitsOf (count + extra) value := by
  rw [bitsOf_eq_map, bitsOf_eq_map, List.range_add, List.map_append, List.map_map]
  congr 1
  apply List.ext_getElem
  · simp
  · intro i left right
    have high : value.testBit (count + i) = false :=
      Nat.testBit_lt_two_pow (bound.trans_le (Nat.pow_le_pow_right two_pos (Nat.le_add_right _ _)))
    simp [high]

def valueOf : List Bool → ℕ
  | [] => 0
  | bit :: bits => bit.toNat + 2 * valueOf bits

theorem valueOf_lt (bits : List Bool) : valueOf bits < 2 ^ bits.length := by
  induction bits with
  | nil => exact one_pos
  | cons bit bits ih =>
    have small := bit.toNat_lt
    rw [valueOf, List.length_cons, pow_succ]
    omega

theorem bitsOf_valueOf (bits : List Bool) :
    (bitsOf bits.length (valueOf bits) : List K) = bits.map flag := by
  induction bits with
  | nil => rfl
  | cons bit bits ih =>
    have small := bit.toNat_lt
    have half : (bit.toNat + 2 * valueOf bits) / 2 = valueOf bits := by omega
    have low : (bit.toNat + 2 * valueOf bits).testBit 0 = bit := by
      cases bit <;> simp
    rw [List.length_cons, bitsOf, valueOf, half, low, ih, List.map_cons]

section Words

variable {width : ℕ} (words : WordBasis K width)

def place (position : ℕ) : K := words.toWord.symm (BitVec.twoPow width position)

/-- The element of some bits, the first at the given position. -/
def packBits (offset : ℕ) (bits : List K) : K :=
  ((bits.zipIdx offset).map fun entry => entry.1 * place words entry.2).sum

def reconstructBits (bits : List K) : K := packBits words 0 bits

theorem packBits_cons (offset : ℕ) (bit : K) (bits : List K) :
    packBits words offset (bit :: bits) =
      bit * place words offset + packBits words (offset + 1) bits := by
  rfl

theorem flag_mul_place (bit : Bool) (position : ℕ) :
    flag bit * place words position =
      words.toWord.symm (if bit then BitVec.twoPow width position else 0) := by
  cases bit
  · rw [flag_false, zero_mul]
    exact (words.ofNat_zero).symm
  · rw [flag_true, one_mul]
    rfl

theorem packBits_bitsOf (offset count value : ℕ) :
    packBits words offset (bitsOf count value) =
      words.ofNat (value % 2 ^ count * 2 ^ offset) := by
  induction count generalizing offset value with
  | zero =>
    rw [pow_zero, Nat.mod_one, Nat.zero_mul, words.ofNat_zero]
    rfl
  | succ count ih =>
    rw [bitsOf, packBits_cons, ih, flag_mul_place, WordBasis.ofNat, WordBasis.ofNat,
      ← words.symm_xor]
    congr 1
    apply BitVec.eq_of_getLsbD_eq
    intro i inside
    have single : (if value.testBit 0 then BitVec.twoPow width offset else 0).getLsbD i =
        (value.testBit 0 && decide (i = offset)) := by
      cases value.testBit 0
      · simp
      · simp [inside, eq_comm]
    simp only [BitVec.getLsbD_xor, BitVec.getLsbD_ofNat, single, inside, decide_true,
      Bool.true_and, Nat.testBit_mul_two_pow, Nat.testBit_mod_two_pow, Nat.testBit_div_two]
    rcases lt_trichotomy i offset with below | rfl | above
    · simp [not_le.mpr below, not_le.mpr (below.trans (Nat.lt_succ_self _)), below.ne]
    · simp
    · obtain ⟨more, rfl⟩ := Nat.exists_eq_add_of_lt above
      have first : offset + more + 1 - offset = more + 1 := by omega
      have second : offset + more + 1 - (offset + 1) = more := by omega
      simp only [first, second]
      simp [add_assoc]

theorem reconstructBits_bitsOf {count value : ℕ} (bound : value < 2 ^ count) :
    reconstructBits words (bitsOf count value) = words.ofNat value := by
  rw [reconstructBits, packBits_bitsOf, Nat.mod_eq_of_lt bound, pow_zero, mul_one]

/-- Allocate the low bits of a word and pin their sum to the expression. -/
def rangeCheckBits (expr : K) (count : ℕ) : Builder K (List K) := do
  let bits ← (List.range count).mapM fun i => bool ((words.toWord expr).getLsbD i)
  pinZero (reconstructBits words bits + expr)
  return bits

theorem accepts_mapM_bool {indices : List ℕ} {native : ℕ → Bool} {bits : List K}
    (accepted : (indices.mapM fun i => bool (native i) : Builder K (List K)).Accepts bits) :
    ∃ bools : List Bool, bools.length = indices.length ∧ bits = bools.map flag := by
  induction indices generalizing bits with
  | nil =>
    obtain rfl := accepts_pure.mp accepted
    exact ⟨[], rfl, rfl⟩
  | cons i indices ih =>
    rw [List.mapM_cons] at accepted
    obtain ⟨first, allocated, rest⟩ := accepts_bind.mp accepted
    obtain ⟨later, others, last⟩ := accepts_bind.mp rest
    obtain rfl := accepts_pure.mp last
    obtain ⟨bit, rfl⟩ := exists_flag (accepts_bool.mp allocated)
    obtain ⟨bools, length, rfl⟩ := ih others
    exact ⟨bit :: bools, by rw [List.length_cons, List.length_cons, length], rfl⟩

theorem written_mapM_bool [DecidableEq K] (indices : List ℕ) (native : ℕ → Bool) :
    (indices.mapM fun i => bool (native i) : Builder K (List K)).written =
      some (indices.map fun i => flag (native i)) := by
  induction indices with
  | nil => rfl
  | cons i indices ih =>
    rw [List.mapM_cons, written_bind, written_bool, Option.bind_some, written_bind, ih]
    rfl

theorem rangeCheckBits_enforces [CharP K 2] [DecidableEq K] (expr : K) {count : ℕ}
    (fits : count ≤ width) :
    (rangeCheckBits words expr count).Enforces (words.toNat expr < 2 ^ count)
      (bitsOf count (words.toNat expr)) where
  sound := fun accepted => by
    obtain ⟨bits, allocated, rest⟩ := accepts_bind.mp accepted
    obtain ⟨⟨⟩, pinned, last⟩ := accepts_bind.mp rest
    obtain rfl := accepts_pure.mp last
    obtain ⟨bools, length, rfl⟩ := accepts_mapM_bool allocated
    rw [List.length_range] at length
    have bound := valueOf_lt bools
    have same := CharTwo.add_eq_zero.mp (accepts_pinZero.mp pinned)
    rw [← bitsOf_valueOf, reconstructBits_bitsOf words bound] at same
    have value : words.toNat expr = valueOf bools := by
      rw [← same, words.toNat_ofNat]
      exact bound.trans_le (Nat.pow_le_pow_right two_pos (length ▸ fits))
    rw [value, ← bitsOf_valueOf, ← length]
    exact ⟨bound, rfl⟩
  complete := fun bound => by
    have bits : ((List.range count).map fun i => flag ((words.toWord expr).getLsbD i)) =
        (bitsOf count (words.toNat expr) : List K) := (bitsOf_eq_map _ _).symm
    rw [rangeCheckBits, written_bind, written_mapM_bool, Option.bind_some, bits, written_bind,
      written_pinZero]
    · rfl
    · rw [reconstructBits_bitsOf words bound, words.ofNat_toNat, CharTwo.add_self_eq_zero]

end Words

end Circuit
