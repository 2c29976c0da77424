import Mathlib.Data.List.Induction
import Mathlib.Data.Nat.Bitwise
import Mathlib.Tactic.Ring
import Mathlib.Tactic.LinearCombination
import Mathlib.Tactic.Zify

/-!
# Numbers as lists of digits

Little-endian lists of machine words, with the loops that add, multiply, shift and compare them, and
the number each loop computes.
-/

namespace Limbs

open List

variable {w : ℕ}

/-- The number a list of digits stands for, least significant digit first. -/
def value : List (BitVec w) → ℕ
  | [] => 0
  | digit :: digits => digit.toNat + 2 ^ w * value digits

@[simp]
theorem value_nil : value ([] : List (BitVec w)) = 0 := rfl

@[simp]
theorem value_cons (digit : BitVec w) (digits : List (BitVec w)) :
    value (digit :: digits) = digit.toNat + 2 ^ w * value digits := rfl

theorem two_pow_mul_succ (w length : ℕ) : 2 ^ (w * (length + 1)) = 2 ^ w * 2 ^ (w * length) := by
  rw [Nat.mul_succ, add_comm, pow_add]

variable (digits : List (BitVec w))

theorem value_lt : value digits < 2 ^ (w * digits.length) := by
  induction digits with
  | nil => simp
  | cons digit digits ih =>
    rw [value_cons, length_cons, two_pow_mul_succ]
    calc
      digit.toNat + 2 ^ w * value digits < 2 ^ w * (value digits + 1) := by
        rw [Nat.mul_succ]
        omega
      _ ≤ 2 ^ w * 2 ^ (w * digits.length) := Nat.mul_le_mul_left _ ih

theorem value_append (low high : List (BitVec w)) :
    value (low ++ high) = value low + 2 ^ (w * low.length) * value high := by
  induction low with
  | nil => simp
  | cons digit low ih =>
    rw [cons_append, value_cons, ih, value_cons, length_cons, two_pow_mul_succ]
    ring

theorem value_replicate_zero (length : ℕ) :
    value (List.replicate length 0#w) = 0 := by
  induction length with
  | zero => rfl
  | succ length ih => simp [replicate_succ, ih]

theorem eq_of_value_eq {left right : List (BitVec w)} (length : left.length = right.length)
    (same : value left = value right) : left = right := by
  induction left generalizing right with
  | nil => exact (length_eq_zero_iff.mp length.symm).symm
  | cons digit left ih =>
    cases right with
    | nil => cases length
    | cons digit' right =>
      rw [value_cons, value_cons] at same
      have low := congrArg (· % 2 ^ w) same
      have high := congrArg (· / 2 ^ w) same
      simp only [Nat.add_mul_mod_self_left, Nat.mod_eq_of_lt digit.isLt,
        Nat.mod_eq_of_lt digit'.isLt, Nat.add_mul_div_left _ _ (Nat.two_pow_pos w),
        Nat.div_eq_of_lt digit.isLt, Nat.div_eq_of_lt digit'.isLt, zero_add] at low high
      rw [BitVec.eq_of_toNat_eq low, ih (Nat.succ.inj length) high]

theorem value_digits {width : ℕ} (word : BitVec width) (count : ℕ) :
    value ((List.range count).map fun index => (word >>> (w * index)).setWidth w) =
      word.toNat % 2 ^ (w * count) := by
  induction count with
  | zero => simp [Nat.mod_one]
  | succ count ih =>
    rw [range_succ, map_append, value_append, ih, length_map, length_range, map_singleton,
      value_cons, value_nil, Nat.mul_zero, add_zero, BitVec.toNat_setWidth,
      BitVec.toNat_ushiftRight, Nat.shiftRight_eq_div_pow, Nat.mul_succ, pow_add, Nat.mod_mul]

variable {count : ℕ}

theorem value_take_add (inside : count ≤ digits.length) :
    value (digits.take count) + 2 ^ (w * count) * value (digits.drop count) = value digits := by
  have split := value_append (digits.take count) (digits.drop count)
  rw [take_append_drop, length_take, min_eq_left inside] at split
  exact split.symm

theorem value_take (inside : count ≤ digits.length) :
    value (digits.take count) = value digits % 2 ^ (w * count) := by
  have bound := value_lt (digits.take count)
  rw [length_take, min_eq_left inside] at bound
  rw [← value_take_add digits inside, Nat.add_mul_mod_self_left, Nat.mod_eq_of_lt bound]

theorem value_drop (inside : count ≤ digits.length) :
    value (digits.drop count) = value digits / 2 ^ (w * count) := by
  have bound := value_lt (digits.take count)
  rw [length_take, min_eq_left inside] at bound
  rw [← value_take_add digits inside, Nat.add_mul_div_left _ _ (Nat.two_pow_pos _),
    Nat.div_eq_of_lt bound, zero_add]

def addCarry : List (BitVec w) → List (BitVec w) → ℕ → List (BitVec w) × ℕ
  | x :: xs, y :: ys, carry =>
    let sum := x.toNat + y.toNat + carry
    let rest := addCarry xs ys (sum >>> w)
    (BitVec.ofNat w sum :: rest.1, rest.2)
  | _, _, carry => ([], carry)

theorem toNat_ofNat_add (w sum : ℕ) :
    (BitVec.ofNat w sum).toNat + 2 ^ w * (sum >>> w) = sum := by
  rw [BitVec.toNat_ofNat, Nat.shiftRight_eq_div_pow, Nat.mod_add_div]

theorem length_addCarry (xs ys : List (BitVec w)) (carry : ℕ) :
    (addCarry xs ys carry).1.length = min xs.length ys.length := by
  induction xs generalizing ys carry with
  | nil => simp [addCarry]
  | cons x xs ih =>
    cases ys with
    | nil => simp [addCarry]
    | cons y ys => simp [addCarry, ih, Nat.add_min_add_right]

variable {xs ys : List (BitVec w)}

theorem value_addCarry (same : xs.length = ys.length) (carry : ℕ) :
    value (addCarry xs ys carry).1 + 2 ^ (w * xs.length) * (addCarry xs ys carry).2 =
      value xs + value ys + carry := by
  induction xs generalizing ys carry with
  | nil =>
    cases ys with
    | nil => simp [addCarry]
    | cons y ys => cases same
  | cons x xs ih =>
    cases ys with
    | nil => cases same
    | cons y ys =>
      have rest := ih (Nat.succ.inj same) ((x.toNat + y.toNat + carry) >>> w)
      have digit := toNat_ofNat_add w (x.toNat + y.toNat + carry)
      rw [addCarry, value_cons, length_cons, two_pow_mul_succ, value_cons, value_cons]
      linear_combination (2 ^ w) * rest + digit

/-- Add one; nothing if the number is the largest of its length. -/
def addOne : List (BitVec w) → Option (List (BitVec w))
  | [] => none
  | x :: xs => if x.toNat + 1 < 2 ^ w then some ((x + 1) :: xs) else (addOne xs).map ((x + 1) :: ·)

theorem addOne_eq_some (added : addOne xs = some ys) :
    ys.length = xs.length ∧ value ys = value xs + 1 := by
  induction xs generalizing ys with
  | nil => cases added
  | cons x xs ih =>
    rw [addOne] at added
    have next : (x + 1).toNat = (x.toNat + 1) % 2 ^ w := by
      rw [BitVec.toNat_add, BitVec.ofNat_eq_ofNat, BitVec.toNat_ofNat, Nat.add_mod_mod]
    split at added
    · rename_i small
      cases added
      rw [Nat.mod_eq_of_lt small] at next
      exact ⟨rfl, by rw [value_cons, value_cons, next]; omega⟩
    · rename_i full
      obtain ⟨zs, more, rfl⟩ := Option.map_eq_some_iff.mp added
      obtain ⟨length, carried⟩ := ih more
      have top : x.toNat + 1 = 2 ^ w := by
        omega
      rw [top, Nat.mod_self] at next
      refine ⟨by rw [length_cons, length_cons, length], ?_⟩
      rw [value_cons, value_cons, next, carried, Nat.mul_succ]
      omega

theorem addOne_eq_none (full : addOne xs = none) :
    value xs + 1 = 2 ^ (w * xs.length) := by
  induction xs with
  | nil => simp
  | cons x xs ih =>
    rw [addOne] at full
    split at full
    · cases full
    · have rest := ih (Option.map_eq_none_iff.mp full)
      rw [value_cons, length_cons, two_pow_mul_succ, ← rest, Nat.mul_succ]
      omega

def mulCarry (factor : ℕ) : List (BitVec w) → ℕ → List (BitVec w) × ℕ
  | [], carry => ([], carry)
  | x :: xs, carry =>
    let product := x.toNat * factor + carry
    let rest := mulCarry factor xs (product >>> w)
    (BitVec.ofNat w product :: rest.1, rest.2)

theorem length_mulCarry (factor : ℕ) (xs : List (BitVec w)) (carry : ℕ) :
    (mulCarry factor xs carry).1.length = xs.length := by
  induction xs generalizing carry with
  | nil => rfl
  | cons x xs ih => simp [mulCarry, ih]

theorem value_mulCarry (factor : ℕ) (xs : List (BitVec w)) (carry : ℕ) :
    value (mulCarry factor xs carry).1 + 2 ^ (w * xs.length) * (mulCarry factor xs carry).2 =
      value xs * factor + carry := by
  induction xs generalizing carry with
  | nil => simp [mulCarry]
  | cons x xs ih =>
    have rest := ih ((x.toNat * factor + carry) >>> w)
    have digit := toNat_ofNat_add w (x.toNat * factor + carry)
    rw [mulCarry, value_cons, length_cons, two_pow_mul_succ, value_cons]
    linear_combination (2 ^ w) * rest + digit

def subBorrow : List (BitVec w) → List (BitVec w) → ℕ → List (BitVec w) × ℕ
  | x :: xs, y :: ys, borrow =>
    let diff : ℤ := x.toNat - y.toNat - borrow
    if diff < 0 then
      let rest := subBorrow xs ys 1
      (BitVec.ofInt w (diff + 2 ^ w) :: rest.1, rest.2)
    else
      let rest := subBorrow xs ys 0
      (BitVec.ofInt w diff :: rest.1, rest.2)
  | _, _, borrow => ([], borrow)

theorem length_subBorrow (xs ys : List (BitVec w)) (borrow : ℕ) :
    (subBorrow xs ys borrow).1.length = min xs.length ys.length := by
  induction xs generalizing ys borrow with
  | nil => simp [subBorrow]
  | cons x xs ih =>
    cases ys with
    | nil => simp [subBorrow]
    | cons y ys =>
      rw [subBorrow]
      split <;> simp [ih, Nat.add_min_add_right]

theorem toNat_ofInt_of_lt {diff : ℤ} (nonneg : 0 ≤ diff) (small : diff < 2 ^ w) :
    ((BitVec.ofInt w diff).toNat : ℤ) = diff := by
  rw [BitVec.toNat_ofInt]
  push_cast
  rw [Int.emod_eq_of_lt nonneg small, Int.toNat_of_nonneg nonneg]

theorem value_subBorrow (same : xs.length = ys.length) {borrow : ℕ} (bit : borrow ≤ 1) :
    value (subBorrow xs ys borrow).1 + value ys + borrow =
      value xs + 2 ^ (w * xs.length) * (subBorrow xs ys borrow).2 := by
  induction xs generalizing ys borrow with
  | nil =>
    cases ys with
    | nil => simp [subBorrow]
    | cons y ys => cases same
  | cons x xs ih =>
    cases ys with
    | nil => cases same
    | cons y ys =>
      have small : (x.toNat : ℤ) < 2 ^ w := by exact_mod_cast x.isLt
      have small' : (y.toNat : ℤ) < 2 ^ w := by exact_mod_cast y.isLt
      rw [subBorrow, length_cons, two_pow_mul_succ, value_cons, value_cons]
      split
      · have rest := ih (Nat.succ.inj same) (le_refl 1)
        have digit : ((BitVec.ofInt w (x.toNat - y.toNat - borrow + 2 ^ w)).toNat : ℤ) =
            x.toNat - y.toNat - borrow + 2 ^ w :=
          toNat_ofInt_of_lt (by omega) (by omega)
        rw [value_cons]
        zify at rest ⊢
        rw [digit]
        linear_combination (2 ^ w) * rest
      · have rest := ih (Nat.succ.inj same) (Nat.zero_le 1)
        have digit : ((BitVec.ofInt w (x.toNat - y.toNat - borrow)).toNat : ℤ) =
            x.toNat - y.toNat - borrow :=
          toNat_ofInt_of_lt (by omega) (by omega)
        rw [value_cons]
        zify at rest ⊢
        rw [digit]
        linear_combination (2 ^ w) * rest

def lessFrom : List (BitVec w) → List (BitVec w) → Bool
  | x :: xs, y :: ys => if x < y then true else if y < x then false else lessFrom xs ys
  | _, _ => false

def less (xs ys : List (BitVec w)) : Bool := lessFrom xs.reverse ys.reverse

theorem less_append_singleton (xs ys : List (BitVec w)) (x y : BitVec w) :
    less (xs ++ [x]) (ys ++ [y]) = if x < y then true else if y < x then false else less xs ys := by
  simp only [less, reverse_append, reverse_singleton, singleton_append, lessFrom]

theorem less_iff (same : xs.length = ys.length) :
    less xs ys = true ↔ value xs < value ys := by
  induction xs using List.reverseRecOn generalizing ys with
  | nil =>
    obtain rfl := length_eq_zero_iff.mp same.symm
    simp [less, lessFrom]
  | append_singleton xs x ih =>
    rcases eq_nil_or_concat ys with rfl | ⟨ys, y, rfl⟩
    · simp at same
    · rw [concat_eq_append] at same ⊢
      have same' : xs.length = ys.length := by simpa using same
      have low := value_lt xs
      have low' := value_lt ys
      rw [← same'] at low'
      rw [less_append_singleton, value_append, value_append, ← same']
      simp only [value_cons, value_nil, Nat.mul_zero, add_zero, BitVec.lt_def]
      -- the last digit decides unless it is the same
      rcases lt_trichotomy x.toNat y.toNat with below | equal | above
      · have step : 2 ^ (w * xs.length) * (x.toNat + 1) ≤ 2 ^ (w * xs.length) * y.toNat :=
          Nat.mul_le_mul_left _ below
        rw [Nat.mul_succ] at step
        rw [if_pos below]
        simp only [true_iff]
        omega
      · rw [equal, if_neg (lt_irrefl _), if_neg (lt_irrefl _), ih same', add_lt_add_iff_right]
      · have step : 2 ^ (w * xs.length) * (y.toNat + 1) ≤ 2 ^ (w * xs.length) * x.toNat :=
          Nat.mul_le_mul_left _ above
        rw [Nat.mul_succ] at step
        rw [if_neg (lt_asymm above), if_pos above]
        simp only [Bool.false_eq_true, false_iff, not_lt]
        omega

/-- Shift every digit to the left, the bits that leave a digit enter the next one. -/
def shiftLeftBits (bits : ℕ) : List (BitVec w) → BitVec w → List (BitVec w)
  | [], _ => []
  | x :: xs, carry => (x <<< bits ||| carry) :: shiftLeftBits bits xs (x >>> (w - bits))

@[simp]
theorem length_shiftLeftBits (bits : ℕ) (xs : List (BitVec w)) (carry : BitVec w) :
    (shiftLeftBits bits xs carry).length = xs.length := by
  induction xs generalizing carry with
  | nil => rfl
  | cons x xs ih => simp [shiftLeftBits, ih]

variable {bits : ℕ}

theorem toNat_shiftLeft_or (fits : bits ≤ w) (x : BitVec w) {carry : BitVec w}
    (small : carry.toNat < 2 ^ bits) :
    (x <<< bits ||| carry).toNat + 2 ^ w * (x >>> (w - bits)).toNat =
      2 ^ bits * x.toNat + carry.toNat := by
  have split : 2 ^ w = 2 ^ bits * 2 ^ (w - bits) := by rw [← pow_add, Nat.add_sub_cancel' fits]
  have kept : (x <<< bits).toNat = 2 ^ bits * (x.toNat % 2 ^ (w - bits)) := by
    rw [BitVec.toNat_shiftLeft, Nat.shiftLeft_eq, split, mul_comm x.toNat, Nat.mul_mod_mul_left]
  have joined : (x <<< bits ||| carry).toNat = (x <<< bits).toNat + carry.toNat := by
    rw [BitVec.toNat_or, kept, Nat.two_pow_add_eq_or_of_lt small]
  rw [joined, kept, BitVec.toNat_ushiftRight, Nat.shiftRight_eq_div_pow, split]
  have whole := Nat.mod_add_div x.toNat (2 ^ (w - bits))
  linear_combination (2 ^ bits) * whole

theorem value_shiftLeftBits (fits : bits ≤ w) (xs : List (BitVec w)) {carry : BitVec w}
    (small : carry.toNat < 2 ^ bits) :
    value (shiftLeftBits bits xs carry) =
      (2 ^ bits * value xs + carry.toNat) % 2 ^ (w * xs.length) := by
  suffices lost : ∃ out, value (shiftLeftBits bits xs carry) + 2 ^ (w * xs.length) * out =
      2 ^ bits * value xs + carry.toNat by
    obtain ⟨out, sum⟩ := lost
    have bound := value_lt (shiftLeftBits bits xs carry)
    rw [length_shiftLeftBits] at bound
    rw [← sum, Nat.add_mul_mod_self_left, Nat.mod_eq_of_lt bound]
  induction xs generalizing carry with
  | nil => exact ⟨carry.toNat, by simp [shiftLeftBits]⟩
  | cons x xs ih =>
    have leaves : (x >>> (w - bits)).toNat < 2 ^ bits := by
      rw [BitVec.toNat_ushiftRight, Nat.shiftRight_eq_div_pow]
      apply Nat.div_lt_of_lt_mul
      rw [← pow_add, Nat.sub_add_cancel fits]
      exact x.isLt
    obtain ⟨out, rest⟩ := ih leaves
    have digit := toNat_shiftLeft_or fits x small
    refine ⟨out, ?_⟩
    rw [shiftLeftBits, value_cons, length_cons, two_pow_mul_succ, value_cons]
    linear_combination (2 ^ w) * rest + digit

/-- Shift every digit to the right, from the most significant one; also the bits that fall out. -/
def shiftRightBits (bits : ℕ) : List (BitVec w) → List (BitVec w) × BitVec w
  | [] => ([], 0#w)
  | x :: xs =>
    let rest := shiftRightBits bits xs
    ((x >>> bits ||| rest.2) :: rest.1, x <<< (w - bits))

@[simp]
theorem length_shiftRightBits (bits : ℕ) (xs : List (BitVec w)) :
    (shiftRightBits bits xs).1.length = xs.length := by
  induction xs with
  | nil => rfl
  | cons x xs ih => simp [shiftRightBits, ih]

theorem value_shiftRightBits (fits : bits ≤ w) (xs : List (BitVec w)) :
    value (shiftRightBits bits xs).1 = value xs / 2 ^ bits ∧
      (shiftRightBits bits xs).2.toNat = value xs % 2 ^ bits * 2 ^ (w - bits) := by
  have split : 2 ^ w = 2 ^ bits * 2 ^ (w - bits) := by rw [← pow_add, Nat.add_sub_cancel' fits]
  induction xs with
  | nil => simp [shiftRightBits]
  | cons x xs ih =>
    obtain ⟨high, carry⟩ := ih
    constructor
    · have small : x.toNat / 2 ^ bits < 2 ^ (w - bits) := by
        apply Nat.div_lt_of_lt_mul
        rw [← split]
        exact x.isLt
      have joined : (x >>> bits ||| (shiftRightBits bits xs).2).toNat =
          x.toNat / 2 ^ bits + value xs % 2 ^ bits * 2 ^ (w - bits) := by
        rw [BitVec.toNat_or, carry, BitVec.toNat_ushiftRight, Nat.shiftRight_eq_div_pow,
          Nat.or_comm, Nat.mul_comm, ← Nat.two_pow_add_eq_or_of_lt small, Nat.add_comm]
      have whole := Nat.mod_add_div (value xs) (2 ^ bits)
      have quotient : (x.toNat + 2 ^ w * value xs) / 2 ^ bits =
          x.toNat / 2 ^ bits + 2 ^ (w - bits) * value xs := by
        rw [split, mul_assoc, Nat.add_mul_div_left _ _ (Nat.two_pow_pos bits)]
      rw [shiftRightBits, value_cons, joined, high, value_cons, quotient, split]
      linear_combination 2 ^ (w - bits) * whole
    · have low : (x.toNat + 2 ^ w * value xs) % 2 ^ bits = x.toNat % 2 ^ bits := by
        rw [split, mul_assoc, Nat.add_mul_mod_self_left]
      rw [shiftRightBits, value_cons, low, BitVec.toNat_shiftLeft, Nat.shiftLeft_eq, split,
        Nat.mul_mod_mul_right]

theorem testBit_value (xs : List (BitVec w)) (pos : 0 < w) (bit : ℕ) :
    (value xs).testBit bit = (xs.getD (bit / w) 0#w).getLsbD (bit % w) := by
  induction xs generalizing bit with
  | nil => simp
  | cons x xs ih =>
    rw [value_cons, add_comm, Nat.testBit_two_pow_mul_add _ x.isLt]
    split
    · rename_i below
      rw [Nat.div_eq_of_lt below, Nat.mod_eq_of_lt below, getD_cons_zero]
      rfl
    · rename_i above
      have apart : bit = bit - w + w := by omega
      rw [ih, apart, Nat.add_sub_cancel, Nat.add_div_right _ pos, Nat.add_mod_right,
        getD_cons_succ]

def setBit (xs : List (BitVec w)) (bit : ℕ) : List (BitVec w) :=
  xs.modify (bit / w) fun digit => digit ||| 1#w <<< (bit % w)

@[simp]
theorem length_setBit (xs : List (BitVec w)) (bit : ℕ) : (setBit xs bit).length = xs.length := by
  simp [setBit]

theorem value_setBit {bit : ℕ} (inside : bit < w * xs.length) (clear : 2 ^ (bit + 1) ∣ value xs) :
    value (setBit xs bit) = value xs + 2 ^ bit := by
  induction xs generalizing bit with
  | nil => simp at inside
  | cons x xs ih =>
    rw [value_cons] at clear
    rcases lt_or_ge bit w with below | above
    · have here : 2 ^ (bit + 1) ∣ x.toNat := by
        apply (Nat.dvd_add_left _).mp clear
        exact (Nat.pow_dvd_pow 2 below).trans (Nat.dvd_mul_right _ _)
      obtain ⟨high, digit⟩ := here
      have joined : (x ||| 1#w <<< bit).toNat = x.toNat + 2 ^ bit := by
        have weight : (1#w <<< bit).toNat = 2 ^ bit := by
          have one := Nat.one_mod_two_pow_eq_one.mpr (Nat.zero_lt_of_lt below)
          rw [BitVec.toNat_shiftLeft, BitVec.toNat_ofNat, one, Nat.shiftLeft_eq, one_mul]
          exact Nat.mod_eq_of_lt (Nat.pow_lt_pow_right one_lt_two below)
        rw [BitVec.toNat_or, weight, digit,
          Nat.two_pow_add_eq_or_of_lt (Nat.pow_lt_pow_right one_lt_two (Nat.lt_succ_self bit))]
      rw [setBit, Nat.div_eq_of_lt below, Nat.mod_eq_of_lt below, modify_zero_cons,
        value_cons, joined, value_cons]
      omega
    · have apart : bit = bit - w + w := by omega
      have pos : 0 < w := by
        rcases eq_zero_or_pos w with rfl | pos
        · simp at inside
        · exact pos
      have low : x.toNat = 0 := by
        apply Nat.eq_zero_of_dvd_of_lt _ x.isLt
        apply (Nat.dvd_add_left (Nat.dvd_mul_right _ _)).mp
        exact (Nat.pow_dvd_pow 2 (by omega)).trans clear
      have high : 2 ^ (bit - w + 1) ∣ value xs := by
        rw [low, zero_add] at clear
        apply Nat.dvd_of_mul_dvd_mul_left (Nat.two_pow_pos w)
        rwa [← pow_add, show w + (bit - w + 1) = bit + 1 by omega]
      have inside' : bit - w < w * xs.length := by
        rw [length_cons, Nat.mul_succ] at inside
        omega
      have rest := ih inside' high
      rw [setBit] at rest ⊢
      rw [apart, Nat.add_div_right _ pos, Nat.add_mod_right, modify_succ_cons,
        value_cons, rest, value_cons, pow_add]
      ring

end Limbs
