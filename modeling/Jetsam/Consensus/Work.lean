import Mathlib.Algebra.Order.Floor.Div
import Jetsam.Control.Limbs
import Jetsam.Control.Tables
import Jetsam.Networking.Types
import Jetsam.Tx.Wire

/-!
# Work

Targets and work are 256-bit numbers in 32 little-endian bytes. The work of a target is a bitwise
long division, accumulated by a saturating addition.
-/

namespace Jetsam

open List

@[ext]
structure Bytes32 where
  bytes : List (BitVec 8)
  length : bytes.length = 32
deriving DecidableEq

namespace Bytes32

def toNat (bytes : Bytes32) : ℕ := Limbs.value bytes.bytes

theorem toNat_lt (bytes : Bytes32) : bytes.toNat < 2 ^ 256 := by
  have bound := Limbs.value_lt bytes.bytes
  rwa [bytes.length] at bound

theorem toNat_injective : Function.Injective toNat := by
  intro left right same
  apply Bytes32.ext
  exact Limbs.eq_of_value_eq (left.length.trans right.length.symm) same

def zero : Bytes32 := ⟨List.replicate 32 0#8, List.length_replicate⟩

def max : Bytes32 := ⟨List.replicate 32 0xFF#8, List.length_replicate⟩

@[simp]
theorem toNat_zero : zero.toNat = 0 := Limbs.value_replicate_zero 32

theorem toNat_max : max.toNat = 2 ^ 256 - 1 := by decide

end Bytes32

/-- Compare two numbers from the most significant byte on. -/
def le256Lt (a b : Bytes32) : Bool := Limbs.less a.bytes b.bytes

def isZero256 (a : Bytes32) : Bool := a.bytes.all fun byte => byte == 0#8

def ge256 (a b : Bytes32) : Bool := !le256Lt a b

/-- Shift by one bit; the top bit is lost. -/
def shl1_256 (a : Bytes32) : Bytes32 :=
  ⟨Limbs.shiftLeftBits 1 a.bytes 0#8, by rw [Limbs.length_shiftLeftBits, a.length]⟩

/-- Subtract; the last borrow is lost. -/
def subAssign256 (a b : Bytes32) : Bytes32 :=
  ⟨(Limbs.subBorrow a.bytes b.bytes 0).1, by
    rw [Limbs.length_subBorrow, a.length, b.length, Nat.min_self]⟩

def bit256 (a : Bytes32) (bit : ℕ) : Bool := (a.bytes.getD (bit / 8) 0#8).getLsbD (bit % 8)

def setBit256 (a : Bytes32) (bit : ℕ) : Bytes32 :=
  ⟨Limbs.setBit a.bytes bit, by rw [Limbs.length_setBit, a.length]⟩

variable {a b : Bytes32}

theorem le256Lt_iff : le256Lt a b = true ↔ a.toNat < b.toNat :=
  Limbs.less_iff (a.length.trans b.length.symm)

theorem ge256_iff : ge256 a b = true ↔ b.toNat ≤ a.toNat := by
  rw [ge256, Bool.not_eq_true', ← Bool.not_eq_true, le256Lt_iff, not_lt]

theorem isZero256_iff : isZero256 a = true ↔ a.toNat = 0 := by
  have all : isZero256 a = true ↔ a.bytes = List.replicate 32 0#8 := by
    rw [isZero256, all_eq_true, eq_replicate_iff]
    simp [a.length]
  rw [all]
  constructor
  · intro same
    rw [Bytes32.toNat, same, Limbs.value_replicate_zero]
  · intro zero
    exact congrArg Bytes32.bytes (Bytes32.toNat_injective (zero.trans Bytes32.toNat_zero.symm))

theorem toNat_shl1_256 (small : 2 * a.toNat < 2 ^ 256) :
    (shl1_256 a).toNat = 2 * a.toNat := by
  have shifted : Limbs.value (Limbs.shiftLeftBits 1 a.bytes 0#8) =
      (2 ^ 1 * Limbs.value a.bytes + 0) % 2 ^ (8 * a.bytes.length) :=
    Limbs.value_shiftLeftBits (by decide) a.bytes (by decide)
  rw [a.length, pow_one, add_zero] at shifted
  exact shifted.trans (Nat.mod_eq_of_lt small)

theorem toNat_subAssign256 (below : b.toNat ≤ a.toNat) :
    (subAssign256 a b).toNat = a.toNat - b.toNat := by
  have sum := Limbs.value_subBorrow (a.length.trans b.length.symm) (Nat.zero_le 1)
  have bound := (subAssign256 a b).toNat_lt
  rw [a.length] at sum
  change (subAssign256 a b).toNat + b.toNat + 0 = a.toNat + 2 ^ 256 * _ at sum
  have none : (Limbs.subBorrow a.bytes b.bytes 0).2 = 0 := by
    by_contra borrowed
    have borrow : 1 ≤ (Limbs.subBorrow a.bytes b.bytes 0).2 := Nat.one_le_iff_ne_zero.mpr borrowed
    omega
  omega

theorem bit256_eq (a : Bytes32) (bit : ℕ) : bit256 a bit = a.toNat.testBit bit :=
  (Limbs.testBit_value a.bytes (by decide) bit).symm

variable {bit : ℕ}

theorem toNat_setBit256 (inside : bit < 256) (clear : 2 ^ (bit + 1) ∣ a.toNat) :
    (setBit256 a bit).toNat = a.toNat + 2 ^ bit :=
  Limbs.value_setBit (by rw [a.length]; exact inside) clear

structure DivState where
  quotient : Bytes32
  remainder : Bytes32

/-- One round: shift the next bit of the numerator into the remainder and subtract if possible. -/
def divStep (numerator denominator : Bytes32) (state : DivState) (bit : ℕ) : DivState :=
  let shifted := shl1_256 state.remainder
  let remainder := if bit256 numerator bit then setBit256 shifted 0 else shifted
  if ge256 remainder denominator then
    { quotient := setBit256 state.quotient bit
      remainder := subAssign256 remainder denominator }
  else { state with remainder }

/-- The state after some rounds, from the most significant bit on. -/
def divLoop (numerator denominator : Bytes32) (rounds : ℕ) : DivState :=
  (List.range rounds).foldl (fun state round => divStep numerator denominator state (255 - round))
    { quotient := .zero, remainder := .zero }

def divU256 (numerator denominator : Bytes32) : Option Bytes32 :=
  if isZero256 denominator then none else some (divLoop numerator denominator 256).quotient

theorem divLoop_succ (numerator denominator : Bytes32) (rounds : ℕ) :
    divLoop numerator denominator (rounds + 1) =
      divStep numerator denominator (divLoop numerator denominator rounds) (255 - rounds) := by
  simp only [divLoop, range_succ, foldl_append, foldl_cons, foldl_nil]

/-- The state holds quotient and remainder of the leading bits of the numerator. -/
structure DivState.Divides (state : DivState) (numerator denominator left : ℕ) : Prop where
  quotient : state.quotient.toNat = 2 ^ left * (numerator / 2 ^ left / denominator)
  remainder : state.remainder.toNat = numerator / 2 ^ left % denominator

theorem div_two_pow_succ (numerator bit : ℕ) :
    numerator / 2 ^ bit = 2 * (numerator / 2 ^ (bit + 1)) + (numerator.testBit bit).toNat := by
  rw [pow_succ, ← Nat.div_div_eq_div_mul, Nat.testBit_eq_decide_div_mod_eq]
  rcases Nat.mod_two_eq_zero_or_one (numerator / 2 ^ bit) with even | odd
  · simp [even]
    omega
  · simp [odd]
    omega

variable {denominator : Bytes32}

variable {state : DivState} {numerator : Bytes32}

theorem DivState.Divides.shifted
    (divides : state.Divides numerator.toNat denominator.toNat (bit + 1)) :
    2 * state.remainder.toNat + (numerator.toNat.testBit bit).toNat < 2 ^ 256 := by
  have lead := div_two_pow_succ numerator.toNat bit
  have less : state.remainder.toNat ≤ numerator.toNat / 2 ^ (bit + 1) := by
    rw [divides.remainder]
    exact Nat.mod_le _ _
  have bound := numerator.toNat_lt
  have small := Nat.div_le_self numerator.toNat (2 ^ bit)
  omega

theorem toNat_shiftIn {bit : Bool} (small : 2 * a.toNat + bit.toNat < 2 ^ 256) :
    (if bit then setBit256 (shl1_256 a) 0 else shl1_256 a).toNat = 2 * a.toNat + bit.toNat := by
  have shifted := toNat_shl1_256 (a := a) (by omega)
  cases bit with
  | false => exact shifted
  | true =>
    rw [if_pos rfl, toNat_setBit256 (by decide), shifted]
    · rfl
    · exact shifted ▸ dvd_mul_right 2 a.toNat

theorem DivState.Divides.step (divides : state.Divides numerator.toNat denominator.toNat (bit + 1))
    (inside : bit < 256) (pos : 0 < denominator.toNat) :
    (divStep numerator denominator state bit).Divides numerator.toNat denominator.toNat bit := by
  have shifted := toNat_shiftIn divides.shifted
  have lead := div_two_pow_succ numerator.toNat bit
  have whole := Nat.div_add_mod (numerator.toNat / 2 ^ (bit + 1)) denominator.toNat
  have below := Nat.mod_lt (numerator.toNat / 2 ^ (bit + 1)) pos
  rw [← divides.remainder] at whole below
  have digit := Bool.toNat_lt (numerator.toNat.testBit bit)
  have high := divides.quotient
  rw [divStep, bit256_eq]
  generalize numerator.toNat / 2 ^ (bit + 1) / denominator.toNat = q at whole high
  -- the next leading bits are the last ones doubled, with the bit of this round
  have next : numerator.toNat / 2 ^ bit = denominator.toNat * (2 * q) +
      (2 * state.remainder.toNat + (numerator.toNat.testBit bit).toNat) := by
    rw [lead, ← whole]
    ring
  generalize (if numerator.toNat.testBit bit = true then setBit256 (shl1_256 state.remainder) 0
    else shl1_256 state.remainder) = remainder at shifted ⊢
  split
  · rename_i enough
    rw [ge256_iff, shifted] at enough
    have split : numerator.toNat / 2 ^ bit = denominator.toNat * (2 * q + 1) +
        (2 * state.remainder.toNat + (numerator.toNat.testBit bit).toNat - denominator.toNat) := by
      rw [next, Nat.mul_succ]
      omega
    constructor
    · rw [split, Nat.mul_add_div pos, Nat.div_eq_of_lt (by omega), add_zero,
        toNat_setBit256 inside (high ▸ dvd_mul_right _ _), high]
      ring
    · rw [split, Nat.mul_add_mod, Nat.mod_eq_of_lt (by omega),
        toNat_subAssign256 (shifted ▸ enough), shifted]
  · rename_i few
    rw [ge256_iff, shifted, not_le] at few
    constructor
    · rw [next, Nat.mul_add_div pos, Nat.div_eq_of_lt few, add_zero, high]
      ring
    · rw [next, Nat.mul_add_mod, Nat.mod_eq_of_lt few, shifted]

theorem divides_divLoop (numerator : Bytes32) (pos : 0 < denominator.toNat) {rounds left : ℕ}
    (total : rounds + left = 256) :
    (divLoop numerator denominator rounds).Divides numerator.toNat denominator.toNat left := by
  induction rounds generalizing left with
  | zero =>
    obtain rfl : left = 256 := by omega
    have none : numerator.toNat / 2 ^ 256 = 0 := Nat.div_eq_of_lt numerator.toNat_lt
    constructor
    · rw [none, Nat.zero_div, Nat.mul_zero]
      exact Bytes32.toNat_zero
    · rw [none, Nat.zero_mod]
      exact Bytes32.toNat_zero
  | succ rounds ih =>
    have bit : 255 - rounds = left := by omega
    rw [divLoop_succ, bit]
    have before : rounds + (left + 1) = 256 := by omega
    exact (ih before).step (by omega) pos

theorem divU256_eq_some (numerator : Bytes32) (pos : 0 < denominator.toNat) :
    ∃ quotient, divU256 numerator denominator = some quotient ∧
      quotient.toNat = numerator.toNat / denominator.toNat := by
  have nonzero : ¬isZero256 denominator = true := by
    rw [isZero256_iff]
    omega
  refine ⟨_, if_neg nonzero, ?_⟩
  have divides := divides_divLoop numerator pos (add_zero 256)
  simpa using divides.quotient

/-- Add one; the largest number stays. -/
def addOneSaturating (a : Bytes32) : Bytes32 :=
  match added : Limbs.addOne a.bytes with
  | some bytes => ⟨bytes, (Limbs.addOne_eq_some added).1.trans a.length⟩
  | none => .max

namespace Work

/-- The work of a block: the quotient by its target, plus one. No work belongs to target zero. -/
def blockWork (target : Bytes32) : Bytes32 :=
  if isZero256 target then .zero
  else
    match divU256 .max target with
    | some quotient => addOneSaturating quotient
    | none => .zero

/-- Add two amounts of work; an overflow gives the largest number. -/
def addWork (a b : Bytes32) : Bytes32 :=
  let sum := Limbs.addCarry a.bytes b.bytes 0
  if sum.2 ≠ 0 then .max
  else ⟨sum.1, by rw [Limbs.length_addCarry, a.length, b.length, Nat.min_self]⟩

def workGt (a b : Bytes32) : Bool := le256Lt b a

end Work

theorem toNat_addOneSaturating (a : Bytes32) :
    (addOneSaturating a).toNat = min (2 ^ 256 - 1) (a.toNat + 1) := by
  rw [addOneSaturating]
  split
  · rename_i bytes added
    obtain ⟨length, next⟩ := Limbs.addOne_eq_some added
    have bound := Limbs.value_lt bytes
    rw [length, a.length, next] at bound
    change Limbs.value bytes = _
    rw [next, min_eq_right]
    · rfl
    · exact Nat.le_sub_one_of_lt bound
  · rename_i full
    have top := Limbs.addOne_eq_none full
    rw [a.length] at top
    rw [Bytes32.toNat_max, min_eq_left]
    exact (Nat.sub_le _ _).trans top.ge

theorem toNat_bytes_addWork (a b : Bytes32) :
    (Work.addWork a b).toNat = min (2 ^ 256 - 1) (a.toNat + b.toNat) := by
  have sum := Limbs.value_addCarry (a.length.trans b.length.symm) 0
  have bound := Limbs.value_lt (Limbs.addCarry a.bytes b.bytes 0).1
  rw [Limbs.length_addCarry, a.length, b.length, min_self] at bound
  rw [a.length, add_zero] at sum
  change _ = a.toNat + b.toNat at sum
  rw [Work.addWork]
  split
  · rename_i overflow
    have carry : 1 ≤ (Limbs.addCarry a.bytes b.bytes 0).2 := Nat.one_le_iff_ne_zero.mpr overflow
    rw [Bytes32.toNat_max, min_eq_left]
    omega
  · rename_i fits
    rw [not_not.mp fits, Nat.mul_zero, add_zero] at sum
    change Limbs.value (Limbs.addCarry a.bytes b.bytes 0).1 = _
    rw [sum, min_eq_right]
    rw [← sum]
    exact Nat.le_sub_one_of_lt bound

theorem ceilDiv_two_pow {target : ℕ} (pos : 0 < target) :
    2 ^ 256 ⌈/⌉ target = (2 ^ 256 - 1) / target + 1 := by
  rw [Nat.ceilDiv_eq_add_pred_div, ← Nat.add_div_right _ pos]
  congr 1
  omega

theorem toNat_blockWork {target : Bytes32} (pos : 0 < target.toNat) :
    (Work.blockWork target).toNat = min (2 ^ 256 - 1) (2 ^ 256 ⌈/⌉ target.toNat) := by
  have nonzero : ¬isZero256 target = true := by
    rw [isZero256_iff]
    omega
  obtain ⟨quotient, divided, value⟩ := divU256_eq_some .max pos
  rw [Work.blockWork, if_neg nonzero, divided]
  rw [toNat_addOneSaturating, value, Bytes32.toNat_max, ceilDiv_two_pow pos]

theorem toNat_foldl_addWork (works : List Bytes32) (start : Bytes32) :
    (works.foldl Work.addWork start).toNat =
      min (2 ^ 256 - 1) (start.toNat + (works.map Bytes32.toNat).sum) := by
  induction works generalizing start with
  | nil =>
    have bound := start.toNat_lt
    rw [foldl_nil, map_nil, sum_nil, add_zero, min_eq_right]
    exact Nat.le_sub_one_of_lt bound
  | cons work works ih =>
    rw [foldl_cons, ih, toNat_bytes_addWork, map_cons, sum_cons]
    omega

/-- The work of a target is the rounded quotient, a smaller target never has less, and accumulated
work is the exact sum in any order, up to the largest 256-bit number. -/
theorem work_exact :
    (∀ numerator denominator : Bytes32, 0 < denominator.toNat →
      (∀ rounds < 256, (shl1_256 (divLoop numerator denominator rounds).remainder).toNat =
        2 * (divLoop numerator denominator rounds).remainder.toNat) ∧
      ∃ quotient, divU256 numerator denominator = some quotient ∧
        quotient.toNat = numerator.toNat / denominator.toNat) ∧
    (∀ target : Bytes32, 0 < target.toNat →
      (Work.blockWork target).toNat = min (2 ^ 256 - 1) (2 ^ 256 ⌈/⌉ target.toNat)) ∧
    (∀ smaller larger : Bytes32, 0 < smaller.toNat → smaller.toNat ≤ larger.toNat →
      Work.workGt (Work.blockWork larger) (Work.blockWork smaller) = false) ∧
    ∀ targets order : List Bytes32, order.Perm targets →
      ((order.map Work.blockWork).foldl Work.addWork .zero).toNat =
        min (2 ^ 256 - 1) (targets.map fun target => (Work.blockWork target).toNat).sum := by
  refine ⟨?_, fun target positive => toNat_blockWork positive, ?_, ?_⟩
  · intro numerator denominator positive
    refine ⟨?_, divU256_eq_some numerator positive⟩
    intro rounds inside
    have total : rounds + (255 - rounds + 1) = 256 := by omega
    have divides := divides_divLoop numerator positive total
    have fits := divides.shifted
    exact toNat_shl1_256 (by omega)
  · intro smaller larger positive less
    rw [Work.workGt, ← Bool.not_eq_true, le256Lt_iff, toNat_blockWork positive,
      toNat_blockWork (positive.trans_le less), Nat.not_lt, ceilDiv_two_pow positive,
      ceilDiv_two_pow (positive.trans_le less)]
    have quotient := Nat.div_le_div_left less positive (a := 2 ^ 256 - 1)
    omega
  · intro targets order permuted
    rw [toNat_foldl_addWork, Bytes32.toNat_zero, Nat.zero_add, List.map_map]
    congr 1
    exact (permuted.map _).sum_eq

theorem work_exact_three :
    (Work.blockWork ⟨3#8 :: List.replicate 31 0#8, rfl⟩).toNat = (2 ^ 256 - 1) / 3 + 1 := by
  have work := work_exact.2.1 ⟨3#8 :: List.replicate 31 0#8, rfl⟩ (by decide)
  have three : Bytes32.toNat ⟨3#8 :: List.replicate 31 0#8, rfl⟩ = 3 := by decide
  rw [work, three, ceilDiv_two_pow (by decide)]
  omega

end Jetsam
