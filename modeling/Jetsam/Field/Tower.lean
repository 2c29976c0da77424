import Jetsam.Algebra.WordBasis
import Mathlib.Algebra.CharP.Lemmas

/-!
# The tower of binary fields

`Block8` is the field of the 256 bytes, and every further level is the quadratic extension of the
one below it, up to 256 bits.
-/

namespace Jetsam.Tower

open BinaryField List

/-- An element of the field with 256 elements, with the polynomial `x^8 + x^4 + x^3 + x + 1`. -/
@[ext]
structure Block8 where
  bits : BitVec 8
deriving DecidableEq

namespace Block8

/-- Add `value` to the accumulator where the bit is set. -/
def xorIf {n : Nat} (bit : Bool) (value acc : BitVec n) : BitVec n :=
  if bit then acc ^^^ value else acc

def carrylessProduct (left right : BitVec 8) : BitVec 16 :=
  (List.range 8).foldl
    (fun acc shift => xorIf (right.getLsbD shift) (left.setWidth 16 <<< shift) acc) 0

def reduce (product : BitVec 16) : BitVec 8 :=
  ([6, 5, 4, 3, 2, 1, 0].foldl
    (fun acc shift => xorIf (acc.getLsbD (8 + shift)) (0x1B#16 <<< shift) acc) product).setWidth 8

def gf256MulEntry (left right : BitVec 8) : BitVec 8 := reduce (carrylessProduct left right)

def all : List Block8 := (List.range 256).map fun value => ⟨BitVec.ofNat 8 value⟩

instance : Zero Block8 := ⟨⟨0⟩⟩

instance : One Block8 := ⟨⟨1⟩⟩

instance : Add Block8 := ⟨fun x y => ⟨x.bits ^^^ y.bits⟩⟩

instance : Neg Block8 := ⟨fun x => x⟩

instance : Mul Block8 := ⟨fun x y => ⟨gf256MulEntry x.bits y.bits⟩⟩

/-- The inverse table: the first element with product one, and zero for zero. -/
instance : Inv Block8 := ⟨fun x => (all.find? fun y => x * y = 1).getD 0⟩

@[simp] theorem add_bits (x y : Block8) : (x + y).bits = x.bits ^^^ y.bits := rfl

@[simp] theorem zero_bits : (0 : Block8).bits = 0 := rfl

def unit (shift : Fin 8) : Block8 := ⟨1#8 <<< shift.val⟩

theorem xorIf_xor {n : Nat} (bit : Bool) (value value' acc acc' : BitVec n) :
    xorIf bit (value ^^^ value') (acc ^^^ acc') =
      xorIf bit value acc ^^^ xorIf bit value' acc' := by
  cases bit
  · rfl
  · simp only [xorIf, if_true]
    ac_rfl

theorem xorIf_bit_xor {n : Nat} (bit bit' : Bool) (value acc acc' : BitVec n) :
    xorIf (bit ^^ bit') value (acc ^^^ acc') = xorIf bit value acc ^^^ xorIf bit' value acc' := by
  cases bit <;> cases bit'
  · rfl
  · simp only [xorIf, Bool.false_xor, if_true, Bool.false_eq_true, if_false]
    ac_rfl
  · simp only [xorIf, Bool.xor_false, if_true, Bool.false_eq_true, if_false]
    ac_rfl
  · have cancels : acc ^^^ value ^^^ (acc' ^^^ value) = acc ^^^ acc' ^^^ (value ^^^ value) := by
      ac_rfl
    simp only [xorIf, Bool.xor_self, if_true, Bool.false_eq_true, if_false, cancels,
      BitVec.xor_self, BitVec.xor_zero]

theorem foldl_xor {α : Type} {n : Nat} {step first second : BitVec n → α → BitVec n}
    (splits : ∀ acc acc' item, step (acc ^^^ acc') item = first acc item ^^^ second acc' item)
    (items : List α) (acc acc' : BitVec n) :
    items.foldl step (acc ^^^ acc') = items.foldl first acc ^^^ items.foldl second acc' := by
  induction items generalizing acc acc' with
  | nil => rfl
  | cons item items ih => rw [foldl_cons, splits, ih, foldl_cons, foldl_cons]

theorem carrylessProduct_xor_left (left left' right : BitVec 8) :
    carrylessProduct (left ^^^ left') right =
      carrylessProduct left right ^^^ carrylessProduct left' right := by
  refine foldl_xor (fun acc acc' shift => ?_) (List.range 8) 0 0
  rw [BitVec.setWidth_xor, BitVec.shiftLeft_xor_distrib, xorIf_xor]

theorem carrylessProduct_xor_right (left right right' : BitVec 8) :
    carrylessProduct left (right ^^^ right') =
      carrylessProduct left right ^^^ carrylessProduct left right' := by
  refine foldl_xor (fun acc acc' shift => ?_) (List.range 8) 0 0
  rw [BitVec.getLsbD_xor, xorIf_bit_xor]

theorem reduce_xor (product product' : BitVec 16) :
    reduce (product ^^^ product') = reduce product ^^^ reduce product' := by
  rw [reduce, reduce, reduce, ← BitVec.setWidth_xor]
  congr 1
  apply foldl_xor
  intro acc acc' shift
  rw [BitVec.getLsbD_xor, xorIf_bit_xor]

theorem add_mul' (x y z : Block8) : (x + y) * z = x * z + y * z := by
  apply Block8.ext
  change reduce (carrylessProduct (x.bits ^^^ y.bits) z.bits) = _
  rw [carrylessProduct_xor_left, reduce_xor]
  rfl

theorem mul_add' (x y z : Block8) : x * (y + z) = x * y + x * z := by
  apply Block8.ext
  change reduce (carrylessProduct x.bits (y.bits ^^^ z.bits)) = _
  rw [carrylessProduct_xor_right, reduce_xor]
  rfl

/-- What holds of zero and of the single bits and is kept by addition holds of every byte. -/
theorem bits_induction {P : Block8 → Prop} (zero : P 0) (single : ∀ shift, P (unit shift))
    (add : ∀ x y, P x → P y → P (x + y)) (x : Block8) : P x := by
  have spelled : x = (List.finRange 8).foldl
      (fun acc (shift : Fin 8) => if x.bits.getLsbD shift then acc + unit shift else acc) 0 := by
    obtain ⟨bits⟩ := x
    revert bits
    decide +kernel
  rw [spelled]
  generalize List.finRange 8 = shifts
  induction shifts using List.reverseRecOn with
  | nil => exact zero
  | append_singleton shifts shift ih =>
    rw [foldl_append, foldl_cons, foldl_nil]
    split
    · exact add _ _ ih (single shift)
    · exact ih

variable (x : Block8)

@[simp]
theorem add_self : x + x = 0 := Block8.ext (BitVec.xor_self)

theorem zero_add' : 0 + x = x := Block8.ext (BitVec.zero_xor)

theorem zero_mul' : 0 * x = 0 := by
  have twice : (0 + 0 : Block8) * x = 0 * x + 0 * x := add_mul' 0 0 x
  rwa [add_self, add_self] at twice

theorem mul_zero' : x * 0 = 0 := by
  have twice : x * (0 + 0 : Block8) = x * 0 + x * 0 := mul_add' x 0 0
  rwa [add_self, add_self] at twice

/-- Multiplication by the indeterminate. -/
def shiftUp (x : Block8) : Block8 := ⟨xorIf (x.bits.getLsbD 7) 0x1B#8 (x.bits <<< 1)⟩

theorem shiftUp_add (x y : Block8) : shiftUp (x + y) = shiftUp x + shiftUp y := by
  apply Block8.ext
  change xorIf ((x.bits ^^^ y.bits).getLsbD 7) 0x1B#8 ((x.bits ^^^ y.bits) <<< 1) = _
  rw [BitVec.getLsbD_xor, BitVec.shiftLeft_xor_distrib, xorIf_bit_xor]
  rfl

theorem shiftUp_zero : shiftUp 0 = 0 := rfl

theorem iterate_shiftUp_add (x y : Block8) (count : Nat) :
    shiftUp^[count] (x + y) = shiftUp^[count] x + shiftUp^[count] y := by
  induction count with
  | zero => rfl
  | succ count ih => simp only [Function.iterate_succ_apply', ih, shiftUp_add]

theorem mul_unit (shift : Fin 8) : x * unit shift = shiftUp^[shift] x := by
  induction x using bits_induction with
  | zero => rw [zero_mul', Function.iterate_fixed shiftUp_zero]
  | single other =>
    revert shift other
    decide +kernel
  | add x y ih ih' => rw [add_mul', ih, ih', iterate_shiftUp_add]

theorem mul_shiftUp (x y : Block8) : x * shiftUp y = shiftUp (x * y) := by
  induction y using bits_induction with
  | zero => rw [shiftUp_zero, mul_zero', shiftUp_zero]
  | single shift =>
    induction x using bits_induction with
    | zero => rw [zero_mul', zero_mul', shiftUp_zero]
    | single other =>
      revert shift other
      decide +kernel
    | add x x' ih ih' => rw [add_mul', add_mul', ih, ih', shiftUp_add]
  | add y y' ih ih' => rw [shiftUp_add, mul_add', mul_add', ih, ih', shiftUp_add]

theorem mul_iterate_shiftUp (x y : Block8) (count : Nat) :
    x * shiftUp^[count] y = shiftUp^[count] (x * y) := by
  induction count with
  | zero => rfl
  | succ count ih => simp only [Function.iterate_succ_apply', mul_shiftUp, ih]

theorem mul_assoc' (x y z : Block8) : x * y * z = x * (y * z) := by
  induction z using bits_induction with
  | zero => rw [mul_zero', mul_zero', mul_zero']
  | single shift => rw [mul_unit, mul_unit, mul_iterate_shiftUp]
  | add z z' ih ih' => rw [mul_add', mul_add', mul_add', ih, ih']

theorem mul_comm' (x y : Block8) : x * y = y * x := by
  induction x using bits_induction with
  | zero => rw [zero_mul', mul_zero']
  | single shift =>
    induction y using bits_induction with
    | zero => rw [zero_mul', mul_zero']
    | single other =>
      revert shift other
      decide +kernel
    | add y y' ih ih' => rw [add_mul', mul_add', ih, ih']
  | add x x' ih ih' => rw [add_mul', mul_add', ih, ih']

theorem mul_one' : x * 1 = x := mul_unit x 0

instance : CommRing Block8 where
  add_assoc x y z := Block8.ext (BitVec.xor_assoc x.bits y.bits z.bits)
  zero_add := zero_add'
  add_zero x := Block8.ext (BitVec.xor_zero)
  add_comm x y := Block8.ext (BitVec.xor_comm x.bits y.bits)
  neg_add_cancel := add_self
  mul_assoc := mul_assoc'
  one_mul x := (mul_comm' 1 x).trans (mul_one' x)
  mul_one := mul_one'
  zero_mul := zero_mul'
  mul_zero := mul_zero'
  left_distrib := mul_add'
  right_distrib := add_mul'
  mul_comm := mul_comm'
  nsmul := nsmulRec
  zsmul := zsmulRec

instance : Nontrivial Block8 := ⟨0, 1, by decide⟩

instance : CharP Block8 2 :=
  CharTwo.of_one_ne_zero_of_two_eq_zero one_ne_zero (by decide +kernel)

theorem mem_all : x ∈ all :=
  mem_map.mpr ⟨x.bits.toNat, mem_range.mpr x.bits.isLt, by simp⟩

theorem iterate_square (count : Nat) :
    (fun x : Block8 => x * x)^[count] x = x ^ 2 ^ count := by
  induction count with
  | zero => rw [Function.iterate_zero_apply, pow_zero, pow_one]
  | succ count ih => rw [Function.iterate_succ_apply', ih, pow_succ 2 count, pow_mul, sq]

/-- Eight squarings lead back: they are additive, and do so on the single bits. -/
theorem pow_card : x ^ 2 ^ 8 = x := by
  induction x using bits_induction with
  | zero => exact zero_pow (by norm_num)
  | single shift =>
    rw [← iterate_square]
    revert shift
    decide +kernel
  | add x y ih ih' => rw [add_pow_char_pow, ih, ih']

/-- The power 255 of a nonzero element is idempotent, and one is the only such element. -/
theorem exists_mul_eq_one {x : Block8} (nonzero : x ≠ 0) : ∃ y, x * y = 1 := by
  have idempotent : ∀ y ∈ all, y * y = y → y = 0 ∨ y = 1 := by decide +kernel
  have keeps : x ^ 255 * x = x := by
    exact pow_card x
  have square : x ^ 255 * x ^ 255 = x ^ 255 := by
    calc x ^ 255 * x ^ 255 = x ^ 255 * x * x ^ 254 := by ring
      _ = x ^ 255 := by rw [keeps, ← pow_succ']
  rcases idempotent _ (mem_all _) square with zero | one
  · rw [zero, zero_mul] at keeps
    exact absurd keeps.symm nonzero
  · exact ⟨x ^ 254, by rw [← pow_succ', one]⟩

instance : Field Block8 where
  exists_pair_ne := exists_pair_ne Block8
  mul_inv_cancel x nonzero := by
    obtain ⟨y, product⟩ := exists_mul_eq_one nonzero
    have found : (all.find? fun y => x * y = 1).isSome := by
      rw [find?_isSome]
      exact ⟨y, mem_all y, by simpa using product⟩
    obtain ⟨inverse, first⟩ := Option.isSome_iff_exists.mp found
    change x * (all.find? fun y => x * y = 1).getD 0 = 1
    rw [first, Option.getD_some]
    simpa using find?_some first
  inv_zero := by decide +kernel
  nnqsmul := _
  nnqsmul_def := fun _ _ => rfl
  qsmul := _
  qsmul_def := fun _ _ => rfl

def extensionTau : Block8 := ⟨0x20⟩

instance : NoRoot extensionTau where
  ne_zero x := by
    have none : ∀ x ∈ all, x * x + x + extensionTau ≠ 0 := by decide +kernel
    exact none x (mem_all x)

end Block8

abbrev Block16 := Quadratic Block8.extensionTau

/-- The constant of the extension to 32 bits: the previous one in the high coordinate. -/
abbrev Block16.tau : Block16 := ⟨0, Block8.extensionTau⟩

abbrev Block32 := Quadratic Block16.tau

abbrev Block32.tau : Block32 := ⟨0, Block16.tau⟩

abbrev Block64 := Quadratic Block32.tau

abbrev Block64.tau : Block64 := ⟨0, Block32.tau⟩

abbrev Block128 := Quadratic Block64.tau

abbrev Block128.tau : Block128 := ⟨0, Block64.tau⟩

abbrev Block256 := Quadratic Block128.tau

def Block8.words : WordBasis Block8 8 where
  toWord :=
    { toFun := Block8.bits
      invFun := Block8.mk
      left_inv := fun _ => rfl
      right_inv := fun _ => rfl }
  map_add _ _ := rfl

/-- The words of the field: at every level the low coordinate is the low half. -/
def Block128.words : WordBasis Block128 128 :=
  let low : WordBasis Block64 64 :=
    ((Block8.words.quadratic Block8.extensionTau).quadratic Block16.tau).quadratic Block32.tau
  low.quadratic Block64.tau

end Jetsam.Tower
