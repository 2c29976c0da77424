import Jetsam.Algebra.Quadratic

/-!
# Words for the elements of a binary field

The elements of a field of characteristic two are stored as machine words whose exclusive or is
the addition.
-/

namespace BinaryField

/-- A numbering of the elements by words in which addition is exclusive or. -/
structure WordBasis (K : Type) [Add K] (width : ℕ) where
  toWord : K ≃ BitVec width
  map_add : ∀ x y, toWord (x + y) = toWord x ^^^ toWord y

namespace WordBasis

variable {K : Type} {width : ℕ}

theorem map_zero [AddZeroClass K] (words : WordBasis K width) : words.toWord 0 = 0 := by
  have twice := words.map_add 0 0
  rw [add_zero, BitVec.xor_self] at twice
  exact twice

theorem symm_xor [Add K] (words : WordBasis K width) (x y : BitVec width) :
    words.toWord.symm (x ^^^ y) = words.toWord.symm x + words.toWord.symm y := by
  rw [Equiv.symm_apply_eq, words.map_add, Equiv.apply_symm_apply, Equiv.apply_symm_apply]

/-- The words of a quadratic extension: the low coordinate in the low half. -/
def quadratic [Field K] (words : WordBasis K width) (tau : K) :
    WordBasis (Quadratic tau) (width + width) where
  toWord :=
    { toFun := fun x => words.toWord x.hi ++ words.toWord x.lo
      invFun := fun word =>
        ⟨words.toWord.symm (word.setWidth width), words.toWord.symm (word.extractLsb' width width)⟩
      left_inv := fun x => by
        ext
        · simp only [BitVec.setWidth_append_eq_right, Equiv.symm_apply_apply]
        · simp only [BitVec.extractLsb'_append_eq_left, Equiv.symm_apply_apply]
      right_inv := fun word => by
        simp only [Equiv.apply_symm_apply]
        ext index inside
        simp only [BitVec.getElem_append, BitVec.getElem_setWidth, BitVec.getElem_extractLsb']
        split
        · exact BitVec.getLsbD_eq_getElem inside
        · rw [Nat.add_sub_cancel' (by omega)]
          exact BitVec.getLsbD_eq_getElem inside }
  map_add := fun x y => by
    simp only [Equiv.coe_fn_mk, Quadratic.add_hi, Quadratic.add_lo, words.map_add]
    exact BitVec.xor_append.symm

end WordBasis

end BinaryField
