import Mathlib.Tactic.Ring

/-!
# Layers of pairs

A transform in place works in layers: the cells at the same place of the two halves of a block are
replaced together.
-/

section PairLayers

variable {α : Type} {low high : ℕ → α → α → α} {half : ℕ}

/-- One layer, with the new cells as functions of the block and of both cells. -/
def pairLayer (low high : ℕ → α → α → α) (half : ℕ) (data : ℕ → α) (index : ℕ) : α :=
  let block := index / (2 * half)
  if index % (2 * half) < half then low block (data index) (data (index + half))
  else high block (data (index - half)) (data index)

/-- A cell below a whole number of blocks is a lower or an upper one, and so is its partner. -/
theorem exists_pair {n index : ℕ} (blocks : 2 * half ∣ n) (below : index < n) :
    ∃ block offset, offset < half ∧ 2 * half * block + offset + half < n ∧
      (index = 2 * half * block + offset ∨ index = 2 * half * block + offset + half) := by
  obtain ⟨count, rfl⟩ := blocks
  have pos : 0 < 2 * half := Nat.pos_of_mul_pos_right (Nat.zero_lt_of_lt below)
  have inside := Nat.mod_lt index pos
  have split := Nat.div_add_mod index (2 * half)
  have whole : 2 * half * (index / (2 * half) + 1) ≤ 2 * half * count :=
    Nat.mul_le_mul_left _ (Nat.div_lt_of_lt_mul below)
  rw [Nat.mul_succ] at whole
  rcases Nat.lt_or_ge (index % (2 * half)) half with lower | upper
  · exact ⟨index / (2 * half), index % (2 * half), lower, by omega, Or.inl split.symm⟩
  · exact ⟨index / (2 * half), index % (2 * half) - half, by omega, by omega, Or.inr (by omega)⟩

theorem pairLayer_pair (data : ℕ → α) (block : ℕ) {offset : ℕ} (inside : offset < half) :
    let index := 2 * half * block + offset
    pairLayer low high half data index = low block (data index) (data (index + half)) ∧
      pairLayer low high half data (index + half) =
        high block (data index) (data (index + half)) := by
  intro index
  have divided {place : ℕ} (small : place < 2 * half) :
      (2 * half * block + place) / (2 * half) = block ∧
        (2 * half * block + place) % (2 * half) = place := by
    rw [Nat.mul_add_div (by omega), Nat.div_eq_of_lt small, Nat.mul_add_mod, Nat.mod_eq_of_lt small]
    exact ⟨rfl, rfl⟩
  obtain ⟨left, leftPlace⟩ := divided (show offset < 2 * half by omega)
  obtain ⟨right, rightPlace⟩ := divided (show offset + half < 2 * half by omega)
  simp only [pairLayer, index, Nat.add_assoc, left, leftPlace, right, rightPlace]
  rw [if_pos inside, if_neg (by omega), ← Nat.add_assoc, Nat.add_sub_cancel]
  exact ⟨rfl, rfl⟩

end PairLayers
