import Jetsam.Algebra.PairLayers
import Jetsam.Control.Checks
import Jetsam.Field.Tower

/-!
# The rate-four code of segment commitments

Each of the four parts of an encoding is a transform with one factor per layer, the same in every
block. Two messages that differ by one constant are told apart by a single symbol of every part.
-/

namespace Jetsam

open BinaryField Tower List

variable {K : Type} [Field K]

def nttLayer (b : K) : ℕ → (ℕ → K) → ℕ → K :=
  pairLayer (fun _ u v => u + v) fun _ u v => (u + v) * b + v

def nttLayers : List K → ℕ → (ℕ → K) → ℕ → K
  | [], _, evals => evals
  | b :: basis, len, evals => nttLayers basis (2 * len) (nttLayer b len evals)

def forwardNtt (coeffs basis : List K) : Option (List K) :=
  if coeffs.length = 2 ^ basis.length then
    some ((List.range coeffs.length).map (nttLayers basis 1 fun i => coeffs.getD i 0))
  else none

abbrev CodeWords (K : Type) [Field K] := WordBasis K 128

def codeWords : CodeWords Block128 := Block128.words

variable (words : CodeWords K)

/-- The basis element of an index: its single bit, zero beyond the word. -/
def nttBasis (index : ℕ) : K := words.toWord.symm (1#128 <<< index)

/-- A prepared transform keeps the first basis elements. -/
def additiveNttNew (logSize : ℕ) : List K := (List.range logSize).map (nttBasis words)

/-- Transform with the window of the basis that starts at `round`. -/
def forwardTransform (ntt data : List K) (round : ℕ) : Option (List K) :=
  let log := data.length.log2
  forwardNtt data
    (if round + log ≤ ntt.length then (ntt.drop round).take log
    else (List.range' round log).map (nttBasis words))

def codeRate : ℕ := 4

/-- Encode a message: its transforms with the windows of the four rounds. -/
def codeNew (message ntt : List K) : Option (List K) := do
  let parts ← (List.range codeRate).mapM (forwardTransform words ntt message)
  some parts.flatten

def hammingDistance {F : Type} [DecidableEq F] (word other : List F) : ℕ :=
  (word.zip other).countP fun pair => pair.1 ≠ pair.2

section Layers

variable (basis : List K)

theorem nttLayers_sub (len : ℕ) (evals other : ℕ → K) :
    nttLayers basis len (evals - other) =
      nttLayers basis len evals - nttLayers basis len other := by
  induction basis generalizing len evals other with
  | nil => rfl
  | cons b basis ih =>
    have layer : nttLayer b len (evals - other) = nttLayer b len evals - nttLayer b len other := by
      funext i
      simp only [nttLayer, pairLayer, Pi.sub_apply]
      split <;> ring
    rw [nttLayers, layer, ih, nttLayers, nttLayers]

variable {n len : ℕ} {evals : ℕ → K}

theorem eq_zero_of_nttLayer (b : K) (blocks : 2 * len ∣ n)
    (zero : ∀ i < n, nttLayer b len evals i = 0) : ∀ i < n, evals i = 0 := by
  intro i inside
  obtain ⟨block, offset, small, bound, place⟩ := exists_pair blocks inside
  have sum := zero (2 * len * block + offset) (by omega)
  have other := zero _ bound
  rw [nttLayer, (pairLayer_pair evals block small).1] at sum
  rw [nttLayer, (pairLayer_pair evals block small).2, sum, zero_mul, zero_add] at other
  rw [other, add_zero] at sum
  rcases place with rfl | rfl
  · exact sum
  · exact other

theorem eq_zero_of_nttLayers (blocks : len * 2 ^ basis.length ∣ n)
    (zero : ∀ i < n, nttLayers basis len evals i = 0) : ∀ i < n, evals i = 0 := by
  induction basis generalizing len evals with
  | nil => exact zero
  | cons b basis ih =>
    rw [length_cons, pow_succ', ← mul_assoc, mul_comm len] at blocks
    exact eq_zero_of_nttLayer b (dvd_of_mul_right_dvd blocks) (ih blocks zero)

theorem nttLayers_last [CharP K 2] (pos : 0 < len) (blocks : len * 2 ^ basis.length ∣ n)
    (last : ∀ i < n, evals i = if i % len = len - 1 then 1 else 0) :
    ∀ i < n, nttLayers basis len evals i =
      if i % (len * 2 ^ basis.length) = len * 2 ^ basis.length - 1 then 1 else 0 := by
  induction basis generalizing len evals with
  | nil => simpa [nttLayers] using last
  | cons b basis ih =>
    rw [length_cons, pow_succ', ← mul_assoc, mul_comm len] at blocks ⊢
    refine ih (by omega) blocks fun i inside => ?_
    obtain ⟨block, offset, small, bound, place⟩ :=
      exists_pair (dvd_of_mul_right_dvd blocks) inside
    have left : evals (2 * len * block + offset) = if offset = len - 1 then 1 else 0 := by
      rw [last _ (by omega), mul_comm 2, mul_assoc, Nat.mul_add_mod, Nat.mod_eq_of_lt small]
    have right : evals (2 * len * block + offset + len) = evals (2 * len * block + offset) := by
      rw [left, last _ bound, Nat.add_mod_right, mul_comm 2, mul_assoc, Nat.mul_add_mod,
        Nat.mod_eq_of_lt small]
    rcases place with rfl | rfl
    · rw [nttLayer, (pairLayer_pair evals block small).1, right, CharTwo.add_self_eq_zero,
        Nat.mul_add_mod, Nat.mod_eq_of_lt (by omega), if_neg (by omega)]
    · rw [nttLayer, (pairLayer_pair evals block small).2, right, CharTwo.add_self_eq_zero,
        zero_mul, zero_add, left, add_assoc, Nat.mul_add_mod, Nat.mod_eq_of_lt (by omega)]
      exact if_congr (by omega) rfl rfl

end Layers

def partSymbol (l : ℕ) (message : List K) (round i : ℕ) : K :=
  nttLayers ((List.range' round l).map (nttBasis words)) 1 (fun j => message.getD j 0) i

section Distance

variable {logSize l : ℕ} {message other : List K}

theorem forwardTransform_eq (size : message.length = 2 ^ l) (round : ℕ) :
    forwardTransform words (additiveNttNew words logSize) message round =
      some ((List.range (2 ^ l)).map (partSymbol words l message round)) := by
  have prepared (fits : round + l ≤ logSize) :
      ((additiveNttNew words logSize).drop round).take l =
        (List.range' round l).map (nttBasis words) :=
    ext_getElem (by simp [additiveNttNew]; omega) fun i _ _ => by simp [additiveNttNew]
  have window : (additiveNttNew words logSize).length = logSize := by simp [additiveNttNew]
  rw [forwardTransform, size, Nat.log2_two_pow, window]
  split
  next fits => simp [prepared fits, forwardNtt, size, partSymbol]
  next => simp [forwardNtt, size, partSymbol]

theorem codeNew_eq (size : message.length = 2 ^ l) :
    codeNew words message (additiveNttNew words logSize) =
      some (((List.range codeRate).map fun round =>
        (List.range (2 ^ l)).map (partSymbol words l message round)).flatten) := by
  rw [codeNew, Control.mapM_eq_some_map fun round _ => forwardTransform_eq words size round]
  rfl

variable {F : Type}

theorem hammingDistance_flatten [DecidableEq F] (rounds : List ℕ) (parts others : ℕ → List F)
    (same : ∀ round, (parts round).length = (others round).length) :
    hammingDistance (rounds.map parts).flatten (rounds.map others).flatten =
      (rounds.map fun round => hammingDistance (parts round) (others round)).sum := by
  induction rounds with
  | nil => rfl
  | cons round rounds ih =>
    rw [map_cons, map_cons, flatten_cons, flatten_cons, map_cons,
      sum_cons, ← ih, hammingDistance, zip_append (same round), countP_append]
    rfl

theorem hammingDistance_map_range [DecidableEq F] (n : ℕ) (word other : ℕ → F) :
    hammingDistance ((List.range n).map word) ((List.range n).map other) =
      (List.range n).countP fun i => word i ≠ other i := by
  rw [hammingDistance, zip_map', countP_map]
  rfl

theorem partSymbol_sub (l : ℕ) (message other : List K) (round i : ℕ) :
    partSymbol words l message round i - partSymbol words l other round i =
      nttLayers ((List.range' round l).map (nttBasis words)) 1
        ((fun j => message.getD j 0) - fun j => other.getD j 0) i := by
  rw [nttLayers_sub]
  rfl

theorem one_le_distance_part [DecidableEq K] (size : message.length = 2 ^ l)
    (otherSize : other.length = 2 ^ l) (different : message ≠ other) (round : ℕ) :
    1 ≤ hammingDistance ((List.range (2 ^ l)).map (partSymbol words l message round))
      ((List.range (2 ^ l)).map (partSymbol words l other round)) := by
  rw [hammingDistance_map_range, Nat.one_le_iff_ne_zero, ne_eq, countP_eq_zero]
  intro equal
  refine different (ext_getElem (size.trans otherSize.symm) fun i inside otherInside => ?_)
  have zero : ∀ j < 2 ^ l, nttLayers ((List.range' round l).map (nttBasis words)) 1
      ((fun j => message.getD j 0) - fun j => other.getD j 0) j = 0 := by
    intro j bound
    have here := equal j (mem_range.mpr bound)
    rw [← partSymbol_sub, sub_eq_zero]
    simpa using here
  have here := eq_zero_of_nttLayers _ (by simp) zero i (size ▸ inside)
  simpa [sub_eq_zero, inside, otherInside] using here

theorem distance_part_add_one [CharP K 2] [DecidableEq K] (size : message.length = 2 ^ l)
    (round : ℕ) :
    hammingDistance ((List.range (2 ^ l)).map (partSymbol words l message round))
      ((List.range (2 ^ l)).map (partSymbol words l (message.map (· + 1)) round)) = 1 := by
  have symbols : ∀ i < 2 ^ l, partSymbol words l (message.map (· + 1)) round i -
      partSymbol words l message round i = if i = 2 ^ l - 1 then 1 else 0 := by
    intro i bound
    rw [partSymbol_sub, nttLayers_last _ one_pos (by simp)
      (fun j inside => by simp [size, inside, Nat.mod_one]) i bound]
    simp [Nat.mod_eq_of_lt bound]
  rw [hammingDistance_map_range]
  have single : (List.range (2 ^ l)).countP
      (fun i => partSymbol words l message round i ≠
        partSymbol words l (message.map (· + 1)) round i) =
      (List.range (2 ^ l)).countP (fun i => i = 2 ^ l - 1) := by
    refine countP_congr fun i inside => ?_
    have here := symbols i (mem_range.mp inside)
    rw [decide_eq_true_iff, decide_eq_true_iff, ne_comm, ← sub_ne_zero, here]
    simp
  rw [single]
  exact (count_eq_one_of_mem nodup_range (mem_range.mpr (by simp)))

end Distance

/-- Encodings of different messages differ in more than three quarters of their symbols. -/
def ReedSolomonDistance [DecidableEq K] (ntt : List K) (n : ℕ) : Prop :=
  ∀ message other : List K, message.length = n → other.length = n → message ≠ other →
    ∃ word ∈ codeNew words message ntt, ∃ otherWord ∈ codeNew words other ntt,
      3 * n + 1 ≤ hammingDistance word otherWord

/-- Different messages differ in at least four symbols, and every message has another one at that
distance, below that of a Reed-Solomon code from two elements on. -/
theorem codeNew_distance_four [CharP K 2] [DecidableEq K] (logSize : ℕ) {l : ℕ} (long : 1 ≤ l) :
    (∀ message other : List K, message.length = 2 ^ l → other.length = 2 ^ l →
      message ≠ other → ∃ word ∈ codeNew words message (additiveNttNew words logSize),
        ∃ otherWord ∈ codeNew words other (additiveNttNew words logSize),
          codeRate ≤ hammingDistance word otherWord) ∧
    (∀ message : List K, message.length = 2 ^ l →
      ∃ other, other.length = 2 ^ l ∧ message ≠ other ∧
        ∃ word ∈ codeNew words message (additiveNttNew words logSize),
          ∃ otherWord ∈ codeNew words other (additiveNttNew words logSize),
            hammingDistance word otherWord = codeRate) ∧
    ¬ReedSolomonDistance words (additiveNttNew words logSize) (2 ^ l) := by
  let ntt := additiveNttNew words logSize
  have close (message : List K) (size : message.length = 2 ^ l) :
      ∃ other, other.length = 2 ^ l ∧ message ≠ other ∧ ∃ word ∈ codeNew words message ntt,
        ∃ otherWord ∈ codeNew words other ntt, hammingDistance word otherWord = codeRate := by
    refine ⟨message.map (· + 1), by simpa using size, fun same => ?_, _, codeNew_eq words size, _,
      codeNew_eq words (by simpa using size), ?_⟩
    · have first := congrArg (·[0]?) same
      have nonempty : 0 < message.length := size ▸ Nat.two_pow_pos l
      simp [nonempty] at first
    · rw [hammingDistance_flatten _ _ _ fun _ => by simp]
      simp [distance_part_add_one words size]
  refine ⟨fun message other size otherSize different => ?_, close, fun distance => ?_⟩
  · refine ⟨_, codeNew_eq words size, _, codeNew_eq words otherSize, ?_⟩
    rw [hammingDistance_flatten _ _ _ fun _ => by simp]
    refine le_of_eq_of_le ?_ (length_le_sum_of_one_le _ ?_)
    · simp
    · rintro _ mem
      obtain ⟨round, -, rfl⟩ := mem_map.mp mem
      exact one_le_distance_part words size otherSize different round
  · obtain ⟨other, otherSize, different, word, found, otherWord, otherFound, four⟩ :=
      close (List.replicate (2 ^ l) 0) (by simp)
    obtain ⟨word', found', otherWord', otherFound', far⟩ :=
      distance _ other (by simp) otherSize different
    obtain rfl := Option.mem_unique found found'
    obtain rfl := Option.mem_unique otherFound otherFound'
    have two := Nat.pow_le_pow_right (show 0 < 2 by decide) long
    rw [four, codeRate] at far
    omega

theorem codeNew_distance_four_two : ¬ReedSolomonDistance codeWords (additiveNttNew codeWords 0) 2 :=
  (codeNew_distance_four codeWords 0 (le_refl 1)).2.2

theorem codeNew_zeros_ones :
    ∃ word ∈ codeNew codeWords [0, 0] (additiveNttNew codeWords 4),
      ∃ otherWord ∈ codeNew codeWords [1, 1] (additiveNttNew codeWords 4),
        hammingDistance word otherWord = 4 ∧ ¬3 * 2 + 1 ≤ hammingDistance word otherWord := by
  decide +kernel

end Jetsam
