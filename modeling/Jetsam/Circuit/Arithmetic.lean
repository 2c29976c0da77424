import Jetsam.Circuit.Bits

/-!
# Ripple adders and comparators

The carry of an adder and the borrow of a comparator run from the low end; the comparator that looks
for the highest differing bit runs from the high end.
-/

namespace Circuit

open BinaryField Builder List

variable {K : Type} [Field K]

def rippleAdd : K → List K → List K → List K × K
  | carry, a :: lhs, c :: rhs =>
    let rest := rippleAdd (a * c + carry * (a + c)) lhs rhs
    ((a + c + carry) :: rest.1, rest.2)
  | carry, _, _ => ([], carry)

/-- The sum of two numbers of one width, which must not carry out. -/
def checkedAddBits (lhs rhs : List K) : Builder K (List K) := do
  let sum := rippleAdd 0 lhs rhs
  pinZero sum.2
  return sum.1

def lessThanFrom : K → List K → List K → K
  | borrow, a :: lhs, c :: rhs =>
    lessThanFrom ((a + 1) * c + borrow * (a + c + 1)) lhs rhs
  | borrow, _, _ => borrow

def lessThanBits (lhs rhs : List K) : K := lessThanFrom 0 lhs rhs

/-- From the high end: whether the first number is smaller, whether they are equal, and where they
first differ. -/
def compareBits : List K → List K → K × K × List K
  | a :: lhs, c :: rhs =>
    let (less, equalHigher, highest) := compareBits lhs rhs
    let equalThrough := equalHigher * (a + c + 1)
    (less + equalHigher * ((a + 1) * c), equalThrough, (equalHigher + equalThrough) :: highest)
  | _, _ => (0, 1, [])

def pinLtStrict (lhs rhs : List K) : Builder K Unit := pinZero ((compareBits lhs rhs).1 + 1)

def resizeBits (bits : List K) (width : ℕ) : List K :=
  (bits ++ List.replicate (width - bits.length) 0).take width

def shiftedBits (width shift : ℕ) (bits : List K) : List K :=
  (List.range width).map fun bit => if shift ≤ bit then bits.getD (bit - shift) 0 else 0

/-- The product with a constant below `2 ^ 64`: the sum of the shifted numbers. -/
def constantProductBits (bits : List K) (constant width : ℕ) : Builder K (List K) :=
  match (List.range 64).filter fun shift => constant.testBit shift with
  | [] => return List.replicate width 0
  | first :: rest =>
    rest.foldlM (fun product shift => checkedAddBits product (shiftedBits width shift bits))
      (shiftedBits width first bits)

def selectedConstantBits (selectors : List K) (constants : List ℕ) (width : ℕ) : List K :=
  (List.range width).map fun bit =>
    (((selectors.zip constants).filter fun entry => bit < 64 && entry.2.testBit bit).map
      Prod.fst).sum

def oneHot (count chosen : ℕ) : List K := (List.range count).map fun i => flag (i == chosen)

variable {count value : ℕ}

theorem getD_bitsOf_of_lt (bound : value < 2 ^ count) (i : ℕ) :
    (bitsOf count value : List K).getD i 0 = flag (value.testBit i) := by
  rcases lt_or_ge i count with inside | outside
  · exact getD_bitsOf inside
  · have high : value.testBit i = false :=
      Nat.testBit_lt_two_pow (bound.trans_le (Nat.pow_le_pow_right two_pos outside))
    rw [getD_eq_default _ _ (by rwa [length_bitsOf]), high, flag_false]

theorem resizeBits_bitsOf {width : ℕ} (bound : value < 2 ^ count) (grows : count ≤ width) :
    resizeBits (bitsOf count value : List K) width = bitsOf width value := by
  obtain ⟨extra, rfl⟩ := Nat.exists_eq_add_of_le grows
  rw [resizeBits, length_bitsOf, Nat.add_sub_cancel_left, bitsOf_append_zeros bound,
    take_of_length_le (length_bitsOf _ _).le]

theorem shiftedBits_bitsOf (bound : value < 2 ^ count) (width shift : ℕ) :
    shiftedBits width shift (bitsOf count value : List K) = bitsOf width (value * 2 ^ shift) := by
  rw [shiftedBits, bitsOf_eq_map width]
  apply map_congr_left
  intro bit _
  rw [getD_bitsOf_of_lt bound, Nat.testBit_mul_two_pow]
  split_ifs with reached
  · rw [decide_eq_true reached, Bool.true_and]
  · rw [decide_eq_false reached, Bool.false_and, flag_false]

theorem sum_two_pow_testBit (value count : ℕ) :
    (((List.range count).filter fun shift => value.testBit shift).map (2 ^ ·)).sum =
      value % 2 ^ count := by
  induction count with
  | zero => rw [pow_zero, Nat.mod_one]; rfl
  | succ count ih =>
    rw [range_succ, filter_append, map_append, sum_append, ih, Nat.mod_pow_succ]
    rw [filter_singleton, Nat.testBit_eq_decide_div_mod_eq]
    rcases Nat.mod_two_eq_zero_or_one (value / 2 ^ count) with zero | one
    · simp [zero]
    · simp [one]

theorem oneHot_zero (count : ℕ) :
    (oneHot (count + 1) 0 : List K) = 1 :: List.replicate count 0 := by
  rw [oneHot, range_succ_eq_map, map_cons, map_map]
  congr 1
  exact eq_replicate_iff.mpr ⟨by simp, by simp⟩

theorem oneHot_succ (count chosen : ℕ) :
    (oneHot (count + 1) (chosen + 1) : List K) = 0 :: oneHot count chosen := by
  rw [oneHot, range_succ_eq_map, map_cons, map_map]
  congr 1
  apply map_congr_left
  simp

theorem sum_filter_zeros {α : Type} (entries : List α) (chosen : K × α → Bool) (count : ℕ) :
    ((((List.replicate count (0 : K)).zip entries).filter chosen).map Prod.fst).sum = 0 := by
  apply sum_eq_zero
  intro value mem
  obtain ⟨entry, inside, rfl⟩ := mem_map.mp mem
  exact eq_of_mem_replicate (of_mem_zip (mem_of_mem_filter inside)).1

theorem sum_oneHot {chosen : ℕ} (inside : chosen < count) (entry : ℕ → K) (offset : ℕ) :
    (((oneHot count chosen : List K).zipIdx offset).map fun pair => pair.1 * entry pair.2).sum =
      entry (offset + chosen) := by
  induction count generalizing chosen offset with
  | zero => exact absurd inside (Nat.not_lt_zero _)
  | succ count ih =>
    cases chosen with
    | zero =>
      have zeros : (((List.replicate count (0 : K)).zipIdx (offset + 1)).map fun pair =>
          pair.1 * entry pair.2).sum = 0 := by
        apply sum_eq_zero
        intro value mem
        obtain ⟨pair, paired, rfl⟩ := mem_map.mp mem
        rw [eq_of_mem_replicate (fst_mem_of_mem_zipIdx paired), zero_mul]
      rw [oneHot_zero, zipIdx_cons, map_cons, sum_cons, one_mul, zeros, add_zero, add_zero]
    | succ chosen =>
      rw [oneHot_succ, zipIdx_cons, map_cons, sum_cons, zero_mul, zero_add,
        ih (Nat.lt_of_succ_lt_succ inside)]
      congr 1
      omega

theorem selectedConstantBits_oneHot {constants : List ℕ} {chosen : ℕ}
    (inside : chosen < constants.length) (small : constants.getD chosen 0 < 2 ^ 64) (width : ℕ) :
    selectedConstantBits (oneHot constants.length chosen : List K) constants width =
      bitsOf width (constants.getD chosen 0) := by
  rw [selectedConstantBits, bitsOf_eq_map]
  apply map_congr_left
  intro bit _
  have within : ∀ constant, constant < 2 ^ 64 →
      (decide (bit < 64) && constant.testBit bit) = constant.testBit bit := by
    intro constant bound
    rcases lt_or_ge bit 64 with low | high
    · rw [decide_eq_true low, Bool.true_and]
    · rw [Nat.testBit_lt_two_pow (bound.trans_le (Nat.pow_le_pow_right two_pos high)),
        Bool.and_false]
  induction constants generalizing chosen with
  | nil => exact absurd inside (Nat.not_lt_zero _)
  | cons constant constants ih =>
    cases chosen with
    | zero =>
      rw [getD_cons_zero] at small ⊢
      rw [length_cons, oneHot_zero, zip_cons_cons, filter_cons]
      simp only [within constant small]
      cases constant.testBit bit
      · rw [if_neg Bool.false_ne_true, sum_filter_zeros, flag_false]
      · rw [if_pos rfl, map_cons, sum_cons, sum_filter_zeros, add_zero, flag_true]
    | succ chosen =>
      rw [getD_cons_succ] at small ⊢
      rw [length_cons, oneHot_succ, zip_cons_cons, filter_cons, ← ih (by simpa using inside) small]
      split_ifs
      · rw [map_cons, sum_cons, zero_add]
      · rfl

section CharacteristicTwo

variable [CharP K 2]

/-- Comparisons with increasing boundaries select the place of a value. -/
theorem zipWith_boundaries {value : ℕ} {boundaries : List ℕ}
    (increasing : boundaries.Pairwise (· < ·)) {before : Bool}
    (below : before = true → ∀ boundary ∈ boundaries, value < boundary) :
    zipWith (fun left right => right + left)
      (flag before :: boundaries.map fun boundary => flag (decide (value < boundary)))
      ((boundaries.map fun boundary => flag (decide (value < boundary))) ++ [1]) =
      (if before then List.replicate (boundaries.length + 1) 0
        else oneHot (boundaries.length + 1) (boundaries.countP (· ≤ value)) : List K) := by
  induction boundaries generalizing before with
  | nil => cases before <;> simp [oneHot, CharTwo.add_self_eq_zero]
  | cons boundary boundaries ih =>
    obtain ⟨first, rest⟩ := pairwise_cons.mp increasing
    have later := @ih rest (decide (value < boundary))
      fun reached next mem => (of_decide_eq_true reached).trans (first next mem)
    rw [map_cons, cons_append, zipWith_cons_cons, later, countP_cons]
    rcases lt_or_ge value boundary with small | reached
    · have none : boundaries.countP (· ≤ value) = 0 := by
        rw [countP_eq_zero]
        intro next mem
        simpa using small.trans (first next mem)
      cases before <;> simp [small, not_le.mpr small, none, oneHot_zero, replicate_succ,
        CharTwo.add_self_eq_zero]
    · have before_eq : before = false := by
        by_contra set
        exact absurd (below (by simpa using set) boundary mem_cons_self) (not_lt.mpr reached)
      simp [before_eq, reached, not_lt.mpr reached, oneHot_succ]

theorem flag_add (a b : Bool) : (flag a + flag b : K) = flag (a ^^ b) := by
  cases a <;> cases b <;> simp [CharTwo.add_self_eq_zero]

theorem flag_add_one (bit : Bool) : (flag bit + 1 : K) = flag !bit := by
  cases bit <;> simp [CharTwo.add_self_eq_zero]

theorem rippleAdd_bitsOf (count first second : ℕ) (carry : Bool) :
    rippleAdd (flag carry) (bitsOf count first) (bitsOf count second) =
      ((bitsOf count (first + second + carry.toNat) : List K),
        flag (decide (2 ^ count ≤ first % 2 ^ count + second % 2 ^ count + carry.toNat))) := by
  induction count generalizing first second carry with
  | zero => cases carry <;> simp [rippleAdd, bitsOf, Nat.mod_one]
  | succ count ih =>
    have carried : (first + second + carry.toNat) / 2 =
        first / 2 + second / 2 +
          (first.testBit 0 && second.testBit 0 ^^ carry && (first.testBit 0 ^^ second.testBit 0)
            : Bool).toNat := by
      rcases Nat.mod_two_eq_zero_or_one first with even | odd <;>
        rcases Nat.mod_two_eq_zero_or_one second with even' | odd' <;>
        cases carry <;> simp [Nat.testBit_zero, *] <;> omega
    have low : (first + second + carry.toNat).testBit 0 =
        (first.testBit 0 ^^ second.testBit 0 ^^ carry) := by
      rcases Nat.mod_two_eq_zero_or_one first with even | odd <;>
        rcases Nat.mod_two_eq_zero_or_one second with even' | odd' <;>
        cases carry <;> simp [Nat.testBit_zero, Nat.add_mod, *]
    have halves := ih (first / 2) (second / 2)
      (first.testBit 0 && second.testBit 0 ^^ carry && (first.testBit 0 ^^ second.testBit 0))
    have out : 2 ^ (count + 1) ≤ first % 2 ^ (count + 1) + second % 2 ^ (count + 1) +
          carry.toNat ↔
        2 ^ count ≤ first / 2 % 2 ^ count + second / 2 % 2 ^ count +
          (first.testBit 0 && second.testBit 0 ^^ carry && (first.testBit 0 ^^ second.testBit 0)
            : Bool).toNat := by
      rw [pow_succ', Nat.mod_mul, Nat.mod_mul]
      rcases Nat.mod_two_eq_zero_or_one first with even | odd <;>
        rcases Nat.mod_two_eq_zero_or_one second with even' | odd' <;>
        cases carry <;> simp [Nat.testBit_zero, *] <;> omega
    simp only [bitsOf, rippleAdd, flag_add, flag_mul, halves, carried, low,
      decide_eq_decide.mpr out]

theorem checkedAddBits_enforces [DecidableEq K] {count first second : ℕ}
    (bound : first < 2 ^ count) (bound' : second < 2 ^ count) :
    (checkedAddBits (bitsOf count first) (bitsOf count second) : Builder K (List K)).Enforces
      (first + second < 2 ^ count) (bitsOf count (first + second)) := by
  have sum := @rippleAdd_bitsOf K _ _ count first second false
  rw [Nat.mod_eq_of_lt bound, Nat.mod_eq_of_lt bound', flag_false, Bool.toNat_false,
    add_zero] at sum
  rw [checkedAddBits, sum]
  have pinned := Enforces.pinZero (flag (decide (2 ^ count ≤ first + second)) : K)
  apply (pinned.map fun _ => bitsOf count (first + second)).congr _ fun _ => rfl
  rw [flag_eq_zero, decide_eq_false_iff_not, not_le]

theorem lessThanFrom_bitsOf (count first second : ℕ) (borrow : Bool) :
    lessThanFrom (flag borrow) (bitsOf count first) (bitsOf count second) =
      (flag (decide (first % 2 ^ count < second % 2 ^ count + borrow.toNat)) : K) := by
  induction count generalizing first second borrow with
  | zero => cases borrow <;> simp [lessThanFrom, bitsOf, Nat.mod_one]
  | succ count ih =>
    have halves := ih (first / 2) (second / 2)
      (!first.testBit 0 && second.testBit 0 ^^ borrow && !(first.testBit 0 ^^ second.testBit 0))
    have out : first % 2 ^ (count + 1) < second % 2 ^ (count + 1) + borrow.toNat ↔
        first / 2 % 2 ^ count < second / 2 % 2 ^ count +
          (!first.testBit 0 && second.testBit 0 ^^
            borrow && !(first.testBit 0 ^^ second.testBit 0) : Bool).toNat := by
      rw [pow_succ', Nat.mod_mul, Nat.mod_mul]
      rcases Nat.mod_two_eq_zero_or_one first with even | odd <;>
        rcases Nat.mod_two_eq_zero_or_one second with even' | odd' <;>
        cases borrow <;> simp [Nat.testBit_zero, *] <;> omega
    simp only [bitsOf, lessThanFrom, flag_add, flag_add_one, flag_mul, halves,
      decide_eq_decide.mpr out]

variable {count first second : ℕ}

theorem lessThanBits_bitsOf (bound : first < 2 ^ count) (bound' : second < 2 ^ count) :
    lessThanBits (bitsOf count first) (bitsOf count second) =
      (flag (decide (first < second)) : K) := by
  have last := @lessThanFrom_bitsOf K _ _ count first second false
  rwa [Nat.mod_eq_of_lt bound, Nat.mod_eq_of_lt bound', Bool.toNat_false, add_zero] at last

/-- Whether a bit is the highest in which two numbers differ. -/
def isHighestDifference (count first second bit : ℕ) : Bool :=
  (first.testBit bit ^^ second.testBit bit) &&
    decide (first % 2 ^ count / 2 ^ (bit + 1) = second % 2 ^ count / 2 ^ (bit + 1))

theorem compareBits_bitsOf (count first second : ℕ) :
    compareBits (bitsOf count first) (bitsOf count second) =
      ((flag (decide (first % 2 ^ count < second % 2 ^ count)) : K),
        flag (decide (first % 2 ^ count = second % 2 ^ count)),
        (List.range count).map fun bit => flag (isHighestDifference count first second bit)) := by
  induction count generalizing first second with
  | zero => simp [compareBits, bitsOf, Nat.mod_one]
  | succ count ih =>
    have less : (decide (first % 2 ^ (count + 1) < second % 2 ^ (count + 1)) : Bool) =
        (decide (first / 2 % 2 ^ count < second / 2 % 2 ^ count) ^^
          decide (first / 2 % 2 ^ count = second / 2 % 2 ^ count) &&
            (!first.testBit 0 && second.testBit 0)) := by
      rw [pow_succ', Nat.mod_mul, Nat.mod_mul, Bool.eq_iff_iff]
      rcases Nat.mod_two_eq_zero_or_one first with even | odd <;>
        rcases Nat.mod_two_eq_zero_or_one second with even' | odd' <;>
        simp [Nat.testBit_zero, *] <;> omega
    have equal : (decide (first % 2 ^ (count + 1) = second % 2 ^ (count + 1)) : Bool) =
        (decide (first / 2 % 2 ^ count = second / 2 % 2 ^ count) &&
          !(first.testBit 0 ^^ second.testBit 0)) := by
      rw [pow_succ', Nat.mod_mul, Nat.mod_mul, Bool.eq_iff_iff]
      rcases Nat.mod_two_eq_zero_or_one first with even | odd <;>
        rcases Nat.mod_two_eq_zero_or_one second with even' | odd' <;>
        simp [Nat.testBit_zero, *] <;> omega
    have half : ∀ value : ℕ, value % 2 ^ (count + 1) / 2 = value / 2 % 2 ^ count := by
      intro value
      rw [pow_succ', Nat.mod_mul]
      omega
    have top : isHighestDifference (count + 1) first second 0 =
        (decide (first / 2 % 2 ^ count = second / 2 % 2 ^ count) ^^
          decide (first / 2 % 2 ^ count = second / 2 % 2 ^ count) &&
            !(first.testBit 0 ^^ second.testBit 0)) := by
      rw [isHighestDifference, zero_add, pow_one, half, half]
      cases first.testBit 0 <;> cases second.testBit 0 <;> simp
    have higher : ∀ bit, isHighestDifference (count + 1) first second (bit + 1) =
        isHighestDifference count (first / 2) (second / 2) bit := by
      intro bit
      rw [isHighestDifference, isHighestDifference, pow_succ' 2 (bit + 1), ← Nat.div_div_eq_div_mul,
        ← Nat.div_div_eq_div_mul, half, half, Nat.testBit_div_two, Nat.testBit_div_two]
    simp only [bitsOf, compareBits, ih, flag_add, flag_add_one, flag_mul, less, equal,
      range_succ_eq_map, map_cons, map_map, top]
    congr 3
    apply map_congr_left
    intro bit _
    rw [Function.comp_apply, Nat.succ_eq_add_one, higher]

theorem pinLtStrict_enforces [DecidableEq K] (bound : first < 2 ^ count)
    (bound' : second < 2 ^ count) :
    (pinLtStrict (bitsOf count first) (bitsOf count second) : Builder K Unit).Enforces
      (first < second) () := by
  rw [pinLtStrict, compareBits_bitsOf, Nat.mod_eq_of_lt bound, Nat.mod_eq_of_lt bound']
  refine (Enforces.pinZero _).congr ?_ fun _ => rfl
  rw [flag_add_one, flag_eq_zero]
  simp

variable {value width : ℕ}

theorem foldlM_checkedAdd_enforces [DecidableEq K] (bound : value < 2 ^ count) {shifts : List ℕ}
    {start : ℕ} (fits : start + value * (shifts.map (2 ^ ·)).sum < 2 ^ width) :
    (shifts.foldlM (fun product shift =>
        checkedAddBits product (shiftedBits width shift (bitsOf count value)))
      (bitsOf width start) : Builder K (List K)).Enforces True
      (bitsOf width (start + value * (shifts.map (2 ^ ·)).sum)) := by
  induction shifts generalizing start with
  | nil => exact Enforces.pure _
  | cons shift shifts ih =>
    rw [map_cons, sum_cons, mul_add, ← add_assoc] at fits
    rw [foldlM_cons, shiftedBits_bitsOf bound, map_cons, sum_cons, mul_add, ← add_assoc]
    have small : start + value * 2 ^ shift < 2 ^ width := by omega
    have first := @checkedAddBits_enforces K _ _ _ width start (value * 2 ^ shift) (by omega)
      (by omega)
    apply (first.bind fun _ => ih fits).congr _ fun _ => rfl
    exact ⟨fun _ => trivial, fun _ => ⟨small, trivial⟩⟩

theorem constantProductBits_enforces [DecidableEq K] {constant : ℕ} (bound : value < 2 ^ count)
    (small : constant < 2 ^ 64) (fits : value * constant < 2 ^ width) :
    (constantProductBits (bitsOf count value) constant width : Builder K (List K)).Enforces True
      (bitsOf width (value * constant)) := by
  have total := sum_two_pow_testBit constant 64
  rw [Nat.mod_eq_of_lt small] at total
  rw [constantProductBits]
  cases shifts : (List.range 64).filter fun shift => constant.testBit shift with
  | nil =>
    rw [shifts, map_nil, sum_nil] at total
    rw [← total, Nat.mul_zero, bitsOf_zero]
    exact Enforces.pure _
  | cons first rest =>
    rw [shifts, map_cons, sum_cons] at total
    rw [← total, mul_add] at fits ⊢
    dsimp only
    rw [shiftedBits_bitsOf bound]
    exact foldlM_checkedAdd_enforces bound fits

end CharacteristicTwo

end Circuit
