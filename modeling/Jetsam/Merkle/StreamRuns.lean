import Jetsam.Merkle.Streaming

/-!
# Runs of the streaming builder

The builder ends with the root of the sparse tree exactly when the leaves come in increasing order
and inside the tree, and its stack behaves like a binary counter: its length is logarithmic in the
number of leaves covered.
-/

namespace Merkle.Stream

open List

variable {D : Type} {node : D → D → D} {zeros : Nat → D} {leaves : Nat → D} {depth : Nat}

variable {stop : Nat}

theorem fillGap_position (stream : Stream D) (before : stream.position ≤ stop) :
    (fillGap node zeros depth stop stream).position = stop := by
  fun_induction fillGap node zeros depth stop stream with
  | case1 stream gap level ih =>
    have fits : 2 ^ level ≤ stop - stream.position :=
      gapLevel_fits depth stream.position (by omega)
    exact ih (by simp only; omega)
  | case2 stream full => omega

variable {stream : Stream D} {index : Nat}

variable {pushed : Stream D} {hash : D}

theorem pushLeaf_eq_some :
    pushLeaf node zeros depth stream index hash = some pushed ↔
      stream.position ≤ index ∧ index ≤ 2 ^ depth ∧
        pushed =
          ⟨index + 1, mergeTop node 0 hash (fillGap node zeros depth index stream).stack⟩ := by
  rw [pushLeaf]
  split
  case isTrue refused =>
      simp only [reduceCtorEq, false_iff]
      omega
  case isFalse accepted =>
      simp only [Option.some.injEq, eq_comm]
      constructor
      · intro same
        exact ⟨by omega, by omega, same⟩
      · rintro ⟨-, -, same⟩
        exact same

def feed (node : D → D → D) (zeros : Nat → D) (depth : Nat) (fed : List (Nat × D))
    (stream : Stream D) : Option (Stream D) :=
  fed.foldlM (fun stream leaf => pushLeaf node zeros depth stream leaf.1 leaf.2) stream

/-- The leaf at a position when some leaves are given and all others are empty. -/
def given (zero : D) (fed : List (Nat × D)) (index : Nat) : D := (fed.lookup index).getD zero

variable {fed : List (Nat × D)} {final : Stream D}

theorem feed_cons_eq_some {leaf : Nat × D} :
    feed node zeros depth (leaf :: fed) stream = some final ↔
      ∃ pushed, pushLeaf node zeros depth stream leaf.1 leaf.2 = some pushed ∧
        feed node zeros depth fed pushed = some final := by
  simp only [feed, foldlM_cons, Option.bind_eq_bind, Option.bind_eq_some_iff]

variable {zero : D}

theorem given_eq_zero (absent : ∀ leaf ∈ fed, leaf.1 ≠ index) :
    given zero fed index = zero := by
  have missing : fed.lookup index = none := by
    rw [lookup_eq_none_iff]
    intro leaf mem
    exact bne_iff_ne.mpr (absent leaf mem).symm
  rw [given, missing, Option.getD_none]

theorem given_cons (zero : D) (leaf : Nat × D) (fed : List (Nat × D)) (index : Nat) :
    given zero (leaf :: fed) index = if index = leaf.1 then leaf.2 else given zero fed index := by
  obtain ⟨position, hash⟩ := leaf
  by_cases here : index = position
  · simp [given, here]
  · simp [given, lookup_cons, here, beq_eq_false_iff_ne.mpr here]

theorem increasing_of_feed (fedAll : feed node zeros depth fed stream = some final) :
    fed.Pairwise (fun left right => left.1 < right.1) ∧ stream.position ≤ final.position ∧
      ∀ leaf ∈ fed, stream.position ≤ leaf.1 ∧ leaf.1 < final.position := by
  induction fed generalizing stream with
  | nil =>
    obtain rfl : stream = final := by simpa [feed] using fedAll
    exact ⟨List.Pairwise.nil, le_refl _, by simp⟩
  | cons leaf fed ih =>
    obtain ⟨pushed, first, rest⟩ := feed_cons_eq_some.mp fedAll
    obtain ⟨behind, -, rfl⟩ := pushLeaf_eq_some.mp first
    obtain ⟨increasing, forward, bounds⟩ := ih rest
    simp only at forward bounds
    refine ⟨List.Pairwise.cons ?_ increasing, by omega, ?_⟩
    · intro later mem
      have := (bounds later mem).1
      omega
    · intro other mem
      rcases mem_cons.mp mem with rfl | mem
      · omega
      · have := bounds other mem
        omega

theorem exists_feed (covered : Covers node leaves stream.stack stream.position)
    (increasing : fed.Pairwise fun left right => left.1 < right.1)
    (inside : ∀ leaf ∈ fed, stream.position ≤ leaf.1 ∧ leaf.1 < 2 ^ depth)
    (bounded : stream.position ≤ 2 ^ depth)
    (agree : ∀ index, stream.position ≤ index → leaves index = given zero fed index) :
    ∃ final, feed node (zeroRoot node zero) depth fed stream = some final ∧
      Ready node leaves zero final (2 ^ depth) := by
  induction fed generalizing stream with
  | nil =>
    refine ⟨stream, rfl, covered, bounded, ?_⟩
    intro index lower _
    rw [agree index lower, given_eq_zero (by simp)]
  | cons leaf fed ih =>
    obtain ⟨above, increasing⟩ := pairwise_cons.mp increasing
    obtain ⟨⟨behind, below⟩, inside⟩ := forall_mem_cons.mp inside
    have ready : Ready node leaves zero stream leaf.1 := by
      refine ⟨covered, behind, ?_⟩
      intro index lower upper
      rw [agree index lower, given_eq_zero]
      intro other mem
      rcases mem_cons.mp mem with rfl | mem
      · omega
      · have := above other mem
        omega
    have value : leaves leaf.1 = leaf.2 := by
      rw [agree leaf.1 behind, given_cons, if_pos rfl]
    obtain ⟨pushed, first, after⟩ := ready.push depth below
    rw [value] at first
    obtain ⟨-, -, shape⟩ := pushLeaf_eq_some.mp first
    have position : pushed.position = leaf.1 + 1 := by rw [shape]
    obtain ⟨final, rest, done⟩ := ih after.covered increasing
      (by
        intro other mem
        have := above other mem
        have := inside other mem
        omega)
      (by omega)
      (by
        intro index lower
        rw [agree index (by omega), given_cons, if_neg (by omega)])
    exact ⟨final, feed_cons_eq_some.mpr ⟨pushed, first, rest⟩, done⟩

/-- The builder ends with a root exactly when the leaves come in increasing order inside the tree.
-/
theorem feed_finish_eq_some {zero : D} {fed : List (Nat × D)} {result : D} :
    ((feed node (zeroRoot node zero) depth fed Stream.empty).bind
        (Stream.finish node (zeroRoot node zero) depth)) = some result ↔
      fed.Pairwise (fun left right => left.1 < right.1) ∧ (∀ leaf ∈ fed, leaf.1 < 2 ^ depth) ∧
        root node depth (given zero fed) = result := by
  have complete (increasing : fed.Pairwise fun left right => left.1 < right.1)
      (inside : ∀ leaf ∈ fed, leaf.1 < 2 ^ depth) :
      ((feed node (zeroRoot node zero) depth fed Stream.empty).bind
        (Stream.finish node (zeroRoot node zero) depth)) =
          some (root node depth (given zero fed)) := by
    have covered : Covers node (given zero fed) (Stream.empty : Stream D).stack 0 := Covers.nil
    obtain ⟨final, fedAll, ready⟩ := exists_feed covered increasing
      (fun leaf member => ⟨Nat.zero_le _, inside leaf member⟩) (Nat.zero_le _) fun _ _ => rfl
    rw [fedAll, Option.bind_some, ready.finish depth]
  constructor
  · intro finished
    obtain ⟨final, fedAll, closed⟩ := Option.bind_eq_some_iff.mp finished
    obtain ⟨increasing, -, bounds⟩ := increasing_of_feed fedAll
    have room : ¬ 2 ^ depth < final.position := by
      intro late
      simp [Stream.finish, late] at closed
    have inside : ∀ leaf ∈ fed, leaf.1 < 2 ^ depth := by
      intro leaf member
      have := bounds leaf member
      omega
    refine ⟨increasing, inside, ?_⟩
    exact Option.some.inj ((complete increasing inside).symm.trans finished)
  · rintro ⟨increasing, inside, rfl⟩
    exact complete increasing inside

theorem Covers.two_pow_length_le {stack : List (Nat × D)} {position : Nat}
    (covered : Covers node leaves stack position) {level : Nat} (aligned : 2 ^ level ∣ position) :
    2 ^ (stack.length + level) ≤ position + 2 ^ level := by
  induction covered generalizing level with
  | nil => simp
  | @cons rest start pending below pendingAligned ih =>
    have low : level ≤ pending := by
      by_contra high
      have divides : 2 ^ (pending + 1) ∣ start + 2 ^ pending :=
        (pow_dvd_pow 2 (by omega)).trans aligned
      have half := Nat.le_of_dvd (Nat.two_pow_pos _)
        ((Nat.dvd_add_right pendingAligned).mp divides)
      omega
    have few := ih pendingAligned
    obtain ⟨others, count⟩ : ∃ others, 2 ^ rest.length = others + 1 :=
      Nat.exists_eq_add_of_le' (Nat.one_le_two_pow)
    have smaller : 2 ^ level ≤ 2 ^ pending := Nat.pow_le_pow_right (by norm_num) low
    have scaled : others * 2 ^ level ≤ others * 2 ^ pending := Nat.mul_le_mul_left others smaller
    rw [pow_add, pow_succ, count] at few
    rw [length_cons, pow_add, pow_succ, count]
    have pendingSum : (others + 1) * (2 ^ pending * 2) =
        others * 2 ^ pending * 2 + 2 ^ pending * 2 := by
      ring
    have levelSum : (others + 1) * 2 * 2 ^ level = others * 2 ^ level * 2 + 2 ^ level * 2 := by
      ring
    omega

def levels (stack : List (Nat × D)) : List (Nat × Unit) := stack.map fun entry => (entry.1, ())

theorem levels_mergeTop (level : Nat) (hash : D) (stack : List (Nat × D)) :
    levels (mergeTop node level hash stack) =
      mergeTop (fun _ _ => ()) level () (levels stack) := by
  induction stack generalizing level hash with
  | nil => rfl
  | cons entry rest ih =>
    by_cases same : entry.1 = level
    · simpa [mergeTop, levels, same] using ih (level + 1) (node entry.2 hash)
    · simp [mergeTop, levels, same]

/-- The states of the builder: the start, after a turn of the gap loop, and after a leaf. -/
inductive Visited (node : D → D → D) (zeros : Nat → D) (depth : Nat) : Stream D → Prop
  | empty : Visited node zeros depth Stream.empty
  | gap {stream : Stream D} {stop : Nat} (visited : Visited node zeros depth stream)
      (pending : stream.position < stop) (inside : stop ≤ 2 ^ depth) :
      Visited node zeros depth
        ⟨stream.position + 2 ^ gapLevel depth stream.position (stop - stream.position),
          mergeTop node (gapLevel depth stream.position (stop - stream.position))
            (zeros (gapLevel depth stream.position (stop - stream.position))) stream.stack⟩
  | leaf {stream : Stream D} (visited : Visited node zeros depth stream)
      (inside : stream.position ≤ 2 ^ depth) (hash : D) :
      Visited node zeros depth ⟨stream.position + 1, mergeTop node 0 hash stream.stack⟩

section

variable (visited : Visited node zeros depth stream)

include visited

theorem Visited.shape :
    Covers (fun _ _ => ()) (fun _ => ()) (levels stream.stack) stream.position ∧
      stream.position ≤ 2 ^ depth + 1 := by
  induction visited with
  | empty => exact ⟨Covers.nil, Nat.zero_le _⟩
  | @gap stream stop _ gap inside ih =>
    have fits := gapLevel_fits depth stream.position (show 0 < stop - stream.position by omega)
    refine ⟨?_, by simp only; omega⟩
    rw [levels_mergeTop]
    exact ih.1.merge _ (gapLevel_aligned depth stream.position _)
  | @leaf stream _ inside hash ih =>
    refine ⟨?_, by simp only; omega⟩
    rw [levels_mergeTop]
    exact ih.1.merge 0 (one_dvd _)

/-- The stack never holds more subtrees than there are levels. -/
theorem Visited.length_le :
    stream.stack.length ≤ depth + 1 := by
  obtain ⟨covered, bounded⟩ := visited.shape
  have few := covered.two_pow_length_le (show 2 ^ 0 ∣ stream.position from one_dvd _)
  rw [levels, length_map, Nat.add_zero, pow_zero] at few
  by_contra long
  have many : 2 ^ (depth + 2) ≤ 2 ^ stream.stack.length :=
    Nat.pow_le_pow_right (by norm_num) (by omega)
  have : 0 < 2 ^ depth := Nat.two_pow_pos depth
  rw [pow_succ, pow_succ] at many
  omega

theorem Visited.fillGap (inside : stop ≤ 2 ^ depth) :
    Visited node zeros depth (Stream.fillGap node zeros depth stop stream) := by
  fun_induction Stream.fillGap node zeros depth stop stream with
  | case1 stream gap level ih => exact ih (.gap visited gap inside)
  | case2 stream full => exact visited

theorem Visited.pushLeaf
    (accepted : Stream.pushLeaf node zeros depth stream index hash = some pushed) :
    Visited node zeros depth pushed := by
  obtain ⟨behind, inside, rfl⟩ := pushLeaf_eq_some.mp accepted
  have position : (Stream.fillGap node zeros depth index stream).position = index :=
    fillGap_position stream behind
  have appended := (visited.fillGap inside).leaf (by omega) hash
  rwa [position] at appended

theorem Visited.feed (fedAll : Stream.feed node zeros depth fed stream = some final) :
    Visited node zeros depth final := by
  induction fed generalizing stream with
  | nil =>
    obtain rfl : stream = final := by simpa [Stream.feed] using fedAll
    exact visited
  | cons leaf fed ih =>
    obtain ⟨pushed, first, rest⟩ := feed_cons_eq_some.mp fedAll
    exact ih (visited.pushLeaf first) rest

end

end Merkle.Stream
