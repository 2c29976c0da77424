import Jetsam.Merkle.Tree

/-!
# Streaming a sparse tree

A left-to-right builder that keeps one pending subtree per level. The gaps between occupied leaves
are filled with maximal aligned subtrees of zero leaves.
-/

namespace Merkle

variable {D : Type*}

/-- A prefix of the leaves, held as a stack of full subtrees with the newest on top. -/
structure Stream (D : Type*) where
  position : Nat
  stack : List (Nat × D)

namespace Stream

def empty : Stream D := ⟨0, []⟩

/-- Put a subtree on the stack, joining it with pending subtrees of the same level. -/
def mergeTop (node : D → D → D) : Nat → D → List (Nat × D) → List (Nat × D)
  | level, hash, [] => [(level, hash)]
  | level, hash, (pending, left) :: rest =>
    if pending = level then mergeTop node (level + 1) (node left hash) rest
    else (level, hash) :: (pending, left) :: rest

def trailingZeros (number : Nat) : Nat :=
  if even : number % 2 = 0 ∧ number ≠ 0 then trailingZeros (number / 2) + 1 else 0
termination_by number
decreasing_by omega

/-- Level of the largest aligned subtree that starts at `position` and fits the gap. -/
def gapLevel (depth position remaining : Nat) : Nat :=
  min remaining.log2 (if position = 0 then depth else min (trailingZeros position) depth)

/-- Cover the leaves up to `stop` by zero subtrees. -/
def fillGap (node : D → D → D) (zeros : Nat → D) (depth stop : Nat) (stream : Stream D) :
    Stream D :=
  if gap : stream.position < stop then
    let level := gapLevel depth stream.position (stop - stream.position)
    fillGap node zeros depth stop
      ⟨stream.position + 2 ^ level, mergeTop node level (zeros level) stream.stack⟩
  else
    stream
termination_by stop - stream.position
decreasing_by
  have : 0 < 2 ^ gapLevel depth stream.position (stop - stream.position) := Nat.two_pow_pos _
  omega

/-- Append the occupied leaf `index`; leaves must come in increasing order. -/
def pushLeaf (node : D → D → D) (zeros : Nat → D) (depth : Nat) (stream : Stream D)
    (index : Nat) (hash : D) : Option (Stream D) :=
  if index < stream.position ∨ 2 ^ depth < index then none
  else
    let filled := fillGap node zeros depth index stream
    some ⟨index + 1, mergeTop node 0 hash filled.stack⟩

def finish (node : D → D → D) (zeros : Nat → D) (depth : Nat) (stream : Stream D) : Option D :=
  if 2 ^ depth < stream.position then none
  else
    match (fillGap node zeros depth (2 ^ depth) stream).stack with
    | [(level, hash)] => if level = depth then some hash else none
    | _ => none

/-- The stack covers the leaves before a position by aligned full subtrees. -/
inductive Covers (node : D → D → D) (leaves : Nat → D) : List (Nat × D) → Nat → Prop
  | nil : Covers node leaves [] 0
  | cons {rest : List (Nat × D)} {start level : Nat} (below : Covers node leaves rest start)
      (aligned : 2 ^ (level + 1) ∣ start) :
      Covers node leaves
        ((level, root node level fun i => leaves (start + i)) :: rest) (start + 2 ^ level)

variable {node : D → D → D} {leaves : Nat → D}

theorem root_join (level start : Nat) :
    node (root node level fun i => leaves (start + i))
        (root node level fun i => leaves (start + 2 ^ level + i)) =
      root node (level + 1) fun i => leaves (start + i) := by
  congr 2
  funext i
  rw [add_assoc]

variable {stack : List (Nat × D)}

theorem Covers.merge {start : Nat} (covered : Covers node leaves stack start) (level : Nat)
    (aligned : 2 ^ level ∣ start) :
    Covers node leaves
      (mergeTop node level (root node level fun i => leaves (start + i)) stack)
      (start + 2 ^ level) := by
  induction covered generalizing level with
  | nil =>
    have single : Covers node leaves _ _ := Covers.cons Covers.nil (dvd_zero (2 ^ (level + 1)))
    simpa [mergeTop] using single
  | @cons rest start pending below pendingAligned ih =>
    unfold mergeTop
    split
    next same =>
      subst same
      have joined := ih (pending + 1) pendingAligned
      rw [← root_join, pow_succ] at joined
      rwa [show start + 2 ^ pending + 2 ^ pending = start + 2 ^ pending * 2 by ring]
    next different =>
      -- A lower pending subtree would leave the position unaligned.
      have higher : level + 1 ≤ pending := by
        by_contra low
        have pendingLow : pending + 1 ≤ level := by omega
        have divides : 2 ^ (pending + 1) ∣ start + 2 ^ pending :=
          (pow_dvd_pow 2 pendingLow).trans aligned
        have half : 2 ^ (pending + 1) ∣ 2 ^ pending :=
          (Nat.dvd_add_right pendingAligned).mp divides
        have := Nat.le_of_dvd (Nat.two_pow_pos _) half
        omega
      refine Covers.cons (Covers.cons below pendingAligned) ?_
      exact Nat.dvd_add ((pow_dvd_pow 2 (by omega)).trans pendingAligned)
        (pow_dvd_pow 2 higher)

theorem Covers.eq_nil (covered : Covers node leaves stack 0) :
    stack = [] := by
  generalize position : 0 = stop at covered
  cases covered with
  | nil => rfl
  | @cons rest start level =>
    omega

theorem Covers.eq_root {depth : Nat} (covered : Covers node leaves stack (2 ^ depth)) :
    stack = [(depth, root node depth leaves)] := by
  generalize position : 2 ^ depth = stop at covered
  cases covered with
  | nil =>
    have : 0 < 2 ^ depth := Nat.two_pow_pos depth
    omega
  | @cons rest start level below aligned =>
    rcases eq_zero_or_pos start with rfl | pos
    · obtain rfl := below.eq_nil
      have sameLevel : depth = level :=
        Nat.pow_right_injective (le_refl 2) (by simpa using position)
      subst sameLevel
      simp
    · have levelLow : level + 1 ≤ depth := by
        have : 2 ^ level < 2 ^ depth := by omega
        exact (Nat.pow_lt_pow_iff_right (by norm_num)).mp this
      have divides : 2 ^ (level + 1) ∣ start + 2 ^ level := by
        rw [← position]
        exact pow_dvd_pow 2 levelLow
      have half := Nat.le_of_dvd (Nat.two_pow_pos _) ((Nat.dvd_add_right aligned).mp divides)
      omega

theorem two_pow_trailingZeros_dvd (number : Nat) : 2 ^ trailingZeros number ∣ number := by
  fun_induction trailingZeros number with
  | case1 number even ih =>
    rw [pow_succ, mul_comm]
    have := mul_dvd_mul_left 2 ih
    rwa [Nat.mul_div_cancel' (Nat.dvd_of_mod_eq_zero even.1)] at this
  | case2 => simp

theorem gapLevel_aligned (depth position remaining : Nat) :
    2 ^ gapLevel depth position remaining ∣ position := by
  unfold gapLevel
  split
  next start => simp [start]
  next =>
    refine (pow_dvd_pow 2 ?_).trans (two_pow_trailingZeros_dvd position)
    omega

theorem gapLevel_fits (depth position : Nat) {remaining : Nat} (gap : 0 < remaining) :
    2 ^ gapLevel depth position remaining ≤ remaining :=
  (Nat.pow_le_pow_right (by norm_num) (min_le_left _ _)).trans
    (Nat.log2_self_le (by omega))

section Zeros

variable {zero : D} (depth : Nat)

theorem fillGap_covers {stop : Nat} (stream : Stream D)
    (covered : Covers node leaves stream.stack stream.position)
    (before : stream.position ≤ stop)
    (vacant : ∀ i, stream.position ≤ i → i < stop → leaves i = zero) :
    Covers node leaves (fillGap node (zeroRoot node zero) depth stop stream).stack stop := by
  fun_induction fillGap node (zeroRoot node zero) depth stop stream with
  | case1 stream gap level ih =>
    have fits : 2 ^ level ≤ stop - stream.position :=
      gapLevel_fits depth stream.position (by omega)
    have block : root node level (fun i => leaves (stream.position + i)) =
        zeroRoot node zero level := by
      rw [← root_const]
      exact root_congr fun i bound => vacant _ (by omega) (by omega)
    refine ih ?_ (by simp only; omega) fun i lower upper => vacant i ?_ upper
    · rw [← block]
      exact covered.merge level (gapLevel_aligned depth stream.position _)
    · exact (Nat.le_add_right _ _).trans lower
  | case2 stream full =>
    rwa [show stop = stream.position by omega]

/-- The stream holds everything before `next`: what it has not covered is vacant. -/
structure Ready (node : D → D → D) (leaves : Nat → D) (zero : D) (stream : Stream D)
    (next : Nat) : Prop where
  covered : Covers node leaves stream.stack stream.position
  behind : stream.position ≤ next
  vacant : ∀ i, stream.position ≤ i → i < next → leaves i = zero

theorem Ready.empty : Ready node leaves zero Stream.empty 0 :=
  ⟨Covers.nil, le_rfl, fun _ _ upper => absurd upper (Nat.not_lt_zero _)⟩

variable {stream : Stream D}

theorem Ready.skip {next : Nat} (ready : Ready node leaves zero stream next)
    (vacantNext : leaves next = zero) : Ready node leaves zero stream (next + 1) where
  covered := ready.covered
  behind := ready.behind.trans (Nat.le_succ next)
  vacant := fun i lower upper => by
    rcases Nat.lt_succ_iff_lt_or_eq.mp upper with earlier | rfl
    · exact ready.vacant i lower earlier
    · exact vacantNext

theorem Ready.push {next : Nat} (ready : Ready node leaves zero stream next)
    (inRange : next < 2 ^ depth) :
    ∃ pushed, pushLeaf node (zeroRoot node zero) depth stream next (leaves next) = some pushed ∧
      Ready node leaves zero pushed (next + 1) := by
  have filled := fillGap_covers depth stream ready.covered ready.behind ready.vacant
  have leaf := filled.merge 0 (by simp)
  have behind := ready.behind
  refine ⟨_, if_neg (by omega), ⟨?_, le_rfl, fun i lower upper => ?_⟩⟩
  · simpa using leaf
  · exact absurd upper (by simp only at lower; omega)

theorem Ready.finish (ready : Ready node leaves zero stream (2 ^ depth)) :
    Stream.finish node (zeroRoot node zero) depth stream = some (root node depth leaves) := by
  have filled := fillGap_covers depth stream ready.covered ready.behind ready.vacant
  simp [Stream.finish, not_lt.mpr ready.behind, filled.eq_root]

end Zeros

/-- Stream the occupied leaves among the first `count`. -/
def scan (node : D → D → D) (zeros : Nat → D) (depth : Nat) (occupied : Nat → Bool)
    (leaves : Nat → D) : Nat → Option (Stream D)
  | 0 => some Stream.empty
  | count + 1 => do
    let stream ← scan node zeros depth occupied leaves count
    if occupied count then pushLeaf node zeros depth stream count (leaves count)
    else some stream

theorem scan_ready {zero : D} {depth : Nat} {occupied : Nat → Bool}
    (vacant : ∀ i, occupied i = false → leaves i = zero) {count : Nat}
    (inRange : count ≤ 2 ^ depth) :
    ∃ stream, scan node (zeroRoot node zero) depth occupied leaves count = some stream ∧
      Ready node leaves zero stream count := by
  induction count with
  | zero => exact ⟨_, rfl, Ready.empty⟩
  | succ count ih =>
    obtain ⟨stream, scanned, ready⟩ := ih (by omega)
    simp only [scan, scanned, Option.bind_eq_bind, Option.bind_some]
    cases leaf : occupied count with
    | false => exact ⟨stream, by simp, ready.skip (vacant count leaf)⟩
    | true => simpa using ready.push depth (by omega)

/-- Root of a sparse tree of the given depth, streamed from its occupied leaves. -/
def sparseRoot (node : D → D → D) (zeros : Nat → D) (depth : Nat) (occupied : Nat → Bool)
    (leaves : Nat → D) : Option D := do
  let stream ← scan node zeros depth occupied leaves (2 ^ depth)
  stream.finish node zeros depth

theorem sparseRoot_eq {zero : D} {depth : Nat} {occupied : Nat → Bool}
    (vacant : ∀ i, occupied i = false → leaves i = zero) :
    sparseRoot node (zeroRoot node zero) depth occupied leaves =
      some (root node depth leaves) := by
  obtain ⟨stream, scanned, ready⟩ := @scan_ready D node leaves zero depth occupied vacant _ le_rfl
  simp only [sparseRoot, scanned, Option.bind_eq_bind, Option.bind_some]
  exact ready.finish

end Stream
end Merkle
