import Jetsam.Control.Checks
import Jetsam.Control.OrderedMap
import Jetsam.Merkle.Frontier

/-!
# Walking up from a set of leaves

The loop over the levels above a sorted list of leaves, with any value carried per node and any
state passed through the visits. Its result is described by a value per node and an invariant of the
visits made so far.
-/

namespace Merkle

open Control List

variable {ε V S : Type}

/-- One position of a level: the first of two siblings joins the pair into its parent. -/
def walkStep (visit : Nat → Option V → Option V → S → Except ε (V × S)) (known : List (Nat × V))
    (progress : List (Nat × V) × List Nat × S) (position : Nat) :
    Except ε (List (Nat × V) × List Nat × S) :=
  let base := position - position % 2
  if base ∈ progress.2.1 then .ok progress
  else do
    let (parent, state) ←
      visit base (known.lookup base) (known.lookup (base + 1)) progress.2.2
    pure (insertKey (base / 2) parent progress.1, base :: progress.2.1, state)

/-- One level: the positions in increasing order, those of a joined pair skipped. -/
def walkLevel (visit : Nat → Option V → Option V → S → Except ε (V × S))
    (known : List (Nat × V)) (state : S) : Except ε (List (Nat × V) × S) := do
  let (next, _, state) ← (known.map Prod.fst).foldlM (walkStep visit known) ([], [], state)
  pure (next, state)

def walkLevels (visit : Nat → Nat → Option V → Option V → S → Except ε (V × S)) :
    Nat → Nat → List (Nat × V) → S → Except ε (List (Nat × V) × S)
  | 0, _, known, state => .ok (known, state)
  | levels + 1, level, known, state => do
    let (next, state) ← walkLevel (visit level) known state
    walkLevels visit levels (level + 1) next state

def joinChildren (visit : Nat → Option V → Option V → S → Except ε (V × S))
    (known : List (Nat × V)) (progress : List (Nat × V) × S) (parent : Nat) :
    Except ε (List (Nat × V) × S) := do
  let (value, state) ←
    visit (2 * parent) (known.lookup (2 * parent)) (known.lookup (2 * parent + 1)) progress.2
  pure (insertKey parent value progress.1, state)

variable {state : S}

/-- The positions of a level are joined parent by parent. -/
theorem foldlM_walkStep_eq_ok {visit : Nat → Option V → Option V → S → Except ε (V × S)}
    {known : List (Nat × V)} {positions seen : List Nat} {next final : List (Nat × V)}
    {finalState : S}
    (joined : (parentsFrom seen positions).foldlM (joinChildren visit known) (next, state) =
      .ok (final, finalState)) :
    ∃ processed, positions.foldlM (walkStep visit known)
      (next, seen.map (2 * ·), state) = .ok (final, processed, finalState) := by
  induction positions generalizing seen next state with
  | nil =>
    obtain ⟨rfl, rfl⟩ := Prod.mk.inj (Except.ok.inj joined)
    exact ⟨_, rfl⟩
  | cons position rest ih =>
    have base : position - position % 2 = 2 * (position / 2) := by omega
    have listed : 2 * (position / 2) ∈ seen.map (2 * ·) ↔ position / 2 ∈ seen := by
      simp
    rw [parentsFrom] at joined
    by_cases old : position / 2 ∈ seen
    · rw [if_pos old] at joined
      obtain ⟨processed, run⟩ := ih joined
      refine ⟨processed, foldlM_cons_eq_ok.mpr ⟨_, ?_, run⟩⟩
      rw [walkStep, base, if_pos (listed.mpr old)]
    · rw [if_neg old, foldlM_cons_eq_ok] at joined
      obtain ⟨⟨middle, middleState⟩, first, later⟩ := joined
      obtain ⟨processed, run⟩ := ih later
      refine ⟨processed, foldlM_cons_eq_ok.mpr ⟨_, ?_, run⟩⟩
      rw [joinChildren, bind_eq_ok] at first
      obtain ⟨⟨value, after⟩, visited, written⟩ := first
      rw [pure_eq_ok, Prod.mk.injEq] at written
      obtain ⟨rfl, rfl⟩ := written
      rw [walkStep, base, if_neg (fun mem => old (listed.mp mem)), bind_eq_ok]
      refine ⟨(value, after), visited, ?_⟩
      rw [pure_eq_ok, Nat.mul_div_cancel_left _ (by norm_num), map_cons]

/-- What a visit is given: the value of a known node. -/
def knownValue (indices : List Nat) (value : Nat → Nat → V) (level position : Nat) : Option V :=
  if position ∈ knownAt indices level then some (value level position) else none

def knownValues (indices : List Nat) (value : Nat → Nat → V) (level : Nat) : List (Nat × V) :=
  (knownAt indices level).map fun position => (position, value level position)

theorem lookup_knownValues (indices : List Nat) (value : Nat → Nat → V) (level position : Nat) :
    (knownValues indices value level).lookup position =
      knownValue indices value level position := by
  unfold knownValues knownValue
  split_ifs with mem
  · exact @lookup_map_of_mem _ _ (value level) _ mem
  · exact @lookup_map_of_notMem _ _ (value level) _ mem

variable {indices : List Nat} {level parent : Nat}

/-- The three ways a visited pair can be known, with the sibling each takes from the frontier. -/
theorem knownValue_cases (value : Nat → Nat → V) (known : parent ∈ knownAt indices (level + 1)) :
    (knownValue indices value level (2 * parent) = some (value level (2 * parent)) ∧
      knownValue indices value level (2 * parent + 1) = some (value level (2 * parent + 1)) ∧
      emits indices (level, parent) = []) ∨
    (knownValue indices value level (2 * parent) = some (value level (2 * parent)) ∧
      knownValue indices value level (2 * parent + 1) = none ∧
      emits indices (level, parent) = [(level, 2 * parent + 1)]) ∨
    (knownValue indices value level (2 * parent) = none ∧
      knownValue indices value level (2 * parent + 1) = some (value level (2 * parent + 1)) ∧
      emits indices (level, parent) = [(level, 2 * parent)]) := by
  unfold knownValue emits missingChild
  by_cases left : 2 * parent ∈ knownAt indices level
  · by_cases right : 2 * parent + 1 ∈ knownAt indices level
    · simp [left, right]
    · simp [left, right]
  · have right := (child_known known).resolve_left left
    simp [left, right]

variable {depth : Nat} {done rest : List (Nat × Nat)}

theorem known_of_split (split : visits indices depth = done ++ (level, parent) :: rest) :
    level < depth ∧ parent ∈ knownAt indices (level + 1) :=
  mem_visits.mp (split ▸ mem_append_right done mem_cons_self)

def taken (indices : List Nat) (done : List (Nat × Nat)) : List (Nat × Nat) :=
  done.flatMap (emits indices)

theorem taken_snoc (indices : List Nat) (done : List (Nat × Nat)) (visit : Nat × Nat) :
    taken indices (done ++ [visit]) = taken indices done ++ emits indices visit := by
  simp [taken]

/-- The sibling a visit takes stands right after those of the visits before it. -/
theorem getElem_frontier {D : Type} {visit place : Nat × Nat}
    (split : visits indices depth = done ++ visit :: rest) (emitted : emits indices visit = [place])
    (label : Nat × Nat → D) :
    ((frontierNodes indices depth).map label)[(taken indices done).length]? =
      some (label place) := by
  rw [taken, frontierNodes, split, flatMap_append, flatMap_cons, emitted, getElem?_map,
    getElem?_append_right le_rfl, Nat.sub_self]
  rfl

theorem visits_succ (indices : List Nat) (level : Nat) :
    visits indices (level + 1) =
      visits indices level ++ (knownAt indices (level + 1)).map (level, ·) := by
  simp [visits, range_succ, flatMap_append]

section Rule

variable {visit : Nat → Nat → Option V → Option V → S → Except ε (V × S)} {depth : Nat}
  {indices : List Nat} {value : Nat → Nat → V} {Invariant : List (Nat × Nat) → S → Prop}

/-- Every visit gives the node its value and keeps the invariant of the visits made. -/
def VisitsKeep (visit : Nat → Nat → Option V → Option V → S → Except ε (V × S)) (depth : Nat)
    (indices : List Nat) (value : Nat → Nat → V) (Invariant : List (Nat × Nat) → S → Prop) :
    Prop :=
  ∀ done level parent rest, visits indices depth = done ++ (level, parent) :: rest →
    ∀ before, Invariant done before → ∃ after,
      visit level (2 * parent) (knownValue indices value level (2 * parent))
        (knownValue indices value level (2 * parent + 1)) before =
          .ok (value (level + 1) parent, after) ∧
      Invariant (done ++ [(level, parent)]) after

theorem visits_split {level : Nat} (below : level < depth) :
    ∃ later, visits indices depth =
      visits indices level ++ (knownAt indices (level + 1)).map (level, ·) ++ later := by
  obtain ⟨more, rfl⟩ := Nat.exists_eq_add_of_lt below
  unfold visits
  rw [show level + more + 1 = level + 1 + more by omega, range_add, flatMap_append,
    range_succ, flatMap_append, flatMap_map]
  simp

/-- The nodes joined so far are a prefix of the next level. -/
def LevelProgress (indices : List Nat) (value : Nat → Nat → V)
    (Invariant : List (Nat × Nat) → S → Prop) (level : Nat) (done : List Nat)
    (progress : List (Nat × V) × S) : Prop :=
  progress.1 = done.map (fun parent => (parent, value (level + 1) parent)) ∧
    Invariant (visits indices level ++ done.map (level, ·)) progress.2

section

variable (increasing : indices.Pairwise (· < ·))

include increasing

theorem joinChildren_isOk (kept : VisitsKeep visit depth indices value Invariant)
    (below : level < depth) {done rest : List Nat}
    (splitLevel : knownAt indices (level + 1) = done ++ parent :: rest)
    {before : List (Nat × V) × S}
    (progress : LevelProgress indices value Invariant level done before) :
    ∃ after, joinChildren (visit level) (knownValues indices value level) before parent =
        .ok after ∧
      LevelProgress indices value Invariant level (done ++ [parent]) after := by
  obtain ⟨next, state⟩ := before
  obtain ⟨joined, holds⟩ := progress
  obtain ⟨later, split⟩ := @visits_split depth indices level below
  rw [splitLevel, map_append, map_cons] at split
  obtain ⟨after, visited, holdsAfter⟩ := kept (visits indices level ++ done.map (level, ·))
    level parent (rest.map (level, ·) ++ later) (by rw [split]; simp) state holds
  refine ⟨(insertKey parent (value (level + 1) parent) next, after), ?_, ?_, ?_⟩
  · rw [joinChildren, lookup_knownValues, lookup_knownValues, visited]
    rfl
  · have sorted := increasing_knownAt increasing (level + 1)
    rw [splitLevel, pairwise_append] at sorted
    dsimp only at joined ⊢
    rw [insertKey_of_above, map_append, joined]
    · rfl
    · intro other mem
      rw [joined] at mem
      simp only [map_map, mem_map, Function.comp_apply, exists_eq_right] at mem
      exact sorted.2.2 other mem parent mem_cons_self
  · simpa using holdsAfter

theorem walkLevel_isOk (kept : VisitsKeep visit depth indices value Invariant)
    (below : level < depth) (holds : Invariant (visits indices level) state) :
    ∃ after, walkLevel (visit level) (knownValues indices value level) state =
        .ok (knownValues indices value (level + 1), after) ∧
      Invariant (visits indices (level + 1)) after := by
  have initial : LevelProgress indices value Invariant level [] ([], state) :=
    ⟨rfl, by simpa using holds⟩
  obtain ⟨⟨next, after⟩, joined, listed, holdsAfter⟩ := foldlM_prefix_isOk
    (fun done parent rest split before progress =>
      joinChildren_isOk increasing kept below split progress) initial
  have positions : (knownValues indices value level).map Prod.fst = knownAt indices level := by
    rw [knownValues, map_map]
    exact map_id _
  obtain ⟨processed, run⟩ := foldlM_walkStep_eq_ok joined
  refine ⟨after, ?_, ?_⟩
  · rw [walkLevel, bind_eq_ok]
    refine ⟨(next, processed, after), ?_, ?_⟩
    · rw [positions]
      exact run
    · rw [pure_eq_ok, Prod.mk.injEq]
      exact ⟨listed, rfl⟩
  · rw [visits_succ]
    exact holdsAfter

theorem walkLevels_isOk (kept : VisitsKeep visit depth indices value Invariant) {start : S}
    (initial : Invariant [] start) :
    ∃ final, walkLevels visit depth 0 (indices.map fun index => (index, value 0 index)) start =
        .ok (knownValues indices value depth, final) ∧
      Invariant (visits indices depth) final := by
  suffices general : ∀ levels level state, level + levels = depth →
      Invariant (visits indices level) state →
      ∃ final, walkLevels visit levels level (knownValues indices value level) state =
          .ok (knownValues indices value depth, final) ∧
        Invariant (visits indices depth) final from
    general depth 0 start (Nat.zero_add _) initial
  intro levels
  induction levels with
  | zero =>
    intro level state total holds
    obtain rfl : level = depth := by omega
    exact ⟨state, rfl, holds⟩
  | succ levels ih =>
    intro level state total holds
    obtain ⟨middle, stepped, holdsMiddle⟩ := walkLevel_isOk increasing kept (by omega) holds
    obtain ⟨final, finished, holdsFinal⟩ := ih (level + 1) middle (by omega) holdsMiddle
    exact ⟨final, bind_eq_ok.mpr ⟨_, stepped, finished⟩, holdsFinal⟩

end

end Rule

end Merkle
