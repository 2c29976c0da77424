import Mathlib.Data.List.GetD
import Jetsam.Algebra.Involutions
import Jetsam.Control.Checks

/-!
# Routing of a permutation network

Each input is an edge between its input pair and its output pair. Both edges of a pair must enter
different halves, so the router colors the edges alternately along their cycles, with a queue.
-/

namespace Jetsam

open List

inductive BenesConfig where
  | leaf
  | switch (switch : Bool)
  | node (first : List Bool) (upper lower : BenesConfig) (last : List Bool)

def otherEdge : ℕ × ℕ → ℕ → ℕ
  | (left, right), edge => if left = edge then right else left

def inputEdges (pair : ℕ) : ℕ × ℕ := (2 * pair, 2 * pair + 1)

/-- The inputs of an output pair. No output is repeated, so that each has one input. -/
def outputEdges (permutation : List ℕ) (pair : ℕ) : ℕ × ℕ :=
  (permutation.idxOf (2 * pair), permutation.idxOf (2 * pair + 1))

def inputOther (edge : ℕ) : ℕ := otherEdge (inputEdges (edge / 2)) edge

def outputOther (permutation : List ℕ) (edge : ℕ) : ℕ :=
  otherEdge (outputEdges permutation (permutation.getD edge 0 / 2)) edge

/-- Color an edge next to a colored one, or check that it has the other color. -/
def colorOther (color : Bool) (other : ℕ) (colors : List (Option Bool)) (queue : List ℕ) :
    Option (List (Option Bool) × List ℕ) :=
  match colors[other]? with
  | some (some existing) => if existing = color then none else some (colors, queue)
  | some none => some (colors.set other (some !color), queue ++ [other])
  | none => none

def drainQueue (permutation : List ℕ) :
    ℕ → List (Option Bool) → List ℕ → Option (List (Option Bool))
  | _, colors, [] => some colors
  | 0, _, _ :: _ => none
  | fuel + 1, colors, edge :: queue => do
    let color ← colors[edge]?.join
    let (colors, queue) ← colorOther color (inputOther edge) colors queue
    let (colors, queue) ← colorOther color (outputOther permutation edge) colors queue
    drainQueue permutation fuel colors queue

def colorFrom (permutation : List ℕ) (colors : List (Option Bool)) (start : ℕ) :
    Option (List (Option Bool)) :=
  if (colors.getD start none).isSome then some colors
  else drainQueue permutation permutation.length (colors.set start (some false)) [start]

def colorEdges (permutation : List ℕ) : Option (List Bool) := do
  let n := permutation.length
  let colors ← (List.range n).foldlM (colorFrom permutation) (List.replicate n none)
  colors.mapM id

/-- Targets of an input pair in both halves. Each slot is written by an edge of its own color. -/
def subTargets (permutation : List ℕ) (colors : List Bool) (pair : ℕ) : Option (ℕ × ℕ) :=
  let target (input : ℕ) := permutation.getD input 0 / 2
  match colors.getD (2 * pair) false, colors.getD (2 * pair + 1) false with
  | false, true => some (target (2 * pair), target (2 * pair + 1))
  | true, false => some (target (2 * pair + 1), target (2 * pair))
  | _, _ => none

def routeConfigFrom : ℕ → List ℕ → Option BenesConfig
  | 0, _ => none
  | fuel + 1, permutation => do
    let n := permutation.length
    guard (2 ^ n.log2 = n)
    guard (∀ output ∈ permutation, output < n)
    guard permutation.Nodup
    if n = 1 then return .leaf
    if n = 2 then return .switch (permutation.getD 0 0 == 1)
    let pairs := List.range (n / 2)
    let colors ← colorEdges permutation
    let first := pairs.map fun pair => colors.getD (2 * pair) false
    let last := pairs.map fun pair => colors.getD (permutation.idxOf (2 * pair)) false
    let targets ← pairs.mapM (subTargets permutation colors)
    let upper ← routeConfigFrom fuel (targets.map Prod.fst)
    let lower ← routeConfigFrom fuel (targets.map Prod.snd)
    return .node first upper lower last

/-- Settings that send each input to its output; every level halves the count. -/
def routeConfig (permutation : List ℕ) : Option BenesConfig :=
  routeConfigFrom permutation.length permutation

section Edges

variable {half : ℕ} {perm : List ℕ}

theorem eq_inputOther {edge other : ℕ} :
    other = inputOther edge ↔ other / 2 = edge / 2 ∧ other ≠ edge := by
  rw [inputOther, inputEdges, otherEdge]
  split <;> omega

theorem inputOther_inputOther (edge : ℕ) : inputOther (inputOther edge) = edge := by
  obtain ⟨pair, moved⟩ := eq_inputOther.mp (rfl : inputOther edge = _)
  exact (eq_inputOther.mpr ⟨pair.symm, moved.symm⟩).symm

theorem inputOther_lt {edge : ℕ} (inside : edge < 2 * half) : inputOther edge < 2 * half := by
  obtain ⟨pair, -⟩ := eq_inputOther.mp (rfl : inputOther edge = _)
  omega

variable (permutes : perm ~ range (2 * half))

include permutes

theorem source_target {input : ℕ} (inside : input < 2 * half) :
    perm.getD input 0 < 2 * half ∧ perm.idxOf (perm.getD input 0) = input := by
  have length := permutes.length_eq
  rw [length_range] at length
  rw [getD_eq_getElem _ _ (length ▸ inside)]
  refine ⟨mem_range.mp (permutes.mem_iff.mp (getElem_mem _)), ?_⟩
  exact (permutes.nodup_iff.mpr nodup_range).idxOf_getElem _ _

theorem target_source {output : ℕ} (inside : output < 2 * half) :
    perm.idxOf output < 2 * half ∧ perm.getD (perm.idxOf output) 0 = output := by
  have length := permutes.length_eq
  rw [length_range] at length
  have mem := permutes.mem_iff.mpr (mem_range.mpr inside)
  have found := idxOf_lt_length_of_mem mem
  rw [getD_eq_getElem _ _ found, getElem_idxOf]
  exact ⟨length ▸ found, rfl⟩

theorem outputOther_eq {edge : ℕ} (inside : edge < 2 * half) :
    outputOther perm edge = perm.idxOf (inputOther (perm.getD edge 0)) := by
  obtain ⟨bound, source⟩ := source_target permutes inside
  obtain ⟨-, low⟩ := target_source permutes
    (show 2 * (perm.getD edge 0 / 2) < 2 * half by omega)
  rw [outputOther, outputEdges, otherEdge, inputOther, inputEdges, otherEdge]
  have same : perm.idxOf (2 * (perm.getD edge 0 / 2)) = edge ↔
      2 * (perm.getD edge 0 / 2) = perm.getD edge 0 := by
    constructor
    · intro found
      rw [← low, found]
    · intro equal
      rw [equal, source]
  simp only [same]
  split <;> rfl

theorem target_outputOther {edge : ℕ} (inside : edge < 2 * half) :
    outputOther perm edge < 2 * half ∧
      perm.getD (outputOther perm edge) 0 =
        inputOther (perm.getD edge 0) := by
  rw [outputOther_eq permutes inside]
  exact target_source permutes (inputOther_lt (source_target permutes inside).1)

theorem outputOther_outputOther {edge : ℕ} (inside : edge < 2 * half) :
    outputOther perm (outputOther perm edge) = edge := by
  obtain ⟨bound, target⟩ := target_outputOther permutes inside
  rw [outputOther_eq permutes bound, target, inputOther_inputOther]
  exact (source_target permutes inside).2

/-- Colors that differ on the edges of every pair. -/
def Alternates (half : ℕ) (perm : List ℕ) (color : ℕ → Bool) : Prop :=
  ∀ edge < 2 * half, color (inputOther edge) = !color edge ∧
    color (outputOther perm edge) = !color edge

theorem exists_alternates : ∃ color, Alternates half perm color := by
  obtain ⟨color, alternates⟩ := @exists_alternating (Fin (2 * half))
    (fun edge => ⟨inputOther edge, inputOther_lt edge.isLt⟩)
    (fun edge => ⟨outputOther perm edge, (target_outputOther permutes edge.isLt).1⟩)
    (fun edge => Fin.ext (inputOther_inputOther edge))
    (fun edge => Fin.ext (outputOther_outputOther permutes edge.isLt))
    (fun edge same => (eq_inputOther.mp rfl).2 (Fin.ext_iff.mp same))
    (fun edge same => by
      have fixed : outputOther perm edge = edge := Fin.ext_iff.mp same
      have moved := (target_outputOther permutes edge.isLt).2
      rw [fixed] at moved
      exact (eq_inputOther.mp moved).2 rfl) _
  refine ⟨fun edge => if inside : edge < 2 * half then color ⟨edge, inside⟩ else false, ?_⟩
  intro edge inside
  simp only [inside, inputOther_lt inside, (target_outputOther permutes inside).1,
    dif_pos]
  exact alternates ⟨edge, inside⟩

end Edges

def Painted (colors : List (Option Bool)) (color : ℕ → Bool) (edge : ℕ) : Prop :=
  colors[edge]? = some (some (color edge))

/-- A partial coloring that extends to all edges; an edge with uncolored neighbors is queued. -/
structure Coloring (half : ℕ) (perm : List ℕ) (color : ℕ → Bool)
    (colors : List (Option Bool)) (queue : List ℕ) : Prop where
  alternates : Alternates half perm color
  length : colors.length = 2 * half
  agrees : ∀ edge < 2 * half, colors[edge]? = some none ∨ Painted colors color edge
  queued : ∀ edge ∈ queue, Painted colors color edge
  closed : ∀ edge, Painted colors color edge → edge ∈ queue ∨
    Painted colors color (inputOther edge) ∧ Painted colors color (outputOther perm edge)

namespace Coloring

variable {half : ℕ} {perm : List ℕ} {color : ℕ → Bool} {colors : List (Option Bool)}
  {queue : List ℕ} {edge other start : ℕ}

theorem paint (state : Coloring half perm color colors queue)
    (free : colors[other]? = some none) :
    let colors' := colors.set other (some (color other))
    Coloring half perm color colors' (queue ++ [other]) ∧
      (∀ edge, Painted colors color edge ∨ edge = other → Painted colors' color edge) ∧
      colors'.count none + 1 = colors.count none := by
  intro colors'
  obtain ⟨inside, none_at⟩ := List.getElem?_eq_some_iff.mp free
  have painted (edge : ℕ) :
      Painted colors' color edge ↔ Painted colors color edge ∨ edge = other := by
    rcases eq_or_ne edge other with rfl | differ
    · simp [colors', Painted, inside]
    · simp [colors', Painted, differ, differ.symm]
  refine ⟨⟨state.alternates, ?_, ?_, ?_, ?_⟩, fun edge => (painted edge).mpr, ?_⟩
  · rw [length_set, state.length]
  · intro edge small
    rcases eq_or_ne edge other with rfl | differ
    · exact .inr ((painted edge).mpr (.inr rfl))
    · rw [painted, getElem?_set_ne differ.symm]
      exact (state.agrees edge small).imp_right .inl
  · intro edge mem
    rw [painted]
    exact (mem_append.mp mem).imp (state.queued edge) mem_singleton.mp
  · intro edge colored
    simp only [painted, mem_append, mem_singleton]
    rcases (painted edge).mp colored with before | rfl
    · exact (state.closed edge before).imp .inl fun ⟨left, right⟩ => ⟨.inl left, .inl right⟩
    · exact .inl (.inr rfl)
  · have pos : 0 < colors.count none := count_pos_iff.mpr (none_at ▸ getElem_mem _)
    simp only [colors', count_set inside, none_at]
    simp
    omega

theorem colorOther (state : Coloring half perm color colors (edge :: queue))
    (inside : other < 2 * half) (differs : color other = !color edge) :
    ∃ colors' queue', colorOther (color edge) other colors queue = some (colors', queue') ∧
      Coloring half perm color colors' (edge :: queue') ∧
      (∀ edge, Painted colors color edge ∨ edge = other → Painted colors' color edge) ∧
      queue'.length + colors'.count none = queue.length + colors.count none := by
  rcases state.agrees other inside with free | painted
  · obtain ⟨next, grows, fewer⟩ := state.paint free
    refine ⟨_, queue ++ [other], ?_, next, grows, ?_⟩
    · rw [Jetsam.colorOther, free, ← differs]
    · rw [length_append, length_singleton, add_assoc, add_comm 1, fewer]
  · refine ⟨colors, queue, ?_, state, ?_, rfl⟩
    · rw [Jetsam.colorOther, painted]
      simp [differs]
    · rintro edge (before | rfl)
      · exact before
      · exact painted

section Run

variable (permutes : perm ~ range (2 * half))

include permutes

theorem drainQueue (state : Coloring half perm color colors queue) {fuel : ℕ}
    (enough : queue.length + colors.count none ≤ fuel) :
    ∃ colors', drainQueue perm fuel colors queue = some colors' ∧
      Coloring half perm color colors' [] ∧
      ∀ edge, Painted colors color edge → Painted colors' color edge := by
  induction fuel generalizing colors queue with
  | zero =>
    obtain rfl : queue = [] := length_eq_zero_iff.mp (by omega)
    exact ⟨colors, rfl, state, fun _ => id⟩
  | succ fuel ih =>
    cases queue with
    | nil => exact ⟨colors, rfl, state, fun _ => id⟩
    | cons edge queue =>
      have painted : colors[edge]? = some (some (color edge)) := state.queued edge mem_cons_self
      have inside : edge < 2 * half := by
        rw [← state.length]
        exact (List.getElem?_eq_some_iff.mp painted).1
      obtain ⟨input, output⟩ := state.alternates edge inside
      obtain ⟨first, queue₁, colored, state₁, grows₁, measure₁⟩ :=
        state.colorOther (inputOther_lt inside) input
      obtain ⟨second, queue₂, colored', state₂, grows₂, measure₂⟩ :=
        state₁.colorOther (target_outputOther permutes inside).1 output
      -- Both neighbors have a color now, so that the edge may leave the queue.
      have left : Coloring half perm color second queue₂ := by
        refine ⟨state₂.alternates, state₂.length, state₂.agrees, ?_, ?_⟩
        · exact fun later mem => state₂.queued later (mem_cons_of_mem _ mem)
        · intro later colored
          rcases state₂.closed later colored with mem | closed
          · rcases mem_cons.mp mem with rfl | mem
            · exact .inr ⟨grows₂ _ (.inl (grows₁ _ (.inr rfl))), grows₂ _ (.inr rfl)⟩
            · exact .inl mem
          · exact .inr closed
      obtain ⟨last, drained, final, grows₃⟩ := ih left (by rw [length_cons] at enough; omega)
      refine ⟨last, ?_, final, ?_⟩
      · simp only [Jetsam.drainQueue, painted, Option.join_some, colored, colored',
          Option.bind_eq_bind, Option.bind_some, drained]
      · exact fun later colored => grows₃ _ (grows₂ _ (.inl (grows₁ _ (.inl colored))))

/-- With an empty queue the uncolored edges may change their colors together. -/
theorem recolor (state : Coloring half perm color colors [])
    (free : colors[start]? = some none) :
    ∃ color', Coloring half perm color' colors [] ∧ color' start = false ∧
      ∀ edge, Painted colors color' edge ↔ Painted colors color edge := by
  let color' (edge : ℕ) : Bool := color edge ^^ (color start && colors[edge]? == some none)
  have painted (edge : ℕ) : Painted colors color' edge ↔ Painted colors color edge := by
    simp only [Painted, color']
    rcases colors[edge]? with _ | _ | _ <;> simp
  have closed (edge : ℕ) (colored : Painted colors color edge) :
      Painted colors color (inputOther edge) ∧ Painted colors color (outputOther perm edge) :=
    (state.closed edge colored).resolve_left not_mem_nil
  have uncolored {edge : ℕ} (inside : edge < 2 * half) :
      (colors[edge]? == some none) = true ↔ ¬ Painted colors color edge := by
    rcases state.agrees edge inside with free | colored
    · simp [Painted, free]
    · rw [Painted] at colored
      simp [Painted, colored]
  have together {edge other : ℕ} (inside : edge < 2 * half) (inside' : other < 2 * half)
      (same : Painted colors color other ↔ Painted colors color edge) :
      (colors[other]? == some none) = (colors[edge]? == some none) := by
    rw [Bool.eq_iff_iff, uncolored inside, uncolored inside', same]
  refine ⟨color', ⟨fun edge inside => ⟨?_, ?_⟩, state.length, ?_, ?_, ?_⟩, ?_, painted⟩
  · have same := together inside (inputOther_lt inside)
      ⟨fun colored => inputOther_inputOther edge ▸ (closed _ colored).1,
        fun colored => (closed _ colored).1⟩
    simp only [color', same, (state.alternates edge inside).1, Bool.not_xor]
  · have same := together inside (target_outputOther permutes inside).1
      ⟨fun colored => outputOther_outputOther permutes inside ▸ (closed _ colored).2,
        fun colored => (closed _ colored).2⟩
    simp only [color', same, (state.alternates edge inside).2, Bool.not_xor]
  · simpa only [painted] using state.agrees
  · simp
  · simpa only [painted] using state.closed
  · simp [color', free]

theorem colorFrom (state : Coloring half perm color colors []) (inside : start < 2 * half) :
    ∃ color' colors', colorFrom perm colors start = some colors' ∧
      Coloring half perm color' colors' [] ∧
      ∀ edge, Painted colors color edge ∨ edge = start → Painted colors' color' edge := by
  have length : perm.length = 2 * half := permutes.length_eq.trans length_range
  rcases state.agrees start inside with free | painted
  · obtain ⟨color', state', starts, painted⟩ := state.recolor permutes free
    obtain ⟨next, grows, fewer⟩ := state'.paint free
    have enough : 1 + (colors.set start (some (color' start))).count none ≤ 2 * half := by
      rw [add_comm, fewer, ← state.length]
      exact count_le_length
    obtain ⟨last, drained, final, grows'⟩ := next.drainQueue permutes enough
    refine ⟨color', last, ?_, final, ?_⟩
    · rw [Jetsam.colorFrom, getD_eq_getElem?_getD, free, length, ← starts]
      exact drained
    · exact fun edge colored => grows' _ (grows _ (colored.imp_left (painted edge).mpr))
  · refine ⟨color, colors, ?_, state, ?_⟩
    · rw [Jetsam.colorFrom, getD_eq_getElem?_getD, painted]
      rfl
    · rintro edge (colored | rfl)
      · exact colored
      · exact painted

theorem foldlM_colorFrom (count : ℕ) (most : count ≤ 2 * half) :
    ∃ color colors,
      (range count).foldlM (Jetsam.colorFrom perm) (replicate (2 * half) none) = some colors ∧
      Coloring half perm color colors [] ∧ ∀ edge < count, Painted colors color edge := by
  induction count with
  | zero =>
    obtain ⟨color, alternates⟩ := exists_alternates permutes
    refine ⟨color, _, rfl, ⟨alternates, length_replicate, ?_, ?_, ?_⟩, ?_⟩
    · exact fun edge inside => .inl (by simp [inside])
    · simp
    · intro edge painted
      simp [Painted, getElem?_replicate] at painted
    · simp
  | succ start ih =>
    obtain ⟨color, colors, run, state, before⟩ := ih (Nat.le_of_succ_le most)
    obtain ⟨color', colors', colored, state', grows⟩ := state.colorFrom permutes most
    refine ⟨color', colors', ?_, state', ?_⟩
    · simp [range_succ, foldlM_append, run, colored]
    · intro edge inside
      exact grows edge ((Nat.lt_succ_iff_lt_or_eq.mp inside).imp_left (before edge))

theorem colorEdges : ∃ color, Alternates half perm color ∧
    colorEdges perm = some ((range (2 * half)).map color) := by
  have length : perm.length = 2 * half := permutes.length_eq.trans length_range
  obtain ⟨color, colors, run, state, painted⟩ := foldlM_colorFrom permutes _ le_rfl
  have whole : colors = (range (2 * half)).map fun edge => some (color edge) := by
    apply ext_getElem?
    intro edge
    rcases lt_or_ge edge (2 * half) with inside | outside
    · rw [painted edge inside]
      simp [inside]
    · rw [getElem?_eq_none (state.length ▸ outside)]
      simp [outside]
  refine ⟨color, state.alternates, ?_⟩
  rw [Jetsam.colorEdges, length, run, whole, Option.bind_eq_bind, Option.bind_some, mapM_map]
  exact Control.mapM_eq_some_map fun _ _ => rfl

end Run

end Coloring

section Pairs

variable {α : Type}

def chunkPairs : List α → List (α × α)
  | left :: right :: rows => (left, right) :: chunkPairs rows
  | _ => []

def flattenPairs (pairs : List (α × α)) : List α := pairs.flatMap fun pair => [pair.1, pair.2]

def lane (odd : Bool) (pair : α × α) : α := if odd then pair.2 else pair.1

def switchPairs (switches : List Bool) (pairs : List (α × α)) : List (α × α) :=
  zipWith (fun pair switch => if switch then pair.swap else pair) pairs switches

variable {rows : List α} {pairs : List (α × α)} {switches : List Bool} {half : ℕ}

theorem length_flattenPairs (pairs : List (α × α)) :
    (flattenPairs pairs).length = 2 * pairs.length := by
  simp [flattenPairs, mul_comm]

theorem flattenPairs_chunkPairs (length : rows.length = 2 * half) :
    flattenPairs (chunkPairs rows) = rows := by
  induction rows using chunkPairs.induct generalizing half with
  | case1 left right rows ih =>
    have rest : rows.length = 2 * (half - 1) := by
      rw [length_cons, length_cons] at length
      omega
    exact congrArg (left :: right :: ·) (ih rest)
  | case2 rows short =>
    match rows with
    | [] => rfl
    | [_] => rw [length_singleton] at length; omega
    | left :: right :: rest => exact absurd rfl (short left right rest)

theorem length_chunkPairs (length : rows.length = 2 * half) : (chunkPairs rows).length = half := by
  have whole := length_flattenPairs (chunkPairs rows)
  rw [flattenPairs_chunkPairs length] at whole
  omega

theorem getElem?_flattenPairs (i : ℕ) :
    (flattenPairs pairs)[i]? = pairs[i / 2]?.map (lane (i % 2 == 1)) := by
  induction pairs generalizing i with
  | nil => rfl
  | cons pair pairs ih =>
    match i with
    | 0 => rfl
    | 1 => rfl
    | i + 2 =>
      have next := ih i
      simpa [flattenPairs] using next

theorem getElem?_switchPairs {place : ℕ} {switch : Bool} (set : switches[place]? = some switch)
    (odd : Bool) : (switchPairs switches pairs)[place]?.map (lane odd) =
      pairs[place]?.map (lane (odd ^^ switch)) := by
  rw [switchPairs, getElem?_zipWith, set]
  cases pairs[place]? <;> cases odd <;> cases switch <;> rfl

theorem getElem?_zip_lane {left right : List α} (length : left.length = right.length) (odd : Bool)
    (place : ℕ) : (left.zip right)[place]?.map (lane odd) = (lane odd (left, right))[place]? := by
  rw [← getElem?_map]
  cases odd
  · exact congrArg (·[place]?) (map_fst_zip length.le)
  · exact congrArg (·[place]?) (map_snd_zip length.ge)

theorem flattenPairs_perm (pairs : List (α × α)) :
    flattenPairs pairs ~ pairs.map Prod.fst ++ pairs.map Prod.snd := by
  induction pairs with
  | nil => rfl
  | cons pair pairs ih =>
    change pair.1 :: pair.2 :: flattenPairs pairs ~
      pair.1 :: (pairs.map Prod.fst ++ pair.2 :: pairs.map Prod.snd)
    exact ((ih.cons _).trans perm_middle.symm).cons _

theorem length_switchPairs (length : switches.length = pairs.length) :
    (switchPairs switches pairs).length = pairs.length := by
  rw [switchPairs, length_zipWith, length, min_self]

end Pairs

namespace BenesConfig

variable {α : Type}

def apply : BenesConfig → List α → List α
  | .leaf, rows => rows
  | .switch bit, rows => flattenPairs (switchPairs [bit] (chunkPairs rows))
  | .node first upper lower last, rows =>
    let entered := switchPairs first (chunkPairs rows)
    flattenPairs (switchPairs last
      ((upper.apply (entered.map Prod.fst)).zip (lower.apply (entered.map Prod.snd))))

def Fits : BenesConfig → ℕ → Prop
  | .leaf, 0 => True
  | .switch _, 1 => True
  | .node first upper lower last, level + 2 =>
    first.length = 2 ^ (level + 1) ∧ upper.Fits (level + 1) ∧ lower.Fits (level + 1) ∧
      last.length = 2 ^ (level + 1)
  | _, _ => False

theorem length_apply {config : BenesConfig} {level : ℕ} {rows : List α} (fits : config.Fits level)
    (length : rows.length = 2 ^ level) : (config.apply rows).length = 2 ^ level := by
  induction config generalizing level rows with
  | leaf => exact length
  | switch bit =>
    obtain rfl : level = 1 := by
      match level, fits with
      | 1, _ => rfl
    have chunks : [bit].length = (chunkPairs rows).length := (length_chunkPairs length).symm
    rw [apply, length_flattenPairs, length_switchPairs chunks, ← chunks]
    rfl
  | node first upper lower last upperLength lowerLength =>
    obtain ⟨level, rfl⟩ : ∃ before, level = before + 2 := by
      match level, fits with
      | level + 2, _ => exact ⟨level, rfl⟩
    obtain ⟨firstLength, upperFits, lowerFits, lastLength⟩ := fits
    rw [pow_succ'] at length ⊢
    have chunks := length_chunkPairs length
    have entered := length_switchPairs (firstLength.trans chunks.symm)
    have left := upperLength upperFits ((length_map Prod.fst).trans (entered.trans chunks))
    have right := lowerLength lowerFits ((length_map Prod.snd).trans (entered.trans chunks))
    have joined := (length_zip.trans (congrArg₂ min left right)).trans (min_self _)
    rw [apply, length_flattenPairs, length_switchPairs (lastLength.trans joined.symm), joined]

end BenesConfig

section Routing

variable {α : Type} {half level : ℕ} {perm : List ℕ} {color : ℕ → Bool}

def sideInput (color : ℕ → Bool) (side : Bool) (pair : ℕ) : ℕ :=
  if color (2 * pair) = side then 2 * pair else 2 * pair + 1

def sidePermutation (perm : List ℕ) (color : ℕ → Bool) (half : ℕ) (side : Bool) : List ℕ :=
  (range half).map fun pair => perm.getD (sideInput color side pair) 0 / 2

section Alternating

variable (alternates : Alternates half perm color)

include alternates

theorem color_odd {pair : ℕ} (inside : pair < half) :
    color (2 * pair + 1) = !color (2 * pair) := by
  have odd : 2 * pair + 1 = inputOther (2 * pair) := eq_inputOther.mpr (by omega)
  rw [odd]
  exact (alternates _ (by omega)).1

theorem color_input {input : ℕ} (inside : input < 2 * half) :
    color input = (color (2 * (input / 2)) ^^ (input % 2 == 1)) := by
  rcases Nat.mod_two_eq_zero_or_one input with even | odd
  · rw [even, show 2 * (input / 2) = input by omega]
    simp
  · have split : input = 2 * (input / 2) + 1 := by omega
    rw [odd]
    conv_lhs => rw [split, color_odd alternates (by omega)]
    simp

theorem color_sideInput {pair : ℕ} (inside : pair < half) (side : Bool) :
    sideInput color side pair / 2 = pair ∧ color (sideInput color side pair) = side := by
  rw [sideInput]
  split_ifs with even
  · exact ⟨by omega, even⟩
  · refine ⟨by omega, ?_⟩
    rw [color_odd alternates inside]
    cases side <;> simpa using even

theorem sideInput_color {input : ℕ} (inside : input < 2 * half) :
    sideInput color (color input) (input / 2) = input := by
  have paired := color_input alternates inside
  rw [sideInput, paired]
  rcases Nat.mod_two_eq_zero_or_one input with even | odd
  · simp [even]
    omega
  · simp [odd]
    omega

theorem subTargets_eq {pair : ℕ} (inside : pair < half) :
    subTargets perm ((range (2 * half)).map color) pair =
      some (perm.getD (sideInput color false pair) 0 / 2,
        perm.getD (sideInput color true pair) 0 / 2) := by
  have even : ((range (2 * half)).map color).getD (2 * pair) false = color (2 * pair) := by
    simp [inside]
  have odd : ((range (2 * half)).map color).getD (2 * pair + 1) false = !color (2 * pair) := by
    rw [← color_odd alternates inside]
    simp [show 2 * pair + 1 < 2 * half by omega]
  rw [subTargets, even, odd]
  cases bit : color (2 * pair) <;> simp [sideInput, bit]

variable (permutes : perm ~ range (2 * half))

include permutes

theorem color_output {input : ℕ} (inside : input < 2 * half) :
    color input =
      (color (perm.idxOf (2 * (perm.getD input 0 / 2))) ^^ (perm.getD input 0 % 2 == 1)) := by
  obtain ⟨bound, source⟩ := source_target permutes inside
  rcases Nat.mod_two_eq_zero_or_one (perm.getD input 0) with even | odd
  · rw [even, show 2 * (perm.getD input 0 / 2) = perm.getD input 0 by omega, source]
    simp
  · have other : 2 * (perm.getD input 0 / 2) = inputOther (perm.getD input 0) :=
      eq_inputOther.mpr (by omega)
    rw [odd, other, ← outputOther_eq permutes inside, (alternates input inside).2]
    simp

theorem sidePermutation_perm (side : Bool) :
    sidePermutation perm color half side ~ range half := by
  have inside {pair : ℕ} (small : pair < half) : sideInput color side pair < 2 * half := by
    obtain ⟨place, -⟩ := color_sideInput alternates small side
    omega
  have nodup : (sidePermutation perm color half side).Nodup := by
    refine Nodup.map_on (fun first small second small' same => ?_) nodup_range
    rw [mem_range] at small small'
    obtain ⟨place, here⟩ := color_sideInput alternates small side
    obtain ⟨place', there⟩ := color_sideInput alternates small' side
    obtain ⟨-, source⟩ := source_target permutes (inside small)
    obtain ⟨-, source'⟩ := source_target permutes (inside small')
    rcases eq_or_ne (perm.getD (sideInput color side second) 0)
      (perm.getD (sideInput color side first) 0) with equal | differ
    · rw [← place, ← place', ← source, ← source', equal]
    · have other := outputOther_eq permutes (inside small)
      rw [← eq_inputOther.mpr ⟨same.symm, differ⟩, source'] at other
      have opposite := (alternates _ (inside small)).2
      rw [other, here, there] at opposite
      simp at opposite
  refine (subperm_of_subset nodup fun target mem => ?_).perm_of_length_le
    (by simp [sidePermutation])
  obtain ⟨pair, small, rfl⟩ := mem_map.mp mem
  have bound := (source_target permutes (inside (mem_range.mp small))).1
  rw [mem_range]
  omega

theorem apply_node_routes {upper lower : BenesConfig} (fits : upper.Fits level)
    (fits' : lower.Fits level) (size : half = 2 ^ level)
    (routes : ∀ (side : Bool) (rows : List α), rows.length = half → ∀ pair < half,
      ((lane side (upper, lower)).apply rows)[(sidePermutation perm color half side).getD
        pair 0]? = rows[pair]?)
    {rows : List α} (length : rows.length = 2 * half) {input : ℕ} (inside : input < 2 * half) :
    ((BenesConfig.node ((range half).map fun pair => color (2 * pair)) upper lower
      ((range half).map fun pair => color (perm.idxOf (2 * pair)))).apply rows)[
        perm.getD input 0]? = rows[input]? := by
  have bound : perm.getD input 0 / 2 < half := by
    have := (source_target permutes inside).1
    omega
  have chunks := length_chunkPairs length
  have small : input / 2 < half := by omega
  have read {value : ℕ → Bool} {pair : ℕ} (small : pair < half) :
      ((range half).map value)[pair]? = some (value pair) := by
    rw [getElem?_map, getElem?_range small, Option.map_some]
  rw [BenesConfig.apply]
  obtain ⟨entered, entered_eq⟩ : ∃ entered, entered =
      switchPairs ((range half).map fun pair => color (2 * pair)) (chunkPairs rows) :=
    ⟨_, rfl⟩
  rw [← entered_eq]
  have width : entered.length = half := by
    rw [entered_eq, length_switchPairs (by rw [length_map, length_range, chunks]), chunks]
  -- A row enters the half of its color.
  have enters : (entered.map (lane (color input)))[input / 2]? = rows[input]? := by
    have parity : (color input ^^ color (2 * (input / 2))) = (input % 2 == 1) := by
      rw [color_input alternates inside, Bool.xor_comm, ← Bool.xor_assoc, Bool.xor_self,
        Bool.false_xor]
    rw [getElem?_map, entered_eq, getElem?_switchPairs (read small), parity,
      ← getElem?_flattenPairs, flattenPairs_chunkPairs length]
  have routed := routes (color input) _ ((length_map (lane (color input))).trans width) _ small
  have target : (sidePermutation perm color half (color input)).getD (input / 2) 0 =
      perm.getD input 0 / 2 := by
    rw [getD_eq_getElem?_getD, sidePermutation, getElem?_map, getElem?_range small,
      Option.map_some, Option.getD_some, sideInput_color alternates inside]
  rw [target, enters] at routed
  -- The last switch of its output pair sends it to the right output of the two.
  have left := BenesConfig.length_apply fits ((length_map Prod.fst).trans (width.trans size))
  have right := BenesConfig.length_apply fits' ((length_map Prod.snd).trans (width.trans size))
  rw [← routed, getElem?_flattenPairs, getElem?_switchPairs (read bound),
    getElem?_zip_lane (left.trans right.symm), Bool.xor_comm,
    ← color_output alternates permutes inside]
  generalize color input = side
  cases side <;> rfl

theorem routeConfigFrom_node {fuel : ℕ} {upper lower : BenesConfig} (large : 2 ≤ half)
    (power : 2 ^ (2 * half).log2 = 2 * half)
    (colored : colorEdges perm = some ((range (2 * half)).map color))
    (upperFound : routeConfigFrom fuel (sidePermutation perm color half false) = some upper)
    (lowerFound : routeConfigFrom fuel (sidePermutation perm color half true) = some lower) :
    routeConfigFrom (fuel + 1) perm =
      some (.node ((range half).map fun pair => color (2 * pair)) upper lower
        ((range half).map fun pair => color (perm.idxOf (2 * pair)))) := by
  have length : perm.length = 2 * half := permutes.length_eq.trans length_range
  have bounded : ∀ output ∈ perm, output < 2 * half := fun output mem =>
    mem_range.mp (permutes.mem_iff.mp mem)
  have nodup : perm.Nodup := permutes.nodup_iff.mpr nodup_range
  have targets := Control.mapM_eq_some_map fun pair (inside : pair ∈ range half) =>
    subTargets_eq alternates (mem_range.mp inside)
  have read {edge : ℕ} (inside : edge < 2 * half) :
      ((range (2 * half)).map color).getD edge false = color edge := by
    simp [inside]
  rw [routeConfigFrom]
  simp only [length, power, guard, if_pos nodup, if_pos bounded, if_true, Option.pure_def,
    Option.bind_eq_bind, Option.bind_some, colored, Nat.mul_div_cancel_left _ two_pos, targets,
    map_map]
  rw [if_neg (by omega), if_neg (by omega)]
  change (routeConfigFrom fuel (sidePermutation perm color half false)).bind _ = _
  rw [upperFound, Option.bind_some]
  change (routeConfigFrom fuel (sidePermutation perm color half true)).bind _ = _
  rw [lowerFound, Option.bind_some]
  congr 2
  · refine map_congr_left fun pair inside => read ?_
    have := mem_range.mp inside
    omega
  · refine map_congr_left fun pair inside => read (target_source permutes ?_).1
    have := mem_range.mp inside
    omega

end Alternating

/-- The router never fails, and its settings send every input to its output. -/
theorem routeConfigFrom_routes {fuel : ℕ} (permutes : perm ~ range (2 ^ level))
    (enough : level < fuel) :
    ∃ config, routeConfigFrom fuel perm = some config ∧ config.Fits level ∧
      ∀ rows : List α, rows.length = 2 ^ level → ∀ input < 2 ^ level,
        (config.apply rows)[perm.getD input 0]? = rows[input]? := by
  induction level using Nat.twoStepInduction generalizing fuel perm with
  | zero =>
    obtain ⟨fuel, rfl⟩ := Nat.exists_eq_add_of_lt enough
    obtain rfl : perm = [0] := perm_singleton.mp permutes
    refine ⟨.leaf, rfl, trivial, fun rows _ input inside => ?_⟩
    obtain rfl : input = 0 := by omega
    rfl
  | one =>
    obtain ⟨fuel, rfl⟩ := Nat.exists_eq_add_of_lt enough
    have listed : perm ∈ [[0, 1], [1, 0]] := mem_permutations'.mpr permutes
    obtain rfl | rfl : perm = [0, 1] ∨ perm = [1, 0] := by simpa using listed
    all_goals
      refine ⟨_, rfl, trivial, fun rows length input inside => ?_⟩
      obtain ⟨left, right, rfl⟩ := length_eq_two.mp length
      obtain rfl | rfl : input = 0 ∨ input = 1 := by omega
      all_goals rfl
  | more level _ ih =>
    obtain ⟨fuel, rfl⟩ : ∃ before, fuel = before + 1 := ⟨fuel - 1, by omega⟩
    have size : 2 ^ (level + 2) = 2 * 2 ^ (level + 1) := pow_succ' 2 (level + 1)
    have large : 2 ≤ 2 ^ (level + 1) := Nat.le_self_pow (Nat.succ_ne_zero level) 2
    rw [size] at permutes ⊢
    obtain ⟨color, alternates, colored⟩ := Coloring.colorEdges permutes
    obtain ⟨upper, upperFound, upperFits, upperRoutes⟩ :=
      ih (sidePermutation_perm alternates permutes false) (show level + 1 < fuel by omega)
    obtain ⟨lower, lowerFound, lowerFits, lowerRoutes⟩ :=
      ih (sidePermutation_perm alternates permutes true) (show level + 1 < fuel by omega)
    refine ⟨.node ((range (2 ^ (level + 1))).map fun pair => color (2 * pair)) upper lower
      ((range (2 ^ (level + 1))).map fun pair => color (perm.idxOf (2 * pair))), ?_,
      ⟨by simp, upperFits, lowerFits, by simp⟩, ?_⟩
    · apply routeConfigFrom_node alternates permutes large _ colored upperFound lowerFound
      rw [← size, Nat.log2_two_pow]
    · intro rows length input inside
      refine apply_node_routes alternates permutes upperFits lowerFits rfl ?_ length inside
      rintro (_ | _)
      · exact upperRoutes
      · exact lowerRoutes

end Routing

end Jetsam
