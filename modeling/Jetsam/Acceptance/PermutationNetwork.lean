import Jetsam.Acceptance.BenesRouting
import Jetsam.Circuit.Bits
import Jetsam.Field.Tower

/-!
# The permutation network in the circuit

A switch is one boolean wire that exchanges two rows. Whatever the wires, the rows leave the network
in some order, and the constraints do not depend on the settings that the router writes.
-/

namespace Circuit.Builder

variable {K α β : Type}

/-- A builder without the values it writes. -/
def constraints [Zero K] : Builder K α → Builder K α
  | .done result => .done result
  | .alloc _ next => .alloc 0 fun wire => (next wire).constraints
  | .allocBool _ next => .allocBool false fun wire => (next wire).constraints
  | .pin expr next => .pin expr next.constraints

theorem constraints_bind [Zero K] (builder : Builder K α) (after : α → Builder K β) :
    (builder >>= after).constraints =
      builder.constraints >>= fun result => (after result).constraints := by
  change (builder.andThen after).constraints = builder.constraints.andThen _
  induction builder with
  | done result => rfl
  | alloc native next ih => exact congrArg (Builder.alloc 0) (funext ih)
  | allocBool native next ih => exact congrArg (Builder.allocBool false) (funext ih)
  | pin expr next ih => exact congrArg (Builder.pin expr) ih

/-- Equal constraints of two builders that may be given up. -/
def SameConstraints [Zero K] (first second : OptionT (Builder K) α) : Prop :=
  first.run.constraints = second.run.constraints

theorem SameConstraints.bind [Zero K] {first second : OptionT (Builder K) α}
    {after after' : α → OptionT (Builder K) β} (same : SameConstraints first second)
    (later : ∀ value, SameConstraints (after value) (after' value)) :
    SameConstraints (first >>= after) (second >>= after') := by
  rw [SameConstraints, OptionT.run_bind, OptionT.run_bind, Option.elimM, Option.elimM,
    constraints_bind, constraints_bind, same]
  congr 1
  funext result
  cases result with
  | none => rfl
  | some value => exact later value

variable [Field K] [DecidableEq K]

/-- No check fails; the written values are accepted, and every accepted result is possible. -/
structure Yields (circuit : OptionT (Builder K) α) (native : α) (possible : α → Prop) : Prop where
  sound : ∀ {result}, circuit.run.Accepts result → ∃ value, result = some value ∧ possible value
  complete : circuit.run.written = some (some native)

namespace Yields

variable {circuit : OptionT (Builder K) α} {native value : α} {possible : α → Prop}

theorem pure (holds : possible value) :
    Yields (pure value : OptionT (Builder K) α) value possible where
  sound := fun accepted => ⟨value, (accepts_pure.mp accepted).symm, holds⟩
  complete := rfl

theorem check {condition : Prop} [Decidable condition] (holds : condition)
    (rest : Yields circuit native possible) :
    Yields (guard condition >>= fun _ => circuit) native possible := by
  rwa [guard, if_pos holds, pure_bind]

theorem bool (native : Bool) :
    Yields (OptionT.lift (Builder.bool native) : OptionT (Builder K) K) (flag native)
      fun value => ∃ bit, value = flag bit where
  sound := fun accepted => by
    obtain ⟨value, allocated, last⟩ := accepts_bind.mp accepted
    exact ⟨value, (accepts_pure.mp last).symm, exists_flag (accepts_bool.mp allocated)⟩
  complete := rfl

theorem bind {after : α → OptionT (Builder K) β} {possible' : β → Prop}
    (first : Yields circuit native possible) (next : α → β)
    (rest : ∀ value, possible value → Yields (after value) (next value) possible') :
    Yields (circuit >>= after) (next native) possible' where
  sound := fun accepted => by
    rw [OptionT.run_bind, Option.elimM] at accepted
    obtain ⟨result, before, later⟩ := accepts_bind.mp accepted
    obtain ⟨value, rfl, holds⟩ := first.sound before
    exact (rest value holds).sound later
  complete := by
    obtain ⟨_, same, holds⟩ := first.sound (accepts_of_written first.complete)
    cases same
    rw [OptionT.run_bind, Option.elimM, written_bind, first.complete]
    exact (rest native holds).complete

end Yields

end Circuit.Builder

namespace Jetsam

open List Circuit Builder

variable {K : Type} [Field K]

def conditionalSwitch (left right : List K) (nativeSwitch : Bool) :
    OptionT (Builder K) (List K × List K) := do
  guard (left.length = right.length)
  let switch ← OptionT.lift (bool nativeSwitch)
  return ((left.zip right).map fun (a, c) => (a + switch * (a + c), c + switch * (a + c))).unzip

def switchLayer (pairs : List (List K × List K)) (switches : List Bool) :
    OptionT (Builder K) (List (List K × List K)) :=
  (pairs.zip switches).mapM fun (pair, switch) => conditionalSwitch pair.1 pair.2 switch

def applyConfig : BenesConfig → List (List K) → OptionT (Builder K) (List (List K))
  | .leaf, rows => do
    guard (rows.length = 1)
    return rows
  | .switch bit, rows => do
    guard (rows.length = 2)
    return flattenPairs (← switchLayer (chunkPairs rows) [bit])
  | .node first upper lower last, rows => do
    guard (first.length = rows.length / 2)
    guard (last.length = rows.length / 2)
    let entered ← switchLayer (chunkPairs rows) first
    let upperRows ← applyConfig upper (entered.map Prod.fst)
    let lowerRows ← applyConfig lower (entered.map Prod.snd)
    return flattenPairs (← switchLayer (upperRows.zip lowerRows) last)

def routePermutationNetwork (rows : List (List K)) (permutation : List ℕ) :
    OptionT (Builder K) (List (List K)) := do
  guard (rows ≠ [])
  guard (2 ^ rows.length.log2 = rows.length)
  guard (rows.length = permutation.length)
  let width := (rows.headD []).length
  guard (0 < width)
  guard (∀ row ∈ rows, row.length = width)
  let config ← OptionT.mk (pure (routeConfig permutation))
  applyConfig config rows

theorem switchLayer_constraints {pairs : List (List K × List K)} {switches switches' : List Bool}
    (length : switches.length = switches'.length) :
    SameConstraints (switchLayer pairs switches) (switchLayer pairs switches') := by
  induction pairs generalizing switches switches' with
  | nil => rfl
  | cons pair pairs ih =>
    match switches, switches', length with
    | [], [], _ => rfl
    | switch :: switches, switch' :: switches', length =>
      rw [switchLayer, switchLayer, zip_cons_cons, zip_cons_cons, mapM_cons, mapM_cons]
      refine .bind ?_ fun _ => .bind (ih (Nat.succ.inj length)) fun _ => rfl
      exact .bind rfl fun _ => .bind rfl fun _ => rfl

theorem applyConfig_constraints {config config' : BenesConfig} {level : ℕ}
    (fits : config.Fits level) (fits' : config'.Fits level) (rows : List (List K)) :
    SameConstraints (applyConfig config rows) (applyConfig config' rows) := by
  induction config generalizing level config' rows with
  | leaf =>
    match level, config', fits, fits' with
    | 0, .leaf, _, _ => rfl
  | switch bit =>
    match level, config', fits, fits' with
    | 1, .switch bit', _, _ =>
      exact .bind rfl fun _ => .bind (switchLayer_constraints rfl) fun _ => rfl
  | node first upper lower last upperSame lowerSame =>
    match level, config', fits, fits' with
    | level + 2, .node first' upper' lower' last', fits, fits' =>
      obtain ⟨firstLength, upperFits, lowerFits, lastLength⟩ := fits
      obtain ⟨firstLength', upperFits', lowerFits', lastLength'⟩ := fits'
      rw [applyConfig, applyConfig, firstLength, firstLength', lastLength, lastLength']
      refine .bind rfl fun _ => .bind rfl fun _ => ?_
      refine .bind (switchLayer_constraints (firstLength.trans firstLength'.symm)) fun _ => ?_
      refine .bind (upperSame upperFits upperFits' _) fun _ => ?_
      refine .bind (lowerSame lowerFits lowerFits' _) fun _ => ?_
      exact .bind (switchLayer_constraints (lastLength.trans lastLength'.symm)) fun _ => rfl

section Sound

variable [CharP K 2] [DecidableEq K] {rows : List (List K)} {pairs : List (List K × List K)}
  {width : ℕ}

theorem conditionalSwitch_yields {left right : List K} (same : left.length = right.length)
    (native : Bool) :
    Yields (conditionalSwitch left right native)
      (if native then (left, right).swap else (left, right))
      fun result => ∃ bit : Bool, result = if bit then (left, right).swap else (left, right) := by
  have switched (bit : Bool) : ((left.zip right).map fun (a, c) =>
      (a + flag bit * (a + c), c + flag bit * (a + c))).unzip =
        if bit then (left, right).swap else (left, right) := by
    cases bit
    · simp [unzip_zip same]
    · have cross (a c : K) : (a + flag true * (a + c), c + flag true * (a + c)) = (c, a) := by
        rw [flag_true, one_mul, CharTwo.add_cancel_left, add_comm a c, CharTwo.add_cancel_left]
      simp only [cross]
      simp [unzip_eq_map, Function.comp_def, map_fst_zip same.le, map_snd_zip same.ge]
  rw [← switched native]
  apply Yields.check same
  refine (Yields.bool native).bind (fun switch => ((left.zip right).map fun (a, c) =>
      (a + switch * (a + c), c + switch * (a + c))).unzip) ?_
  rintro _ ⟨bit, rfl⟩
  exact .pure ⟨bit, switched bit⟩

theorem switchLayer_yields (uniform : ∀ row ∈ flattenPairs pairs, row.length = width)
    {switches : List Bool} (length : switches.length = pairs.length) :
    Yields (switchLayer pairs switches) (switchPairs switches pairs)
      (flattenPairs · ~ flattenPairs pairs) := by
  induction pairs generalizing switches with
  | nil => exact .pure (.refl _)
  | cons pair pairs ih =>
    obtain ⟨switch, switches, rfl⟩ := exists_cons_of_length_eq_add_one length
    obtain ⟨left, right, others⟩ : pair.1.length = width ∧ pair.2.length = width ∧
        ∀ row ∈ flattenPairs pairs, row.length = width := by
      change ∀ row ∈ pair.1 :: pair.2 :: flattenPairs pairs, row.length = width at uniform
      rwa [forall_mem_cons, forall_mem_cons] at uniform
    rw [switchLayer, zip_cons_cons, mapM_cons]
    refine (conditionalSwitch_yields (left.trans right.symm) switch).bind
      (· :: switchPairs switches pairs) ?_
    rintro _ ⟨bit, rfl⟩
    refine (ih others (Nat.succ.inj length)).bind (_ :: ·) fun result permuted => .pure ?_
    have rest := (permuted.cons pair.2).cons pair.1
    cases bit
    · exact rest
    · exact (Perm.swap _ _ _).trans rest

/-- Every assignment permutes the rows, and the written one as the settings say. -/
theorem applyConfig_yields {config : BenesConfig} {level : ℕ} (fits : config.Fits level)
    (length : rows.length = 2 ^ level) (uniform : ∀ row ∈ rows, row.length = width) :
    Yields (applyConfig config rows) (config.apply rows) (· ~ rows) := by
  induction config generalizing level rows with
  | leaf =>
    obtain rfl : level = 0 := by
      match level, fits with
      | 0, _ => rfl
    exact .check length (.pure (.refl _))
  | switch bit =>
    obtain rfl : level = 1 := by
      match level, fits with
      | 1, _ => rfl
    apply Yields.check length
    change rows.length = 2 * 1 at length
    have whole := flattenPairs_chunkPairs length
    have chunks : [bit].length = (chunkPairs rows).length := (length_chunkPairs length).symm
    refine (switchLayer_yields (whole ▸ uniform) chunks).bind
      flattenPairs fun entered permuted => .pure ?_
    rwa [whole] at permuted
  | node first upper lower last upperYields lowerYields =>
    obtain ⟨level, rfl⟩ : ∃ before, level = before + 2 := by
      match level, fits with
      | level + 2, _ => exact ⟨level, rfl⟩
    obtain ⟨firstLength, upperFits, lowerFits, lastLength⟩ := fits
    rw [pow_succ'] at length
    have whole := flattenPairs_chunkPairs length
    have half : rows.length / 2 = 2 ^ (level + 1) := by omega
    refine .check (firstLength.trans half.symm) (.check (lastLength.trans half.symm) ?_)
    refine (switchLayer_yields (whole ▸ uniform)
      (firstLength.trans (length_chunkPairs length).symm)).bind (fun entered => flattenPairs
        (switchPairs last ((upper.apply (entered.map Prod.fst)).zip
          (lower.apply (entered.map Prod.snd))))) fun entered entering => ?_
    rw [whole] at entering
    have halves := (flattenPairs_perm entered).symm.trans entering
    have size : entered.length = 2 ^ (level + 1) := by
      have := entering.length_eq
      rw [length_flattenPairs] at this
      omega
    have within (row : List K) (mem : row ∈ entered.map Prod.fst ++ entered.map Prod.snd) :
        row.length = width := uniform row (halves.mem_iff.mp mem)
    rw [forall_mem_append] at within
    refine (upperYields upperFits ((length_map _).trans size) within.1).bind
      (fun upperRows => flattenPairs (switchPairs last
        (upperRows.zip (lower.apply (entered.map Prod.snd))))) fun upperRows upperPerm => ?_
    refine (lowerYields lowerFits ((length_map _).trans size) within.2).bind
      (fun lowerRows => flattenPairs (switchPairs last (upperRows.zip lowerRows)))
      fun lowerRows lowerPerm => ?_
    have left := upperPerm.length_eq.trans ((length_map _).trans size)
    have right := lowerPerm.length_eq.trans ((length_map _).trans size)
    have joined := flattenPairs_perm (upperRows.zip lowerRows)
    rw [map_fst_zip (left.trans right.symm).le, map_snd_zip (right.trans left.symm).le] at joined
    have leaving := (joined.trans (upperPerm.append lowerPerm)).trans halves
    refine (switchLayer_yields (fun row mem => uniform row (leaving.mem_iff.mp mem)) ?_).bind
      flattenPairs fun output permuted => .pure (permuted.trans leaving)
    rw [lastLength, length_zip, left, right, min_self]

end Sound

end Jetsam
