import Mathlib.Algebra.Field.Basic
import Mathlib.Algebra.CharP.Two

/-!
# Constraint builders

A builder allocates wires and pins expressions to zero. The value it writes to a wire is only a
proposal, so a builder has two meanings: the results of the assignments its constraints accept, and
the result of the values it writes. Expressions are represented by their values.
-/

namespace Circuit

/-- A builder of constraints over the elements `K`. -/
inductive Builder (K α : Type) where
  | done (result : α)
  | alloc (native : K) (next : K → Builder K α)
  | allocBool (native : Bool) (next : K → Builder K α)
  | pin (expr : K) (next : Builder K α)

namespace Builder

variable {K α β : Type}

def andThen : Builder K α → (α → Builder K β) → Builder K β
  | .done result, after => after result
  | .alloc native next, after => .alloc native fun wire => (next wire).andThen after
  | .allocBool native next, after => .allocBool native fun wire => (next wire).andThen after
  | .pin expr next, after => .pin expr (next.andThen after)

instance : Monad (Builder K) where
  pure := .done
  bind := andThen

theorem andThen_done (builder : Builder K α) : builder.andThen .done = builder := by
  induction builder with
  | done result => rfl
  | alloc native next ih => exact congrArg (Builder.alloc native) (funext ih)
  | allocBool native next ih => exact congrArg (Builder.allocBool native) (funext ih)
  | pin expr next ih => exact congrArg (Builder.pin expr) ih

theorem andThen_assoc {γ : Type} (builder : Builder K α) (after : α → Builder K β)
    (last : β → Builder K γ) :
    (builder.andThen after).andThen last =
      builder.andThen fun result => (after result).andThen last := by
  induction builder with
  | done result => rfl
  | alloc native next ih => exact congrArg (Builder.alloc native) (funext ih)
  | allocBool native next ih => exact congrArg (Builder.allocBool native) (funext ih)
  | pin expr next ih => exact congrArg (Builder.pin expr) ih

instance : LawfulMonad (Builder K) := LawfulMonad.mk' _
  (fun builder => andThen_done builder) (fun _ _ => rfl) andThen_assoc

def wire (native : K) : Builder K K := .alloc native .done

/-- A wire that is its own square. -/
def bool (native : Bool) : Builder K K := .allocBool native .done

def pinZero (expr : K) : Builder K Unit := .pin expr (.done ())

/-- Pin two expressions to one value; subtraction is addition. -/
def pinEq [Add K] (lhs rhs : K) : Builder K Unit := pinZero (lhs + rhs)

section Meaning

variable [Field K]

/-- The result under some assignment that satisfies every constraint. -/
def Accepts : Builder K α → α → Prop
  | .done result, value => result = value
  | .alloc _ next, value => ∃ wire, (next wire).Accepts value
  | .allocBool _ next, value => ∃ wire, wire = wire * wire ∧ (next wire).Accepts value
  | .pin expr next, value => expr = 0 ∧ next.Accepts value

/-- The result under the values the builder writes, if they satisfy every constraint. -/
def written [DecidableEq K] : Builder K α → Option α
  | .done result => some result
  | .alloc native next => (next native).written
  | .allocBool native next => (next (if native then 1 else 0)).written
  | .pin expr next => if expr = 0 then next.written else none

variable {result : α}

theorem accepts_pure {value : α} :
    (pure result : Builder K α).Accepts value ↔ result = value := Iff.rfl

variable {builder : Builder K α}

theorem accepts_bind {after : α → Builder K β} {value : β} :
    (builder >>= after).Accepts value ↔
      ∃ result, builder.Accepts result ∧ (after result).Accepts value := by
  change (builder.andThen after).Accepts value ↔ _
  induction builder with
  | done result =>
    constructor
    · exact fun accepted => ⟨result, rfl, accepted⟩
    · rintro ⟨_, rfl, accepted⟩
      exact accepted
  | alloc native next ih =>
    simp only [andThen, Accepts, ih]
    exact ⟨fun ⟨wire, result, first, rest⟩ => ⟨result, ⟨wire, first⟩, rest⟩,
      fun ⟨result, ⟨wire, first⟩, rest⟩ => ⟨wire, result, first, rest⟩⟩
  | allocBool native next ih =>
    simp only [andThen, Accepts, ih]
    exact ⟨fun ⟨wire, square, result, first, rest⟩ => ⟨result, ⟨wire, square, first⟩, rest⟩,
      fun ⟨result, ⟨wire, square, first⟩, rest⟩ => ⟨wire, square, result, first, rest⟩⟩
  | pin expr next ih =>
    simp only [andThen, Accepts, ih]
    exact ⟨fun ⟨zero, result, first, rest⟩ => ⟨result, ⟨zero, first⟩, rest⟩,
      fun ⟨result, ⟨zero, first⟩, rest⟩ => ⟨zero, result, first, rest⟩⟩

theorem accepts_bool {native : Bool} {value : K} :
    (bool native).Accepts value ↔ value = 0 ∨ value = 1 := by
  constructor
  · rintro ⟨_, square, rfl⟩
    rename_i wire
    rcases eq_or_ne wire 0 with zero | nonzero
    · exact .inl zero
    · right
      exact mul_left_cancel₀ nonzero (by rw [mul_one]; exact square.symm)
  · rintro (rfl | rfl)
    · exact ⟨0, (mul_zero 0).symm, rfl⟩
    · exact ⟨1, (mul_one 1).symm, rfl⟩

variable {expr : K}

variable {value : Unit}

theorem accepts_pinZero :
    (pinZero expr).Accepts value ↔ expr = 0 := and_iff_left rfl

variable {lhs rhs : K}

theorem accepts_pinEq [CharP K 2] :
    (pinEq lhs rhs).Accepts value ↔ lhs = rhs :=
  accepts_pinZero.trans CharTwo.add_eq_zero

variable [DecidableEq K]

theorem written_bind (builder : Builder K α) (after : α → Builder K β) :
    (builder >>= after).written = builder.written.bind fun result => (after result).written := by
  change (builder.andThen after).written = _
  induction builder with
  | done result => rfl
  | alloc native next ih => exact ih native
  | allocBool native next ih => exact ih _
  | pin expr next ih =>
    simp only [andThen, written, ih]
    split <;> rfl

theorem written_wire (native : K) : (wire native).written = some native := rfl

theorem written_bool (native : Bool) :
    (bool native : Builder K K).written = some (if native then 1 else 0) := rfl

theorem written_pinZero (zero : expr = 0) : (pinZero expr).written = some () :=
  if_pos zero

theorem written_pinEq [CharP K 2] (same : lhs = rhs) :
    (pinEq lhs rhs).written = some () :=
  written_pinZero (CharTwo.add_eq_zero.mpr same)

/-- Written values that satisfy the constraints are an assignment. -/
theorem accepts_of_written (written : builder.written = some result) :
    builder.Accepts result := by
  induction builder with
  | done value => exact Option.some.inj written
  | alloc native next ih => exact ⟨native, ih native written⟩
  | allocBool native next ih =>
    refine ⟨_, ?_, ih _ written⟩
    cases native
    · exact (mul_zero 0).symm
    · exact (mul_one 1).symm
  | pin expr next ih =>
    rw [Builder.written] at written
    split_ifs at written with zero
    exact ⟨zero, ih written⟩

/-- The constraints hold exactly under a condition and force the result, and then the written values
satisfy them. -/
structure Enforces (builder : Builder K α) (condition : Prop) (value : α) : Prop where
  sound : ∀ {result}, builder.Accepts result → condition ∧ result = value
  complete : condition → builder.written = some value

namespace Enforces

variable {builder : Builder K α} {condition : Prop} {value : α}

theorem accepts_iff (enforces : builder.Enforces condition value) :
    builder.Accepts result ↔ condition ∧ result = value := by
  constructor
  · exact enforces.sound
  · rintro ⟨holds, rfl⟩
    exact accepts_of_written (enforces.complete holds)

theorem pure (value : α) : (pure value : Builder K α).Enforces True value where
  sound := fun accepted => ⟨trivial, (accepts_pure.mp accepted).symm⟩
  complete := fun _ => rfl

theorem pinZero (expr : K) : (pinZero expr).Enforces (expr = 0) () where
  sound := fun accepted => ⟨accepts_pinZero.mp accepted, rfl⟩
  complete := written_pinZero

theorem pinEq [CharP K 2] (lhs rhs : K) : (pinEq lhs rhs).Enforces (lhs = rhs) () where
  sound := fun accepted => ⟨accepts_pinEq.mp accepted, rfl⟩
  complete := written_pinEq

variable {after : α → Builder K β} {condition' : Prop} {value' : β}

/-- The condition of a sequence is the conjunction, and later steps may assume the earlier ones. -/
theorem bind (first : builder.Enforces condition value)
    (rest : condition → (after value).Enforces condition' value') :
    (builder >>= after).Enforces (condition ∧ condition') value' where
  sound := fun accepted => by
    obtain ⟨result, before, later⟩ := accepts_bind.mp accepted
    obtain ⟨holds, rfl⟩ := first.sound before
    obtain ⟨holds', same⟩ := (rest holds).sound later
    exact ⟨⟨holds, holds'⟩, same⟩
  complete := fun ⟨holds, holds'⟩ => by
    rw [written_bind, first.complete holds]
    exact (rest holds).complete holds'

theorem bind_true (first : builder.Enforces condition value)
    (rest : condition → (after value).Enforces True value') :
    (builder >>= after).Enforces condition value' := by
  obtain ⟨sound, complete⟩ := first.bind rest
  exact ⟨fun accepted => ⟨(sound accepted).1.1, (sound accepted).2⟩,
    fun holds => complete ⟨holds, trivial⟩⟩

theorem true_bind (first : builder.Enforces True value)
    (rest : (after value).Enforces condition' value') :
    (builder >>= after).Enforces condition' value' := by
  obtain ⟨sound, complete⟩ := first.bind fun _ => rest
  exact ⟨fun accepted => ⟨(sound accepted).1.2, (sound accepted).2⟩,
    fun holds => complete ⟨trivial, holds⟩⟩

variable {native : K}

/-- A free wire that the later constraints force to its written value. -/
theorem wire {after : K → Builder K α}
    (forced : ∀ {assigned result}, (after assigned).Accepts result → assigned = native)
    (rest : (after native).Enforces condition value) :
    (wire native >>= after).Enforces condition value where
  sound := fun accepted => by
    obtain ⟨assigned, -, later⟩ := accepts_bind.mp accepted
    obtain rfl := forced later
    exact rest.sound later
  complete := fun holds => by
    rw [written_bind, written_wire, Option.bind_some, rest.complete holds]

theorem map (first : builder.Enforces condition value) (read : α → β) :
    (builder >>= fun result => Pure.pure (read result)).Enforces condition (read value) where
  sound := fun accepted => by
    obtain ⟨result, before, last⟩ := accepts_bind.mp accepted
    obtain ⟨holds, rfl⟩ := first.sound before
    exact ⟨holds, (accepts_pure.mp last).symm⟩
  complete := fun holds => by
    rw [written_bind, first.complete holds]
    rfl

theorem congr (enforces : builder.Enforces condition value) {value' : α}
    (same : condition ↔ condition') (equal : condition' → value = value') :
    builder.Enforces condition' value' where
  sound := fun accepted => by
    obtain ⟨holds, rfl⟩ := enforces.sound accepted
    exact ⟨same.mp holds, equal (same.mp holds)⟩
  complete := fun holds => by
    rw [enforces.complete (same.mpr holds), equal holds]

theorem sure (enforces : builder.Enforces condition value) (holds : condition) :
    builder.Enforces True value :=
  enforces.congr (iff_true_intro holds) fun _ => rfl

/-- A free wire that is pinned to its written value at once. -/
theorem pinnedWire [CharP K 2] (same : native = expr) {after : K → Builder K α}
    (rest : (after expr).Enforces condition value) :
    (Builder.wire native >>= fun assigned =>
      Builder.pinEq assigned expr >>= fun _ => after assigned).Enforces condition value := by
  subst same
  apply Enforces.wire
  · intro assigned result accepted
    obtain ⟨⟨⟩, pinned, -⟩ := accepts_bind.mp accepted
    exact accepts_pinEq.mp pinned
  · exact ((Enforces.pinEq native native).sure rfl).true_bind rest

theorem mapM {xs : List α} {step : α → Builder K β} {condition : α → Prop} {value : α → β}
    (each : ∀ x ∈ xs, (step x).Enforces (condition x) (value x)) :
    (xs.mapM step).Enforces (∀ x ∈ xs, condition x) (xs.map value) := by
  induction xs with
  | nil => exact (Enforces.pure []).congr (by simp) fun _ => rfl
  | cons x xs ih =>
    rw [List.mapM_cons]
    have rest := ih fun later mem => each later (List.mem_cons_of_mem _ mem)
    apply ((each x List.mem_cons_self).bind fun _ => rest.map (value x :: ·)).congr _ fun _ => rfl
    simp

end Enforces

end Meaning

end Builder

end Circuit
