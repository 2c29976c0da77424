import Jetsam.Control.Checks

/-!
# Calls that mutate their receiver

A call maps its receiver to an outcome and to the receiver it leaves behind. An atomic call leaves
its receiver alone whenever it returns an error; a panic is not a returned error.
-/

namespace Control

inductive Stop (ε : Type) where
  | error (error : ε)
  | panic

/-- A call on a receiver: what it returns, and the receiver afterwards. -/
def InPlace (σ ε α : Type) : Type := σ → Except (Stop ε) α × σ

namespace InPlace

variable {σ ε ε' α β : Type}

instance : Monad (InPlace σ ε) where
  pure value := fun receiver => (.ok value, receiver)
  bind first next := fun receiver =>
    match first receiver with
    | (.ok value, middle) => next value middle
    | (.error stop, middle) => (.error stop, middle)

def get : InPlace σ ε σ := fun receiver => (.ok receiver, receiver)

def update (change : σ → σ) : InPlace σ ε Unit := fun receiver => (.ok (), change receiver)

/-- A computation that does not touch the receiver. -/
def lift : Except ε α → InPlace σ ε α
  | .ok value => fun receiver => (.ok value, receiver)
  | .error error => fun receiver => (.error (.error error), receiver)

/-- Panic unless the receiver meets the condition. -/
def assert (condition : σ → Bool) : InPlace σ ε Unit := fun receiver =>
  (if condition receiver then .ok () else .error .panic, receiver)

def mapErr (convert : ε → ε') (call : InPlace σ ε α) : InPlace σ ε' α := fun receiver =>
  match call receiver with
  | (.ok value, after) => (.ok value, after)
  | (.error (.error error), after) => (.error (.error (convert error)), after)
  | (.error .panic, after) => (.error .panic, after)

/-- Panic where the call returns an error. -/
def expect (call : InPlace σ ε α) : InPlace σ ε' α := fun receiver =>
  match call receiver with
  | (.ok value, after) => (.ok value, after)
  | (.error _, after) => (.error .panic, after)

/-- Work on a copy, which replaces the receiver only when the call returns. -/
def onClone (call : InPlace σ ε α) : InPlace σ ε α := fun receiver =>
  match call receiver with
  | (.ok value, snapshot) => (.ok value, snapshot)
  | (.error stop, _) => (.error stop, receiver)

def zoom {τ : Type} (part : σ → τ) (replace : τ → σ → σ) (call : InPlace τ ε α) : InPlace σ ε α :=
  fun receiver =>
    match call (part receiver) with
    | (outcome, left) => (outcome, replace left receiver)

def each (call : α → InPlace σ ε Unit) : List α → InPlace σ ε Unit
  | [] => pure ()
  | item :: items => do
    call item
    each call items

def times (call : InPlace σ ε Unit) : Nat → InPlace σ ε Unit
  | 0 => pure ()
  | count + 1 => do
    call
    times call count

variable {value : α} {after : σ}

@[simp]
theorem pure_returns {result : α} {receiver : σ} :
    (pure value : InPlace σ ε α) receiver = (.ok result, after) ↔
      value = result ∧ receiver = after := by
  simp [pure]

@[simp]
theorem bind_returns {first : InPlace σ ε α} {next : α → InPlace σ ε β} {result : β}
    {receiver : σ} :
    (first >>= next) receiver = (.ok result, after) ↔
      ∃ value middle, first receiver = (.ok value, middle) ∧
        next value middle = (.ok result, after) := by
  change (match first receiver with
    | (.ok value, middle) => next value middle
    | (.error stop, middle) => (.error stop, middle)) = _ ↔ _
  rcases first receiver with ⟨_ | _, _⟩ <;> simp

@[simp]
theorem get_returns {value receiver : σ} :
    (get : InPlace σ ε σ) receiver = (.ok value, after) ↔ receiver = value ∧ receiver = after := by
  simp [get]

@[simp]
theorem update_returns {change : σ → σ} {done : Unit} {receiver : σ} :
    (update change : InPlace σ ε Unit) receiver = (.ok done, after) ↔ change receiver = after := by
  simp [update]

@[simp]
theorem lift_returns {outcome : Except ε α} {receiver : σ} :
    (lift outcome : InPlace σ ε α) receiver = (.ok value, after) ↔
      outcome = .ok value ∧ receiver = after := by
  cases outcome <;> simp [lift]

@[simp]
theorem assert_returns {condition : σ → Bool} {done : Unit} {receiver : σ} :
    (assert condition : InPlace σ ε Unit) receiver = (.ok done, after) ↔
      condition receiver = true ∧ receiver = after := by
  rw [assert]
  split <;> simp_all

variable {convert : ε → ε'}

@[simp]
theorem mapErr_returns {call : InPlace σ ε α} {receiver : σ} :
    mapErr convert call receiver = (.ok value, after) ↔ call receiver = (.ok value, after) := by
  rw [mapErr]
  rcases call receiver with ⟨(_ | _) | _, _⟩ <;> simp

@[simp]
theorem expect_returns {call : InPlace σ ε α} {receiver : σ} :
    (expect call : InPlace σ ε' α) receiver = (.ok value, after) ↔
      call receiver = (.ok value, after) := by
  rw [expect]
  rcases call receiver with ⟨_ | _, _⟩ <;> simp

variable {τ : Type} {part : σ → τ} {replace : τ → σ → σ}

@[simp]
theorem zoom_returns {call : InPlace τ ε α} {receiver : σ} :
    zoom part replace call receiver = (.ok value, after) ↔
      ∃ left, call (part receiver) = (.ok value, left) ∧ replace left receiver = after := by
  rw [zoom]
  rcases call (part receiver) with ⟨outcome, left⟩
  simp only [Prod.mk.injEq]
  constructor
  · rintro ⟨rfl, rfl⟩
    exact ⟨left, ⟨rfl, rfl⟩, rfl⟩
  · rintro ⟨_, ⟨rfl, rfl⟩, rfl⟩
    exact ⟨rfl, rfl⟩

/-- A returned error leaves this receiver as it was. -/
def AtomicAt (call : InPlace σ ε α) (receiver : σ) : Prop :=
  ∀ error after, call receiver = (.error (.error error), after) → after = receiver

/-- A returned error leaves every receiver as it was. -/
def Atomic (call : InPlace σ ε α) : Prop := ∀ receiver, call.AtomicAt receiver

def Infallible (call : InPlace σ ε α) (receiver : σ) : Prop :=
  ∀ error after, call receiver ≠ (.error (.error error), after)

def NoPanic (call : InPlace σ ε α) (receiver : σ) : Prop :=
  ∀ after, call receiver ≠ (.error .panic, after)

variable {call first : InPlace σ ε α} {next : α → InPlace σ ε β} {receiver : σ}

/-- A call without a panic returns, or leaves its receiver as it was. -/
theorem AtomicAt.cases (atomic : call.AtomicAt receiver) (safe : call.NoPanic receiver) :
    (∃ value, call receiver = (.ok value, (call receiver).2)) ∨ (call receiver).2 = receiver := by
  rcases outcome : call receiver with ⟨(error | _) | value, after⟩
  · exact .inr (atomic error after outcome)
  · exact absurd outcome (safe after)
  · exact .inl ⟨value, rfl⟩

theorem Infallible.atomicAt (infallible : call.Infallible receiver) : call.AtomicAt receiver :=
  fun error after failed => absurd failed (infallible error after)

theorem bind_fails {error : ε}
    (failed : (first >>= next) receiver = (.error (.error error), after)) :
    first receiver = (.error (.error error), after) ∨
      ∃ value middle, first receiver = (.ok value, middle) ∧
        next value middle = (.error (.error error), after) := by
  change (match first receiver with
    | (.ok value, middle) => next value middle
    | (.error stop, middle) => (.error stop, middle)) = _ at failed
  rcases outcome : first receiver with ⟨stop | value, middle⟩
  · rw [outcome] at failed
    exact .inl (by simpa using failed)
  · rw [outcome] at failed
    exact .inr ⟨value, middle, rfl, failed⟩

theorem Infallible.bind (here : first.Infallible receiver)
    (later : ∀ value middle, first receiver = (.ok value, middle) →
      (next value).Infallible middle) : (first >>= next).Infallible receiver := by
  intro error after failed
  rcases bind_fails failed with early | ⟨value, middle, returned, late⟩
  · exact here error after early
  · exact later value middle returned error after late

/-- After an atomic first part, a sequence is atomic when the rest cannot fail. -/
theorem AtomicAt.bind (here : first.AtomicAt receiver)
    (later : ∀ value middle, first receiver = (.ok value, middle) →
      (next value).Infallible middle) : (first >>= next).AtomicAt receiver := by
  intro error after failed
  rcases bind_fails failed with early | ⟨value, middle, returned, late⟩
  · exact here error after early
  · exact absurd late (later value middle returned error after)

/-- Checks in front of an atomic call leave it atomic. -/
theorem AtomicAt.lift_bind {outcome : Except ε α}
    (later : ∀ value, outcome = .ok value → (next value).AtomicAt receiver) :
    (lift outcome >>= next).AtomicAt receiver := by
  intro error after failed
  rcases bind_fails failed with early | ⟨value, middle, returned, late⟩
  · cases outcome with
    | ok value => simp [lift] at early
    | error cause => exact (Prod.mk.inj early).2.symm
  · obtain ⟨done, rfl⟩ := lift_returns.mp returned
    exact later value done error after late

variable {outcome : Except ε' α}

/-- The same for a check whose failure panics. -/
theorem AtomicAt.expect_lift_bind
    (later : ∀ value, outcome = .ok value → (next value).AtomicAt receiver) :
    ((lift outcome).expect >>= next).AtomicAt receiver := by
  intro error after failed
  rcases bind_fails failed with early | ⟨value, middle, returned, late⟩
  · cases outcome with
    | ok value => simp [lift, expect] at early
    | error cause => simp [lift, expect] at early
  · obtain ⟨done, rfl⟩ := lift_returns.mp (expect_returns.mp returned)
    exact later value done error after late

theorem Infallible.expect_lift_bind
    (later : ∀ value, outcome = .ok value → (next value).Infallible receiver) :
    ((lift outcome).expect >>= next).Infallible receiver := by
  apply Infallible.bind
  · intro error after failed
    cases outcome <;> simp [lift, expect] at failed
  · intro value middle returned
    obtain ⟨done, rfl⟩ := lift_returns.mp (expect_returns.mp returned)
    exact later value done

theorem AtomicAt.get_bind {next : σ → InPlace σ ε β} (later : (next receiver).AtomicAt receiver) :
    (get >>= next).AtomicAt receiver := later

theorem Infallible.get_bind {next : σ → InPlace σ ε β}
    (later : (next receiver).Infallible receiver) : (get >>= next).Infallible receiver := later

theorem Infallible.require_bind {condition : Prop} [Decidable condition] {error : ε}
    {next : Unit → InPlace σ ε β} (met : condition) (later : (next ()).Infallible receiver) :
    (lift (require condition error) >>= next).Infallible receiver := by
  rw [require, if_pos met]
  exact later

theorem AtomicAt.mapErr (atomic : call.AtomicAt receiver) :
    (call.mapErr convert).AtomicAt receiver := by
  intro error after failed
  rw [InPlace.mapErr] at failed
  rcases outcome : call receiver with ⟨(cause | _) | value, left⟩
  · rw [outcome] at failed
    obtain ⟨-, rfl⟩ := Prod.mk.inj failed
    exact atomic cause left outcome
  · simp [outcome] at failed
  · simp [outcome] at failed

theorem Infallible.mapErr (infallible : call.Infallible receiver) :
    (call.mapErr convert).Infallible receiver := by
  intro error after failed
  rw [InPlace.mapErr] at failed
  rcases outcome : call receiver with ⟨(cause | _) | value, left⟩
  · exact infallible cause left outcome
  · simp [outcome] at failed
  · simp [outcome] at failed

theorem AtomicAt.zoom {call : InPlace τ ε α} (atomic : call.AtomicAt (part receiver))
    (same : replace (part receiver) receiver = receiver) :
    (zoom part replace call).AtomicAt receiver := by
  intro error after failed
  rw [InPlace.zoom] at failed
  rcases outcome : call (part receiver) with ⟨stop, left⟩
  rw [outcome] at failed
  obtain ⟨rfl, rfl⟩ := Prod.mk.inj failed
  rw [atomic error left outcome, same]

/-- Work on a copy is atomic, whatever it does. -/
theorem onClone_atomic (call : InPlace σ ε α) : (onClone call).Atomic := by
  intro receiver error after failed
  rw [onClone] at failed
  rcases outcome : call receiver with ⟨stop | value, snapshot⟩
  · rw [outcome] at failed
    exact (Prod.mk.inj failed).2.symm
  · simp [outcome] at failed

theorem update_infallible (change : σ → σ) :
    (update change : InPlace σ ε Unit).Infallible receiver :=
  fun _ _ failed => by simp [update] at failed

theorem assert_infallible (condition : σ → Bool) :
    (assert condition : InPlace σ ε Unit).Infallible receiver := by
  intro error after failed
  rw [assert] at failed
  split at failed <;> simp at failed

theorem pure_infallible (value : α) : (pure value : InPlace σ ε α).Infallible receiver :=
  fun _ _ failed => by simp [pure] at failed

/-- A loop whose passes cannot fail cannot fail; `keeps` carries what the later passes need. -/
theorem each_infallible {pass : α → InPlace σ ε Unit} {Keeps : σ → Prop} {items : List α}
    (step : ∀ item ∈ items, ∀ state, Keeps state → (pass item).Infallible state)
    (kept : ∀ item ∈ items, ∀ state after, Keeps state →
      pass item state = (.ok (), after) → Keeps after)
    (start : Keeps receiver) : (each pass items).Infallible receiver := by
  induction items generalizing receiver with
  | nil => exact pure_infallible ()
  | cons item items ih =>
    apply Infallible.bind
    · exact step item List.mem_cons_self receiver start
    · intro _ middle returned
      apply ih
      · exact fun other member => step other (List.mem_cons_of_mem item member)
      · exact fun other member => kept other (List.mem_cons_of_mem item member)
      · exact kept item List.mem_cons_self receiver middle start returned

theorem NoPanic.bind (here : first.NoPanic receiver)
    (later : ∀ value middle, first receiver = (.ok value, middle) → (next value).NoPanic middle) :
    (first >>= next).NoPanic receiver := by
  intro after failed
  change (match first receiver with
    | (.ok value, middle) => next value middle
    | (.error stop, middle) => (.error stop, middle)) = _ at failed
  rcases outcome : first receiver with ⟨stop | value, middle⟩
  · rw [outcome] at failed
    obtain ⟨stopped, rfl⟩ := Prod.mk.inj failed
    cases stopped
    exact here middle outcome
  · rw [outcome] at failed
    exact later value middle outcome after failed

theorem NoPanic.lift_bind {outcome : Except ε α}
    (later : ∀ value, outcome = .ok value → (next value).NoPanic receiver) :
    (lift outcome >>= next).NoPanic receiver := by
  apply NoPanic.bind
  · intro after failed
    cases outcome <;> simp [lift] at failed
  · intro value middle returned
    obtain ⟨done, rfl⟩ := lift_returns.mp returned
    exact later value done

theorem NoPanic.expect_lift_bind (present : outcome = .ok value)
    (later : (next value).NoPanic receiver) :
    ((lift outcome).expect >>= next).NoPanic receiver := by
  rw [present]
  exact later

theorem update_noPanic (change : σ → σ) : (update change : InPlace σ ε Unit).NoPanic receiver :=
  fun _ failed => by simp [update] at failed

theorem pure_noPanic (value : α) : (pure value : InPlace σ ε α).NoPanic receiver :=
  fun _ failed => by simp [pure] at failed

theorem NoPanic.mapErr (safe : call.NoPanic receiver) :
    (call.mapErr convert).NoPanic receiver := by
  intro after failed
  rw [InPlace.mapErr] at failed
  rcases outcome : call receiver with ⟨(cause | _) | value, left⟩
  · simp [outcome] at failed
  · exact safe left outcome
  · simp [outcome] at failed

theorem NoPanic.zoom {call : InPlace τ ε α} (safe : call.NoPanic (part receiver)) :
    (zoom part replace call).NoPanic receiver := by
  intro after failed
  rw [InPlace.zoom] at failed
  rcases outcome : call (part receiver) with ⟨stop, left⟩
  rw [outcome] at failed
  obtain ⟨rfl, -⟩ := Prod.mk.inj failed
  exact safe left outcome

theorem each_noPanic {pass : α → InPlace σ ε Unit} {items : List α}
    (step : ∀ item ∈ items, ∀ state, (pass item).NoPanic state) :
    (each pass items).NoPanic receiver := by
  induction items generalizing receiver with
  | nil => exact pure_noPanic ()
  | cons item items ih =>
    apply NoPanic.bind
    · exact step item List.mem_cons_self receiver
    · intro _ middle _
      exact ih fun other mem => step other (List.mem_cons_of_mem item mem)

end InPlace
end Control
