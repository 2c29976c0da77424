import Jetsam.Control.Checks

/-!
# Refusals of a validator

A validator refuses only with errors of a given kind when each of its steps does.
-/

namespace Control

def RefusesOnly {ε α : Type} (Allowed : ε → Prop) (outcome : Except ε α) : Prop :=
  ∀ error, outcome = .error error → Allowed error

namespace RefusesOnly

variable {ε α β : Type} {Allowed : ε → Prop}

theorem ok (value : α) : RefusesOnly Allowed (.ok value : Except ε α) := by
  intro error refused
  cases refused

theorem error {error : ε} (allowed : Allowed error) :
    RefusesOnly Allowed (.error error : Except ε α) := by
  intro other refused
  cases refused
  exact allowed

theorem require {condition : Prop} [Decidable condition] {error : ε} (allowed : Allowed error) :
    RefusesOnly Allowed (Control.require condition error) := by
  rw [Control.require]
  split
  · exact ok ()
  · exact RefusesOnly.error allowed

theorem mapError {ε' : Type} {convert : ε' → ε} (allowed : ∀ cause, Allowed (convert cause))
    (outcome : Except ε' α) : RefusesOnly Allowed (Control.mapError convert outcome) := by
  cases outcome with
  | ok value => exact ok value
  | error cause => exact RefusesOnly.error (allowed cause)

theorem bind {first : Except ε α} {next : α → Except ε β} (start : RefusesOnly Allowed first)
    (rest : ∀ value, first = .ok value → RefusesOnly Allowed (next value)) :
    RefusesOnly Allowed (first >>= next) := by
  cases outcome : first with
  | ok value => exact rest value outcome
  | error error => exact RefusesOnly.error (start error outcome)

theorem require_bind {condition : Prop} [Decidable condition] {error : ε}
    {next : Unit → Except ε β} (allowed : Allowed error)
    (rest : condition → RefusesOnly Allowed (next ())) :
    RefusesOnly Allowed (Control.require condition error >>= next) :=
  bind (require allowed) fun _ passed => rest (require_eq_ok.mp passed)

end RefusesOnly

end Control
