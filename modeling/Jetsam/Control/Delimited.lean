import Mathlib.Data.List.Basic

/-!
# Runs between marks

A run opens with its only opening mark and closes with its only closing mark. A list is a
concatenation of such runs in at most one way.
-/

namespace Control

open List

variable {α : Type*}

/-- Two splits of a list at its first marked element are the same split. -/
theorem first_marked_unique {marked : α → Bool} {left left' right right' : List α}
    {mark mark' : α} (before : ∀ item ∈ left, marked item = false) (isMark : marked mark = true)
    (before' : ∀ item ∈ left', marked item = false) (isMark' : marked mark' = true)
    (equal : left ++ mark :: right = left' ++ mark' :: right') :
    left = left' ∧ mark = mark' ∧ right = right' := by
  induction left generalizing left' with
  | nil =>
    cases left' with
    | nil => simpa using equal
    | cons head left' =>
      obtain ⟨rfl, -⟩ := List.cons.inj equal
      simp [before' mark mem_cons_self] at isMark
  | cons head left ih =>
    cases left' with
    | nil =>
      obtain ⟨rfl, -⟩ := List.cons.inj equal
      simp [before head mem_cons_self] at isMark'
    | cons head' left' =>
      obtain ⟨rfl, rest⟩ := List.cons.inj equal
      have tails := ih (fun item mem => before item (mem_cons_of_mem _ mem))
        (fun item mem => before' item (mem_cons_of_mem _ mem)) rest
      exact ⟨congrArg _ tails.1, tails.2⟩

/-- A run whose first element is the only opening one and whose last is the only closing one. -/
structure Delimited (opens closes : α → Bool) (run : List α) : Prop where
  nonempty : run ≠ []
  opening : ∀ index (inside : index < run.length), opens run[index] = true ↔ index = 0
  closing : ∀ index (inside : index < run.length),
    closes run[index] = true ↔ index + 1 = run.length

namespace Delimited

variable {opens closes : α → Bool} {run : List α}

theorem of_marks {first last : α} {rest body : List α} (isOpen : opens first = true)
    (laterOpen : ∀ item ∈ rest, opens item = false) (ends : first :: rest = body ++ [last])
    (interior : ∀ item ∈ body, closes item = false) (isClose : closes last = true) :
    Delimited opens closes (first :: rest) where
  nonempty := cons_ne_nil _ _
  opening := by
    intro index inside
    cases index with
    | zero => simpa using isOpen
    | succ index => simp [laterOpen _ (getElem_mem (Nat.lt_of_succ_lt_succ inside))]
  closing := by
    intro index inside
    have size : (first :: rest).length = body.length + 1 := by simp [ends]
    simp only [ends]
    by_cases before : index < body.length
    · simp [getElem_append_left before, interior _ (getElem_mem before), Nat.ne_of_lt before]
    · have isLast : index = body.length := by omega
      subst isLast
      simpa using isClose

/-- A run ends with its closing mark, which nothing before it carries. -/
theorem split (delimited : Delimited opens closes run) :
    ∃ body last, run = body ++ [last] ∧ (∀ item ∈ body, closes item = false) ∧
      closes last = true := by
  have size := length_pos_of_ne_nil delimited.nonempty
  refine ⟨run.dropLast, run.getLast delimited.nonempty,
    (dropLast_append_getLast delimited.nonempty).symm, ?_, ?_⟩
  · intro item mem
    obtain ⟨index, inside, rfl⟩ := mem_iff_getElem.mp mem
    rw [length_dropLast] at inside
    rw [getElem_dropLast, ← Bool.not_eq_true, delimited.closing]
    omega
  · rw [getLast_eq_getElem, delimited.closing]
    omega

end Delimited

/-- A list splits into delimited runs in at most one way. -/
theorem flatten_delimited_unique {opens closes : α → Bool} {runs others : List (List α)}
    (delimited : ∀ run ∈ runs, Delimited opens closes run)
    (otherDelimited : ∀ run ∈ others, Delimited opens closes run)
    (same : runs.flatten = others.flatten) : runs = others := by
  induction runs generalizing others with
  | nil =>
    cases others with
    | nil => rfl
    | cons other others =>
      have empty := (append_eq_nil_iff.mp same.symm).1
      exact absurd empty (otherDelimited other mem_cons_self).nonempty
  | cons run runs ih =>
    cases others with
    | nil =>
      have empty := (append_eq_nil_iff.mp same).1
      exact absurd empty (delimited run mem_cons_self).nonempty
    | cons other others =>
      obtain ⟨body, last, rfl, interior, closes⟩ := (delimited run mem_cons_self).split
      obtain ⟨body', last', rfl, interior', closes'⟩ :=
        (otherDelimited other mem_cons_self).split
      simp only [flatten_cons, append_assoc, singleton_append] at same
      obtain ⟨rfl, rfl, rest⟩ := first_marked_unique interior closes interior' closes' same
      rw [ih (fun run mem => delimited run (mem_cons_of_mem _ mem))
        (fun run mem => otherDelimited run (mem_cons_of_mem _ mem)) rest]

end Control
