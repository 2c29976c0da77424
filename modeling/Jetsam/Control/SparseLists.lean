import Mathlib.Data.List.Sort

/-!
# Sparse forms of lists

A list with many blank items is kept as its other items with their positions, in increasing order,
which makes the form unique.
-/

namespace Control

open List

variable {α : Type}

section Support

variable [DecidableEq α] (blank : α)

/-- The items that are not blank, with their positions counted from `start`. -/
def support : Nat → List α → List (Nat × α)
  | _, [] => []
  | start, item :: items =>
    if item = blank then support (start + 1) items
    else (start, item) :: support (start + 1) items

variable {items : List α} {entry : Nat × α}

theorem mem_support {start : Nat} :
    entry ∈ support blank start items ↔
      ∃ position, entry.1 = start + position ∧ items[position]? = some entry.2 ∧
        entry.2 ≠ blank := by
  induction items generalizing start with
  | nil => simp [support]
  | cons item items ih =>
    have later : (∃ position, entry.1 = start + 1 + position ∧ items[position]? = some entry.2 ∧
        entry.2 ≠ blank) ↔ ∃ position, entry.1 = start + (position + 1) ∧
          (item :: items)[position + 1]? = some entry.2 ∧ entry.2 ≠ blank := by
      simp only [getElem?_cons_succ, Nat.add_assoc, Nat.add_comm 1]
    rw [support, ← Nat.or_exists_add_one, ← later]
    simp only [Nat.add_zero, getElem?_cons_zero, Option.some.injEq]
    split
    · rename_i isBlank
      rw [ih]
      constructor
      · exact .inr
      · rintro (⟨-, rfl, different⟩ | found)
        · exact absurd isBlank different
        · exact found
    · rename_i different
      rw [mem_cons, ih]
      apply or_congr_left
      constructor
      · rintro rfl
        exact ⟨rfl, rfl, different⟩
      · rintro ⟨first, rfl, -⟩
        exact Prod.ext first rfl

theorem mem_support_zero :
    entry ∈ support blank 0 items ↔ items[entry.1]? = some entry.2 ∧ entry.2 ≠ blank := by
  rw [mem_support]
  constructor
  · rintro ⟨position, same, found⟩
    rw [Nat.zero_add] at same
    exact same ▸ found
  · intro found
    exact ⟨entry.1, (Nat.zero_add _).symm, found⟩

theorem sorted_support (start : Nat) (items : List α) :
    (support blank start items).Pairwise fun left right => left.1 < right.1 := by
  induction items generalizing start with
  | nil => exact .nil
  | cons item items ih =>
    rw [support]
    split
    · exact ih (start + 1)
    · refine pairwise_cons.mpr ⟨fun later mem => ?_, ih (start + 1)⟩
      obtain ⟨position, same, -⟩ := (mem_support blank).mp mem
      omega

theorem length_support (start : Nat) (items : List α) :
    (support blank start items).length = items.countP fun item => item ≠ blank := by
  induction items generalizing start with
  | nil => rfl
  | cons item items ih =>
    rw [support, countP_cons]
    split
    · rename_i isBlank
      simp [ih, isBlank]
    · rename_i different
      simp [ih, different]

end Support

/-- Two lists with strictly increasing positions and the same entries are equal. -/
theorem eq_of_sorted_of_mem {left right : List (Nat × α)}
    (leftSorted : left.Pairwise fun earlier later => earlier.1 < later.1)
    (rightSorted : right.Pairwise fun earlier later => earlier.1 < later.1)
    (same : ∀ entry, entry ∈ left ↔ entry ∈ right) : left = right := by
  have distinct : ∀ {entries : List (Nat × α)},
      (entries.Pairwise fun earlier later => earlier.1 < later.1) → entries.Nodup := by
    intro entries sorted
    refine sorted.imp fun {earlier later} below => ?_
    rintro rfl
    exact lt_irrefl _ below
  have perm := (perm_ext_iff_of_nodup (distinct leftSorted) (distinct rightSorted)).mpr same
  apply perm.eq_of_pairwise _ leftSorted rightSorted
  intro earlier later _ _ below above
  exact absurd (below.trans above) (lt_irrefl _)

/-- A list of blanks with some entries written over it. -/
def spread (blank : α) (size : Nat) (entries : List (Nat × α)) : List α :=
  entries.foldl (fun items entry => items.set entry.1 entry.2) (List.replicate size blank)

variable {entries : List (Nat × α)} {position : Nat} {value : α}

theorem getElem?_foldl_set {items : List α}
    (sorted : entries.Pairwise fun left right => left.1 < right.1)
    (inside : ∀ entry ∈ entries, entry.1 < items.length) :
    (entries.foldl (fun items entry => items.set entry.1 entry.2) items)[position]? = some value ↔
      (position, value) ∈ entries ∨
        items[position]? = some value ∧ position ∉ entries.map Prod.fst := by
  induction entries generalizing items with
  | nil => simp
  | cons entry entries ih =>
    obtain ⟨below, rest⟩ := pairwise_cons.mp sorted
    have here := inside entry mem_cons_self
    rw [foldl_cons, ih rest fun later mem => by
      rw [length_set]
      exact inside later (mem_cons_of_mem entry mem)]
    have fresh : entry.1 ∉ entries.map Prod.fst := by
      intro mem
      obtain ⟨later, found, same⟩ := mem_map.mp mem
      exact absurd (below later found) (same ▸ lt_irrefl _)
    rw [map_cons, mem_cons, mem_cons, not_or, getElem?_set]
    split
    · rename_i same
      subst same
      rw [Option.some.injEq]
      constructor
      · rintro (later | ⟨rfl, -⟩)
        · exact .inl (.inr later)
        · exact .inl (.inl rfl)
      · rintro ((same | later) | ⟨-, other, -⟩)
        · exact .inr ⟨congrArg Prod.snd same.symm, fresh⟩
        · exact .inl later
        · exact absurd rfl other
    · rename_i different
      constructor
      · rintro (later | ⟨found, absent⟩)
        · exact .inl (.inr later)
        · exact .inr ⟨found, fun same => different same.symm, absent⟩
      · rintro ((same | later) | ⟨found, -, absent⟩)
        · exact absurd (congrArg Prod.fst same).symm different
        · exact .inl later
        · exact .inr ⟨found, absent⟩

@[simp]
theorem length_spread (blank : α) (size : Nat) (entries : List (Nat × α)) :
    (spread blank size entries).length = size := by
  refine (List.foldlRecOn (motive := fun items : List α => items.length = size) entries _
    length_replicate ?_)
  intro items length entry _
  rw [length_set, length]

variable {size : Nat}

theorem getElem?_replicate_eq_some {blank : α} :
    (List.replicate size blank)[position]? = some value ↔ position < size ∧ blank = value := by
  rw [getElem?_replicate, Option.ite_none_right_eq_some, Option.some.injEq]

variable [DecidableEq α] {blank : α}

theorem spread_support (items : List α) :
    spread blank items.length (support blank 0 items) = items := by
  apply List.ext_getElem?
  intro position
  apply Option.ext
  intro value
  rw [spread, getElem?_foldl_set (sorted_support blank 0 items)]
  · constructor
    · rintro (found | ⟨isBlank, absent⟩)
      · exact ((mem_support_zero blank).mp found).1
      · obtain ⟨inside, rfl⟩ := getElem?_replicate_eq_some.mp isBlank
        by_contra different
        apply absent
        refine List.mem_map.mpr ⟨(position, items[position]), ?_, rfl⟩
        rw [mem_support_zero]
        refine ⟨List.getElem?_eq_getElem inside, fun same => different ?_⟩
        rw [List.getElem?_eq_getElem inside]
        exact congrArg some same
    · intro found
      by_cases isBlank : value = blank
      · subst isBlank
        refine .inr ⟨?_, fun mem => ?_⟩
        · rw [List.getElem?_replicate, if_pos (List.getElem?_eq_some_iff.mp found).1]
        · obtain ⟨entry, known, rfl⟩ := List.mem_map.mp mem
          obtain ⟨same, different⟩ := (mem_support_zero value).mp known
          exact different (Option.some.inj (same.symm.trans found))
      · exact .inl ((mem_support_zero blank).mpr ⟨found, isBlank⟩)
  · intro entry mem
    rw [List.length_replicate]
    exact (List.getElem?_eq_some_iff.mp ((mem_support_zero blank).mp mem).1).1

theorem support_spread (sorted : entries.Pairwise fun left right => left.1 < right.1)
    (inside : ∀ entry ∈ entries, entry.1 < size) (solid : ∀ entry ∈ entries, entry.2 ≠ blank) :
    support blank 0 (spread blank size entries) = entries := by
  apply eq_of_sorted_of_mem (sorted_support blank 0 _) sorted
  intro entry
  rw [mem_support_zero, spread, getElem?_foldl_set sorted (by simpa using inside)]
  constructor
  · rintro ⟨found | ⟨isBlank, -⟩, different⟩
    · exact found
    · exact absurd (getElem?_replicate_eq_some.mp isBlank).2.symm different
  · intro mem
    exact ⟨.inl mem, solid entry mem⟩

end Control
