import Mathlib.Data.List.MinMax
import Mathlib.Data.List.Sort

/-!
# Ranking a stream

Items that arrive one after the other are ranked by a preorder, earlier items first among equals.
The best ones of a growing list can be kept in a list of bounded length: the rest never matters
again.
-/

namespace Control

open List

variable {α β : Type}

variable {last : α}

section Ranking

variable (r : α → α → Prop) [DecidableRel r]

/-- Put an item behind all items that it does not beat. -/
def insertBehind (item : α) : List α → List α
  | [] => [item]
  | first :: rest =>
    if r first item then first :: insertBehind item rest else item :: first :: rest

theorem length_insertBehind (item : α) (items : List α) :
    (insertBehind r item items).length = items.length + 1 := by
  induction items with
  | nil => rfl
  | cons first rest ih =>
    rw [insertBehind]
    split
    · rw [length_cons, ih, length_cons]
    · rfl

theorem perm_insertBehind (item : α) (items : List α) :
    (insertBehind r item items).Perm (item :: items) := by
  induction items with
  | nil => rfl
  | cons first rest ih =>
    rw [insertBehind]
    split
    · exact (ih.cons first).trans (List.Perm.swap item first rest)
    · rfl

variable {item : α} {items : List α}

theorem map_insertBehind {s : β → β → Prop} [DecidableRel s] {f : α → β}
    (same : ∀ other ∈ items, s (f other) (f item) ↔ r other item) :
    (insertBehind r item items).map f = insertBehind s (f item) (items.map f) := by
  induction items with
  | nil => rfl
  | cons first rest ih =>
    obtain ⟨here, later⟩ := forall_mem_cons.mp same
    rw [insertBehind, map_cons, insertBehind]
    by_cases before : r first item
    · rw [if_pos before, if_pos (here.mpr before), map_cons, ih later]
    · rw [if_neg before, if_neg (mt here.mp before), map_cons, map_cons]

theorem insertBehind_eq_append (beatsNone : ∀ other ∈ items, r other item) :
    insertBehind r item items = items ++ [item] := by
  induction items with
  | nil => rfl
  | cons first rest ih =>
    obtain ⟨here, later⟩ := forall_mem_cons.mp beatsNone
    rw [insertBehind, if_pos here, ih later, cons_append]

theorem insertBehind_append_last (beats : ¬r last item) (items : List α) :
    insertBehind r item (items ++ [last]) = insertBehind r item items ++ [last] := by
  induction items with
  | nil => simp [insertBehind, beats]
  | cons first rest ih =>
    rw [cons_append, insertBehind, insertBehind]
    split
    · rw [ih, cons_append]
    · rfl

theorem take_insertBehind (count : Nat) (item : α) (items : List α) :
    (insertBehind r item items).take count =
      (insertBehind r item (items.take count)).take count := by
  induction items generalizing count with
  | nil => rw [take_nil]
  | cons first rest ih =>
    cases count with
    | zero => rw [take_zero, take_zero]
    | succ count =>
      rw [take_succ_cons, insertBehind, insertBehind]
      split
      · rw [take_succ_cons, take_succ_cons, ih]
      · rw [take_succ_cons, take_succ_cons]
        cases count with
        | zero => rfl
        | succ count =>
          rw [take_succ_cons, take_succ_cons, take_take]
          simp

/-- A strict order that places the item against every other one orders the list after it. -/
theorem pairwise_insertBehind {ahead : α → α → Prop}
    (trans : ∀ {a b c}, ahead a b → ahead b c → ahead a c) (ordered : items.Pairwise ahead)
    (behind : ∀ other ∈ items, r other item → ahead other item)
    (before : ∀ other ∈ items, ¬r other item → ahead item other) :
    (insertBehind r item items).Pairwise ahead := by
  induction items with
  | nil => exact pairwise_singleton ahead item
  | cons first rest ih =>
    obtain ⟨leads, ordered'⟩ := pairwise_cons.mp ordered
    obtain ⟨behindHere, behindLater⟩ := forall_mem_cons.mp behind
    obtain ⟨beforeHere, beforeLater⟩ := forall_mem_cons.mp before
    rw [insertBehind]
    split
    case isTrue waits =>
        refine pairwise_cons.mpr ⟨?_, ih ordered' behindLater beforeLater⟩
        intro other mem
        rcases mem_cons.mp ((perm_insertBehind r item rest).subset mem) with rfl | mem
        · exact behindHere waits
        · exact leads other mem
    case isFalse beats =>
        refine pairwise_cons.mpr ⟨?_, ordered⟩
        intro other mem
        rcases mem_cons.mp mem with rfl | mem
        · exact beforeHere beats
        · exact trans (beforeHere beats) (leads other mem)

variable [Std.Total r] [IsTrans α r]

theorem orderedInsert_insertBehind (early late : α) (items : List α) :
    (insertBehind r late items).orderedInsert r early =
      insertBehind r late (items.orderedInsert r early) := by
  induction items with
  | nil =>
    rfl
  | cons first rest ih =>
    by_cases ahead : r early first
    · rw [orderedInsert_cons_of_le _ _ ahead]
      by_cases waits : r first late
      · have both : r early late := trans_of r ahead waits
        rw [insertBehind, if_pos waits, orderedInsert_cons_of_le _ _ ahead, insertBehind,
          if_pos both, insertBehind, if_pos waits]
      · rw [insertBehind, if_neg waits, insertBehind, orderedInsert_cons, insertBehind,
          if_neg waits, orderedInsert_cons, if_pos ahead]
    · have follows : r first early := (total_of r first early).resolve_right ahead
      rw [orderedInsert_cons, if_neg ahead]
      by_cases waits : r first late
      · rw [insertBehind, if_pos waits, orderedInsert_cons, if_neg ahead, ih, insertBehind,
          if_pos waits]
      · -- An early item ahead of the late one would be ahead of the first one, too.
        have apart : ¬r early late := by
          intro close
          exact ahead (trans_of r close ((total_of r late first).resolve_right waits))
        rw [insertBehind, if_neg waits, orderedInsert_cons, if_neg apart,
          orderedInsert_cons, if_neg ahead, insertBehind, if_neg waits]

theorem insertionSort_append_singleton (items : List α) (item : α) :
    (items ++ [item]).insertionSort r = insertBehind r item (items.insertionSort r) := by
  induction items with
  | nil => rfl
  | cons first rest ih =>
    rw [cons_append, insertionSort_cons, ih, orderedInsert_insertBehind, insertionSort_cons]

/-- The best of a growing list are found among the best so far. -/
theorem take_insertionSort_append (count : Nat) (items : List α) (item : α) :
    ((items ++ [item]).insertionSort r).take count =
      (insertBehind r item ((items.insertionSort r).take count)).take count := by
  rw [insertionSort_append_singleton, take_insertBehind]

omit [Std.Total r] [IsTrans α r] in
/-- Items that tie keep their order. -/
theorem filter_insertionSort {among : α → Bool}
    (tie : ∀ left right, among left = true → among right = true → r left right)
    (items : List α) : (items.insertionSort r).filter among = items.filter among := by
  have step (first : α) (rest : List α) :
      (rest.orderedInsert r first).filter among = (first :: rest).filter among := by
    induction rest with
    | nil => rfl
    | cons second rest ih =>
      rw [orderedInsert_cons]
      split
      case isTrue => rfl
      case isFalse apart =>
          rw [filter_cons, ih]
          by_cases inFirst : among first = true
          · have outSecond : ¬among second = true := fun inSecond =>
              apart (tie first second inFirst inSecond)
            simp [inFirst, outSecond]
          · simp [inFirst, filter_cons]
  induction items with
  | nil => rfl
  | cons first rest ih =>
    rw [insertionSort_cons, step, filter_cons, ih, filter_cons]

end Ranking

variable {γ : Type} [LinearOrder γ]

variable {rank : α → γ}

/-- In a list ranked downward the first item that qualifies is the one of highest rank. -/
theorem argmax_filter_eq_find {ranked items : List α} {qualifies : α → Bool}
    (order : ranked.Pairwise fun left right => rank right < rank left) (perm : ranked.Perm items) :
    (items.filter qualifies).argmax rank = ranked.find? qualifies := by
  cases found : ranked.find? qualifies with
  | none =>
    rw [argmax_eq_none, filter_eq_nil_iff]
    intro item mem
    exact find?_eq_none.mp found item (perm.symm.subset mem)
  | some best =>
    obtain ⟨good, before, behind, rfl, none⟩ := find?_eq_some_iff_append.mp found
    have inItems : best ∈ items.filter qualifies :=
      mem_filter.mpr ⟨perm.subset (by simp), good⟩
    cases chosen : (items.filter qualifies).argmax rank with
    | none =>
      rw [argmax_eq_none] at chosen
      rw [chosen] at inItems
      exact absurd inItems not_mem_nil
    | some top =>
      obtain ⟨inside, qualified⟩ :=
        mem_filter.mp (argmax_mem (Option.mem_def.mpr chosen))
      have highest := le_of_mem_argmax inItems (Option.mem_def.mpr chosen)
      rcases mem_append.mp (perm.symm.subset inside) with early | late
      · simpa [qualified] using none top early
      · rcases mem_cons.mp late with rfl | late
        · rfl
        · have lower := (pairwise_cons.mp (pairwise_append.mp order).2.1).1 top late
          exact absurd highest (not_le_of_gt lower)

theorem exists_argmin_eq_last {value : β → α} {init : List α} {items : List β}
    (order : (init ++ [last]).Pairwise fun left right => rank right < rank left)
    (perm : (init ++ [last]).Perm (items.map value)) :
    ∃ bottom, items.argmin (fun item => rank (value item)) = some bottom ∧ bottom ∈ items ∧
      value bottom = last := by
  have inValues : last ∈ items.map value := perm.subset (by simp)
  obtain ⟨holder, inItems, holds⟩ := mem_map.mp inValues
  cases chosen : items.argmin (fun item => rank (value item)) with
  | none =>
    rw [argmin_eq_none] at chosen
    rw [chosen] at inItems
    exact absurd inItems not_mem_nil
  | some bottom =>
    have inside := argmin_mem (Option.mem_def.mpr chosen)
    have lowest := le_of_mem_argmin inItems (Option.mem_def.mpr chosen)
    rw [holds] at lowest
    refine ⟨bottom, rfl, inside, ?_⟩
    rcases mem_append.mp (perm.symm.subset (mem_map_of_mem inside)) with early | late
    · have higher := (pairwise_append.mp order).2.2 _ early last (by simp)
      exact absurd lowest (not_le_of_gt higher)
    · exact mem_singleton.mp late

end Control
