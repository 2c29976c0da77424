import Mathlib.Data.List.AList

/-!
# Finite tables

Facts about association lists with unique keys that relate one key to the entries around it.
-/

namespace Control

open List

variable {κ : Type} {α : κ → Type} [DecidableEq κ] {table : AList α} {key : κ} {value : α key}

/-- A found entry stands in front of what its removal leaves. -/
theorem perm_cons_erase (found : table.lookup key = some value) :
    table.entries.Perm (⟨key, value⟩ :: (table.erase key).entries) := by
  have known : key ∈ table.entries.keys := AList.lookup_isSome.mp (Option.isSome_of_mem found)
  obtain ⟨stored, before, behind, -, split, erased⟩ := exists_of_kerase known
  have mem : (⟨key, stored⟩ : Sigma α) ∈ table.entries := by
    rw [split]
    exact mem_append_right before mem_cons_self
  have same : stored = value := Option.mem_unique (AList.mem_lookup_iff.mpr mem) found
  subst same
  have left : (table.erase key).entries = before ++ behind := erased
  rw [split, left]
  exact perm_middle

theorem entries_replace_head {rest : List (Sigma α)} (first : table.entries = ⟨key, value⟩ :: rest)
    (next : α key) : (table.replace key next).entries = ⟨key, next⟩ :: rest := by
  change List.kreplace key next table.entries = _
  rw [first, List.kreplace]
  simp

abbrev Table (κ α : Type) : Type := AList fun _ : κ => α

namespace Table

variable {α β : Type} {entries : Table κ α}

def values (entries : Table κ α) : List α := entries.entries.map Sigma.snd

theorem lookup_insert (entries : Table κ α) (key other : κ) (value : α) :
    (entries.insert key value).lookup other =
      if other = key then some value else entries.lookup other := by
  split
  · subst_vars
    exact AList.lookup_insert entries
  · exact AList.lookup_insert_ne ‹_›

theorem lookup_erase (entries : Table κ α) (key other : κ) :
    (entries.erase key).lookup other = if other = key then none else entries.lookup other := by
  split
  · subst_vars
    exact AList.lookup_erase other entries
  · exact AList.lookup_erase_ne ‹_›

theorem mem_values {value : α} :
    value ∈ entries.values ↔ ∃ key, entries.lookup key = some value := by
  constructor
  · intro mem
    obtain ⟨⟨key, stored⟩, inside, rfl⟩ := mem_map.mp mem
    exact ⟨key, AList.mem_lookup_iff.mpr inside⟩
  · rintro ⟨key, found⟩
    exact mem_map.mpr ⟨⟨key, value⟩, AList.mem_lookup_iff.mp found, rfl⟩

end Table

end Control
