import Mathlib.Data.List.Nodup

/-!
# Ordered association lists

Finite maps from natural numbers as lists in increasing key order, with the last write winning.
-/

namespace Control

open List Function

variable {α : Type*}

def insertKey (key : Nat) (value : α) : List (Nat × α) → List (Nat × α)
  | [] => [(key, value)]
  | (other, old) :: rest =>
    if key < other then (key, value) :: (other, old) :: rest
    else if key = other then (key, value) :: rest
    else (other, old) :: insertKey key value rest

def orderedMap (writes : List (Nat × α)) : List (Nat × α) :=
  writes.foldl (fun entries write => insertKey write.1 write.2 entries) []

def KeysIncrease (entries : List (Nat × α)) : Prop := (entries.map Prod.fst).Pairwise (· < ·)

theorem map_insertKey {β : Type} (f : α → β) (key : Nat) (value : α) (entries : List (Nat × α)) :
    (insertKey key value entries).map (fun entry => (entry.1, f entry.2)) =
      insertKey key (f value) (entries.map fun entry => (entry.1, f entry.2)) := by
  induction entries with
  | nil => rfl
  | cons entry rest ih =>
    simp only [insertKey, map_cons]
    split_ifs
    · rfl
    · rfl
    · rw [map_cons, ih]

variable {key : Nat} {value : α} {entries : List (Nat × α)}

theorem mem_keys_insertKey {other : Nat} :
    other ∈ (insertKey key value entries).map Prod.fst ↔
      other = key ∨ other ∈ entries.map Prod.fst := by
  induction entries with
  | nil => simp [insertKey]
  | cons entry entries ih =>
    unfold insertKey
    split_ifs with before same
    · simp
    · subst same
      simp
    · simp only [map_cons, mem_cons, ih]
      tauto

theorem KeysIncrease.insertKey (increase : KeysIncrease entries) :
    KeysIncrease (Control.insertKey key value entries) := by
  induction entries with
  | nil => simp [KeysIncrease, Control.insertKey]
  | cons entry entries ih =>
    obtain ⟨least, rest⟩ := pairwise_cons.mp increase
    unfold Control.insertKey
    split_ifs with before same
    · refine pairwise_cons.mpr ⟨fun other mem => ?_, increase⟩
      rcases mem_cons.mp mem with rfl | later
      · exact before
      · exact Nat.lt_trans before (least other later)
    · subst same
      exact pairwise_cons.mpr ⟨least, rest⟩
    · refine pairwise_cons.mpr ⟨fun other mem => ?_, ih rest⟩
      rcases mem_keys_insertKey.mp mem with rfl | later
      · omega
      · exact least other later

theorem keysIncrease_orderedMap (writes : List (Nat × α)) : KeysIncrease (orderedMap writes) := by
  suffices general : ∀ entries : List (Nat × α), KeysIncrease entries →
      KeysIncrease (writes.foldl (fun entries write => insertKey write.1 write.2 entries) entries)
    from general [] List.Pairwise.nil
  induction writes with
  | nil => exact fun _ increase => increase
  | cons write writes ih => exact fun entries increase => ih _ increase.insertKey

theorem KeysIncrease.nodup (increase : KeysIncrease entries) :
    (entries.map Prod.fst).Nodup :=
  increase.imp fun {_ _} less => Nat.ne_of_lt less

/-- A function changed at the keys of a list, later entries winning. -/
def overwrite (base : Nat → α) (writes : List (Nat × α)) : Nat → α :=
  writes.foldl (fun values write => Function.update values write.1 write.2) base

@[simp]
theorem overwrite_nil (base : Nat → α) : overwrite base [] = base := rfl

@[simp]
theorem overwrite_cons (base : Nat → α) (write : Nat × α) (writes : List (Nat × α)) :
    overwrite base (write :: writes) =
      overwrite (update base write.1 write.2) writes := rfl

theorem overwrite_append (base : Nat → α) (left right : List (Nat × α)) :
    overwrite base (left ++ right) = overwrite (overwrite base left) right :=
  foldl_append

variable {base : Nat → α} {writes : List (Nat × α)}

theorem overwrite_of_notMem (untouched : key ∉ writes.map Prod.fst) :
    overwrite base writes key = base key := by
  induction writes generalizing base with
  | nil => rfl
  | cons write writes ih =>
    rw [map_cons, mem_cons, not_or] at untouched
    rw [overwrite_cons, ih untouched.2, update_of_ne untouched.1]

theorem overwrite_of_mem {base : Nat → α} {writes : List (Nat × α)} {key : Nat} {value : α}
    (distinct : (writes.map Prod.fst).Nodup) (member : (key, value) ∈ writes) :
    overwrite base writes key = value := by
  induction writes generalizing base with
  | nil => cases member
  | cons write writes ih =>
    obtain ⟨fresh, rest⟩ := nodup_cons.mp distinct
    rcases mem_cons.mp member with rfl | later
    · rw [overwrite_cons, overwrite_of_notMem fresh, update_self]
    · exact ih rest later

theorem overwrite_eq_of_values {target : Nat → α}
    (values : ∀ write ∈ writes, write.2 = target write.1)
    (rest : ∀ key ∉ writes.map Prod.fst, base key = target key) :
    overwrite base writes = target := by
  induction writes generalizing base with
  | nil => exact funext fun key => rest key not_mem_nil
  | cons write writes ih =>
    obtain ⟨first, later⟩ := forall_mem_cons.mp values
    rw [overwrite_cons]
    refine ih later fun key unwritten => ?_
    by_cases same : key = write.1
    · rw [same, update_self, first]
    · rw [update_of_ne same]
      exact rest key (by simp [same, unwritten])

theorem overwrite_eq_find (base : Nat → α) (writes : List (Nat × α)) (key : Nat) :
    overwrite base writes key =
      ((writes.reverse.find? fun write => write.1 == key).map Prod.snd).getD (base key) := by
  induction writes generalizing base with
  | nil => rfl
  | cons write writes ih =>
    rw [overwrite_cons, ih, reverse_cons, find?_append]
    cases writes.reverse.find? fun write => write.1 == key with
    | some last => rfl
    | none =>
      rcases eq_or_ne key write.1 with rfl | different
      · simp
      · simp [update_of_ne different, different.symm]

theorem overwrite_update_comm (value : α) (untouched : key ∉ writes.map Prod.fst) :
    overwrite (update base key value) writes =
      update (overwrite base writes) key value := by
  induction writes generalizing base with
  | nil => rfl
  | cons write writes ih =>
    rw [map_cons, mem_cons, not_or] at untouched
    rw [overwrite_cons, overwrite_cons, update_comm untouched.1, ih untouched.2]

theorem overwrite_insertKey (increase : KeysIncrease entries) :
    overwrite base (insertKey key value entries) =
      update (overwrite base entries) key value := by
  induction entries generalizing base with
  | nil => rfl
  | cons entry entries ih =>
    obtain ⟨first, old⟩ := entry
    obtain ⟨least, rest⟩ := pairwise_cons.mp increase
    unfold insertKey
    split_ifs with before same
    · have fresh : key ∉ ((first, old) :: entries).map Prod.fst := by
        rw [map_cons, mem_cons, not_or]
        refine ⟨Nat.ne_of_lt before, fun mem => ?_⟩
        have := least key mem
        omega
      rw [overwrite_cons, overwrite_update_comm value fresh]
    · subst same
      have fresh : key ∉ entries.map Prod.fst := fun mem => Nat.lt_irrefl key (least key mem)
      rw [overwrite_cons, overwrite_cons, overwrite_update_comm value fresh,
        overwrite_update_comm old fresh, update_idem]
    · rw [overwrite_cons, overwrite_cons, ih rest]

/-- The ordered list changes a function like the sequence of writes. -/
theorem overwrite_orderedMap (base : Nat → α) (writes : List (Nat × α)) :
    overwrite base (orderedMap writes) = overwrite base writes := by
  suffices general : ∀ entries : List (Nat × α), KeysIncrease entries →
      overwrite base
          (writes.foldl (fun entries write => insertKey write.1 write.2 entries) entries) =
        overwrite (overwrite base entries) writes from general [] List.Pairwise.nil
  induction writes with
  | nil => exact fun _ _ => rfl
  | cons write writes ih =>
    intro entries increase
    rw [foldl_cons, ih _ increase.insertKey, overwrite_insertKey increase, overwrite_cons]

theorem mem_keys_orderedMap :
    key ∈ (orderedMap writes).map Prod.fst ↔ key ∈ writes.map Prod.fst := by
  unfold orderedMap
  suffices general : ∀ entries : List (Nat × α),
      key ∈ (writes.foldl (fun entries write => insertKey write.1 write.2 entries)
          entries).map Prod.fst ↔
        key ∈ entries.map Prod.fst ∨ key ∈ writes.map Prod.fst by
    simpa using general []
  induction writes with
  | nil => simp
  | cons write writes ih =>
    intro entries
    rw [foldl_cons, ih, mem_keys_insertKey, map_cons, mem_cons]
    tauto

theorem insertKey_of_above (above : ∀ other ∈ entries.map Prod.fst, other < key) :
    insertKey key value entries = entries ++ [(key, value)] := by
  induction entries with
  | nil => rfl
  | cons entry entries ih =>
    obtain ⟨first, later⟩ := forall_mem_cons.mp above
    rw [insertKey, if_neg (by omega), if_neg (by omega), ih later, cons_append]

theorem orderedMap_of_increasing (increase : KeysIncrease writes) :
    orderedMap writes = writes := by
  unfold orderedMap
  suffices general : ∀ entries : List (Nat × α), KeysIncrease (entries ++ writes) →
      writes.foldl (fun entries write => insertKey write.1 write.2 entries) entries =
        entries ++ writes by
    simpa using general [] increase
  clear increase
  induction writes with
  | nil => simp
  | cons write writes ih =>
    intro entries increase
    have above : ∀ other ∈ entries.map Prod.fst, other < write.1 := by
      unfold KeysIncrease at increase
      rw [map_append, pairwise_append] at increase
      exact fun other mem => increase.2.2 other mem write.1 (by simp)
    rw [foldl_cons, insertKey_of_above above, ih _ (by simpa using increase)]
    simp

theorem lookup_map_of_mem {keys : List Nat} {f : Nat → α} {key : Nat} (member : key ∈ keys) :
    (keys.map fun key => (key, f key)).lookup key = some (f key) := by
  induction keys with
  | nil => cases member
  | cons first rest ih =>
    by_cases same : key = first
    · subst same
      simp
    · rw [map_cons, lookup_cons, beq_false_of_ne same]
      exact ih ((mem_cons.mp member).resolve_left same)

theorem lookup_map_of_notMem {keys : List Nat} {f : Nat → α} {key : Nat} (missing : key ∉ keys) :
    (keys.map fun key => (key, f key)).lookup key = none := by
  refine lookup_eq_none_iff.mpr fun entry member => ?_
  obtain ⟨other, listed, rfl⟩ := mem_map.mp member
  have different : key ≠ other := fun same => missing (same ▸ listed)
  simpa using different

end Control
