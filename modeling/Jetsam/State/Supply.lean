import Jetsam.State.Coherence

/-!
# Supply accounting

Sums over all slots of a map, and the batch update of the supply. Slot indices are 32-bit, so every
sum of 64-bit amounts stays inside the 128-bit counter.
-/

namespace Jetsam

open Control SegmentedFriState Finset Function

@[irreducible]
def slotIndexBound : Nat := 2 ^ 32

theorem slotIndexBound_eq : slotIndexBound = 2 ^ 32 := by
  unfold slotIndexBound
  rfl

theorem toNat_lt_slotIndexBound (index : BitVec 32) : index.toNat < slotIndexBound := by
  rw [slotIndexBound_eq]
  exact index.isLt

def slotSum (weight : SlotValue → Nat) (slots : Nat → SlotValue) : Nat :=
  ∑ index ∈ range slotIndexBound, weight (slots index)

def totalAmount (slots : Nat → SlotValue) : Nat :=
  slotSum (fun slot => slot.amount.toNat) slots

variable {weight : SlotValue → Nat} {slots : Nat → SlotValue}

theorem slotSum_update {index : Nat} (bound : index < slotIndexBound) (value : SlotValue) :
    slotSum weight (update slots index value) + weight (slots index) =
      slotSum weight slots + weight value := by
  have member : index ∈ range slotIndexBound := mem_range.mpr bound
  have rest : ∑ other ∈ (range slotIndexBound).erase index,
        weight (update slots index value other) =
      ∑ other ∈ (range slotIndexBound).erase index, weight (slots other) :=
    sum_congr rfl fun other inRest => by rw [update_of_ne (ne_of_mem_erase inRest)]
  unfold slotSum
  rw [← add_sum_erase _ _ member, ← add_sum_erase (range slotIndexBound) _ member, rest,
    update_self]
  omega

theorem slotSum_overwrite {writes : List (Nat × SlotValue)} (distinct : (writes.map Prod.fst).Nodup)
    (bounded : ∀ write ∈ writes, write.1 < slotIndexBound) :
    slotSum weight (overwrite slots writes) + (writes.map fun write => weight (slots write.1)).sum =
      slotSum weight slots + (writes.map fun write => weight write.2).sum := by
  induction writes generalizing slots with
  | nil => rfl
  | cons write writes ih =>
    obtain ⟨fresh, rest⟩ := List.nodup_cons.mp distinct
    have first := @slotSum_update weight slots _ (bounded write List.mem_cons_self) write.2
    have later := @ih (update slots write.1 write.2) rest
      fun other member => bounded other (List.mem_cons_of_mem _ member)
    have untouched : (writes.map fun other =>
        weight (update slots write.1 write.2 other.1)) =
          writes.map fun other => weight (slots other.1) :=
      List.map_congr_left fun other member => by
        rw [update_of_ne]
        rintro same
        exact fresh (same ▸ List.mem_map_of_mem member)
    rw [untouched] at later
    simp only [overwrite_cons, List.map_cons, List.sum_cons]
    omega

theorem weight_le_slotSum {index : Nat} (bound : index < slotIndexBound) :
    weight (slots index) ≤ slotSum weight slots :=
  single_le_sum (f := fun index => weight (slots index)) (fun _ _ => Nat.zero_le _)
    (mem_range.mpr bound)

theorem slotSum_empty (vanishes : weight .empty = 0) :
    slotSum weight (fun _ => .empty) = 0 := by
  simp [slotSum, vanishes]

theorem slotSum_overwrite_empty (vanishes : weight .empty = 0) {writes : List (Nat × SlotValue)}
    (distinct : (writes.map Prod.fst).Nodup)
    (bounded : ∀ write ∈ writes, write.1 < slotIndexBound) :
    slotSum weight (overwrite (fun _ => .empty) writes) =
      (writes.map fun write => weight write.2).sum := by
  have exchange := @slotSum_overwrite weight (fun _ => .empty) writes distinct bounded
  have nothing : (writes.map fun _ => weight .empty).sum = 0 := by
    rw [vanishes, List.map_const', List.sum_replicate, smul_zero]
  rw [nothing, slotSum_empty vanishes] at exchange
  omega

theorem slotSum_eq_range (vanishes : weight .empty = 0) {logSlots : Nat} (bound : logSlots ≤ 32)
    (outside : ∀ index, 2 ^ logSlots ≤ index → slots index = .empty) :
    slotSum weight slots = ∑ index ∈ range (2 ^ logSlots), weight (slots index) := by
  refine (sum_subset ?_ fun index _ beyond => ?_).symm
  · rw [slotIndexBound_eq]
    exact range_mono (Nat.pow_le_pow_right (by norm_num) bound)
  · rw [outside index (by simpa using beyond), vanishes]

/-- The sum of all amounts never leaves the 128-bit range. -/
theorem totalAmount_lt (slots : Nat → SlotValue) : totalAmount slots < supplyBound := by
  have each : ∀ index ∈ range slotIndexBound, (slots index).amount.toNat ≤ 2 ^ 64 :=
    fun index _ => (slots index).amount.isLt.le
  calc
    totalAmount slots ≤ slotIndexBound * 2 ^ 64 := by
      have := sum_le_card_nsmul _ _ _ each
      rwa [card_range, smul_eq_mul] at this
    _ < supplyBound := by
      norm_num [slotIndexBound_eq, supplyBound]

namespace ChainState

variable {D : Type} {chain : ChainState D}

variable {supply : Nat}

theorem supplyStep_eq_some {next : Nat} {entry : Nat × SlotValue} :
    chain.supplyStep supply entry = some next ↔
      (entry.1 < chain.state.numSlots → chain.state.segIdOf entry.1 ∉ chain.state.evicted) ∧
        (let previous := if entry.1 < chain.state.numSlots then chain.state.slot entry.1 else .empty
        previous.amount.toNat ≤ supply ∧
          supply - previous.amount.toNat + entry.2.amount.toNat < supplyBound ∧
          supply - previous.amount.toNat + entry.2.amount.toNat = next) := by
  simp only [supplyStep, isEvicted, List.contains_iff_mem]
  split_ifs with blocked inRange covered covered <;> simp_all

/-- Reading the value before a batch, whether or not the slot is inside the domain. -/
theorem previous_eq {slots : Nat → SlotValue} (holds : chain.state.Holds slots) {index : Nat}
    (notEvicted : index < chain.state.numSlots →
      chain.state.segIdOf index ∉ chain.state.evicted) :
    (if index < chain.state.numSlots then chain.state.slot index else .empty) = slots index := by
  split_ifs with inRange
  · exact holds.slot_eq (notEvicted inRange)
  · exact (holds.outside index (Nat.not_lt.mp inRange)).symm

theorem foldlM_supplyStep {slots current : Nat → SlotValue} (holds : chain.state.Holds slots)
    {entries : List (Nat × SlotValue)} (distinct : (entries.map Prod.fst).Nodup)
    (bounded : ∀ entry ∈ entries, entry.1 < slotIndexBound)
    (untouched : ∀ entry ∈ entries, current entry.1 = slots entry.1) :
    entries.foldlM chain.supplyStep (totalAmount current) = some supply ↔
      (∀ entry ∈ entries, entry.1 < chain.state.numSlots →
        chain.state.segIdOf entry.1 ∉ chain.state.evicted) ∧
      totalAmount (overwrite current entries) = supply := by
  induction entries generalizing current with
  | nil => simp [Option.some.injEq]
  | cons entry entries ih =>
    obtain ⟨fresh, rest⟩ := List.nodup_cons.mp distinct
    have bound := bounded entry List.mem_cons_self
    have exchange := @slotSum_update (fun slot => slot.amount.toNat) current _ bound entry.2
    have covered := @weight_le_slotSum (fun slot => slot.amount.toNat) current _ bound
    have small := totalAmount_lt (update current entry.1 entry.2)
    rw [untouched entry List.mem_cons_self] at exchange covered
    change totalAmount _ + _ = totalAmount _ + _ at exchange
    change _ ≤ totalAmount _ at covered
    have tail := @ih (update current entry.1 entry.2) rest
      (fun other mem => bounded other (List.mem_cons_of_mem _ mem))
      (fun other mem => by
        rw [update_of_ne]
        · exact untouched other (List.mem_cons_of_mem _ mem)
        · rintro same
          exact fresh (same ▸ List.mem_map_of_mem mem))
    rw [List.foldlM_cons, Option.bind_eq_bind, Option.bind_eq_some_iff, overwrite_cons,
      List.forall_mem_cons, and_assoc]
    constructor
    · rintro ⟨next, step, done⟩
      obtain ⟨notEvicted, -, -, rfl⟩ := supplyStep_eq_some.mp step
      rw [previous_eq holds notEvicted, show totalAmount current - (slots entry.1).amount.toNat +
        entry.2.amount.toNat = totalAmount (update current entry.1 entry.2) by omega]
        at done
      exact ⟨notEvicted, tail.mp done⟩
    · rintro ⟨notEvicted, done⟩
      refine ⟨totalAmount (update current entry.1 entry.2),
        supplyStep_eq_some.mpr ⟨notEvicted, ?_⟩, tail.mpr done⟩
      rw [previous_eq holds notEvicted]
      omega

variable {updates : List (Nat × SlotValue)}

theorem forall_orderedMap_iff (Q : Nat → Prop) :
    (∀ entry ∈ orderedMap updates, Q entry.1) ↔ ∀ update ∈ updates, Q update.1 := by
  rw [← List.forall_mem_map (f := Prod.fst) (P := Q),
    ← List.forall_mem_map (f := Prod.fst) (P := Q)]
  simp only [mem_keys_orderedMap]

/-- Whatever the supply, a batch that touches an evicted segment is refused. -/
theorem notEvicted_of_supplyAfterSlotUpdates
    (accounted : chain.supplyAfterSlotUpdates updates = some supply) :
    ∀ update ∈ updates, update.1 < chain.state.numSlots →
      chain.state.segIdOf update.1 ∉ chain.state.evicted := by
  rw [← forall_orderedMap_iff fun index => index < chain.state.numSlots →
    chain.state.segIdOf index ∉ chain.state.evicted]
  unfold supplyAfterSlotUpdates at accounted
  revert accounted
  generalize chain.circulatingSupply = start
  generalize orderedMap updates = entries
  intro accounted
  induction entries generalizing start with
  | nil => simp
  | cons entry entries ih =>
    rw [List.foldlM_cons, Option.bind_eq_bind, Option.bind_eq_some_iff] at accounted
    obtain ⟨next, step, rest⟩ := accounted
    exact List.forall_mem_cons.mpr ⟨(supplyStep_eq_some.mp step).1, ih next rest⟩

/-- With an exact supply, a batch succeeds exactly when no touched segment is evicted, and the new
supply is exact. -/
theorem supplyAfterSlotUpdates_eq_some {slots : Nat → SlotValue} (holds : chain.state.Holds slots)
    (exact : chain.circulatingSupply = totalAmount slots)
    (bounded : ∀ update ∈ updates, update.1 < slotIndexBound) :
    chain.supplyAfterSlotUpdates updates = some supply ↔
      (∀ update ∈ updates, update.1 < chain.state.numSlots →
        chain.state.segIdOf update.1 ∉ chain.state.evicted) ∧
      totalAmount (overwrite slots updates) = supply := by
  rw [supplyAfterSlotUpdates, exact, foldlM_supplyStep holds (keysIncrease_orderedMap _).nodup
    ((forall_orderedMap_iff (· < slotIndexBound)).mpr bounded) (fun _ _ => rfl),
    overwrite_orderedMap]
  rw [forall_orderedMap_iff fun index => index < chain.state.numSlots →
    chain.state.segIdOf index ∉ chain.state.evicted]

end ChainState
end Jetsam
