import Jetsam.Consensus.TemplateComplete

/-!
# Zones of the allocator

The zone permutation is an affine map with an odd multiplier, and so a bijection modulo a power of
two. Two counters get the same slot only when they differ by a multiple of the slot count.
-/

namespace Jetsam

open Control List BitVec

variable {left right width : Nat}

theorem affine_mod_two_pow_injective {multiplier increment : Nat} (odd : multiplier % 2 = 1)
    (same : (left * multiplier + increment) % 2 ^ width =
      (right * multiplier + increment) % 2 ^ width) :
    left % 2 ^ width = right % 2 ^ width := by
  have coprime : Nat.gcd (2 ^ width) multiplier = 1 := by
    apply Nat.Coprime.pow_left
    rw [Nat.coprime_two_left, Nat.odd_iff]
    exact odd
  have scaled : left * multiplier ≡ right * multiplier [MOD 2 ^ width] :=
    Nat.ModEq.add_right_cancel' increment same
  exact Nat.ModEq.cancel_right_of_coprime coprime scaled

def zoneMultiplier (seed : BitVec 64) : BitVec 64 :=
  (splitmix64 (seed ^^^ 0xD1B54A32D192ED03)).2 ||| 1

def zoneIncrement (seed : BitVec 64) : BitVec 64 :=
  (splitmix64 (splitmix64 (seed ^^^ 0xD1B54A32D192ED03)).1).2

theorem zoneMultiplier_odd (seed : BitVec 64) : (zoneMultiplier seed).toNat % 2 = 1 := by
  rw [zoneMultiplier, toNat_or, ← Nat.and_one_is_mod, Nat.and_or_distrib_right,
    Nat.and_one_is_mod]
  have low := Nat.mod_two_eq_zero_or_one
    (splitmix64 (seed ^^^ 0xD1B54A32D192ED03)).2.toNat
  rcases low with even | odd
  · rw [even]
    rfl
  · rw [odd]
    rfl

theorem permuteZone_toNat (zoneId seed : BitVec 64) (narrow : width < 64) :
    (permuteZone zoneId (BitVec.ofNat 64 (2 ^ width)) seed).toNat =
      (zoneId.toNat * (zoneMultiplier seed).toNat + (zoneIncrement seed).toNat) % 2 ^ width := by
  have small : 2 ^ width < 2 ^ 64 := Nat.pow_lt_pow_right (by decide) narrow
  have value : (BitVec.ofNat 64 (2 ^ width)).toNat = 2 ^ width := Nat.mod_eq_of_lt small
  have mask : (BitVec.ofNat 64 (2 ^ width) - 1).toNat = 2 ^ width - 1 := by
    rw [toNat_sub_of_le (by rw [le_def, value]; exact Nat.two_pow_pos width), value]
    rfl
  have divides : 2 ^ width ∣ 2 ^ 64 := pow_dvd_pow 2 narrow.le
  rw [permuteZone, toNat_and, mask, Nat.and_two_pow_sub_one_eq_mod, toNat_add,
    toNat_mul, Nat.mod_mod_of_dvd _ divides, Nat.add_mod, Nat.mod_mod_of_dvd _ divides,
    ← Nat.add_mod]
  rfl

theorem permuteZone_injective (narrow : width < 64) (seed : BitVec 64)
    (same : (permuteZone (BitVec.ofNat 64 left) (BitVec.ofNat 64 (2 ^ width)) seed).toNat =
      (permuteZone (BitVec.ofNat 64 right) (BitVec.ofNat 64 (2 ^ width)) seed).toNat) :
    left % 2 ^ width = right % 2 ^ width := by
  have divides : 2 ^ width ∣ 2 ^ 64 := pow_dvd_pow 2 narrow.le
  rw [permuteZone_toNat _ _ narrow, permuteZone_toNat _ _ narrow] at same
  have agree := affine_mod_two_pow_injective (zoneMultiplier_odd seed) same
  rwa [toNat_ofNat, toNat_ofNat, Nat.mod_mod_of_dvd _ divides,
    Nat.mod_mod_of_dvd _ divides] at agree

/-- The segment of a counter in a domain of more than one zone. -/
def zoneSegment (logSlots counter : Nat) : Nat :=
  (permuteZone (BitVec.ofNat 64 (counter / zoneCapacity))
    (BitVec.ofNat 64 (2 ^ (logSlots - 16))) (zoneSeed logSlots)).toNat

def zoneSlot (logSlots counter : Nat) : Nat :=
  zoneSegment logSlots counter * zoneCapacity + counter % zoneCapacity

section

variable {logSlots : Nat}

theorem zoneSegment_lt (high : logSlots ≤ 32) (counter : Nat) :
    zoneSegment logSlots counter < 2 ^ (logSlots - 16) := by
  apply permuteZone_lt _ _ (Nat.two_pow_pos _)
  exact Nat.pow_le_pow_right (by decide) (by omega)

theorem zoneSlot_lt (low : 17 ≤ logSlots) (high : logSlots ≤ 32) (counter : Nat) :
    zoneSlot logSlots counter < 2 ^ logSlots := by
  have segment := zoneSegment_lt high counter
  have slots : 2 ^ logSlots = 2 ^ (logSlots - 16) * 2 ^ 16 := by
    rw [← pow_add]
    congr 1
    omega
  rw [zoneSlot, zoneCapacity, slots]
  omega

theorem zoneSlot_injective (low : 17 ≤ logSlots) (high : logSlots ≤ 32)
    (same : zoneSlot logSlots left = zoneSlot logSlots right) :
    left % 2 ^ logSlots = right % 2 ^ logSlots := by
  have slots : 2 ^ logSlots = 2 ^ 16 * 2 ^ (logSlots - 16) := by
    rw [← pow_add]
    congr 1
    omega
  simp only [zoneSlot, zoneCapacity] at same
  have segments : zoneSegment logSlots left = zoneSegment logSlots right := by omega
  have offsets : left % 2 ^ 16 = right % 2 ^ 16 := by omega
  have zones := permuteZone_injective (show logSlots - 16 < 64 by omega) (zoneSeed logSlots)
    segments
  rw [zoneCapacity] at zones
  rw [slots, Nat.mod_mul, Nat.mod_mul, offsets, zones]

theorem zonedHints_eq_map (numZones : BitVec 64) (count counter : Nat) :
    zonedHints logSlots numZones count counter =
      (List.range' counter count).map fun counter =>
        BitVec.ofNat 32 ((permuteZone (BitVec.ofNat 64 (counter / zoneCapacity)) numZones
          (zoneSeed logSlots)).toNat * zoneCapacity + counter % zoneCapacity) := by
  induction count generalizing counter with
  | zero => rfl
  | succ count ih => rw [zonedHints, ih, range'_succ, map_cons]

section

variable (low : 17 ≤ logSlots)

include low

theorem generateSlotHints_eq_map (counter count : Nat) :
    generateSlotHints counter logSlots count =
      (List.range' counter count).map fun counter =>
        BitVec.ofNat 32 (zoneSlot logSlots counter) := by
  have large : ¬2 ^ logSlots ≤ zoneCapacity := by
    rw [zoneCapacity, not_le]
    exact Nat.pow_lt_pow_right (by decide) (by omega)
  have zones : 2 ^ logSlots / zoneCapacity = 2 ^ (logSlots - 16) :=
    Nat.pow_div (by omega) (by decide)
  rw [generateSlotHints, if_neg large, zonedHints_eq_map, zones]
  rfl

theorem toNat_ofNat_zoneSlot (high : logSlots ≤ 32) (counter : Nat) :
    (BitVec.ofNat 32 (zoneSlot logSlots counter)).toNat = zoneSlot logSlots counter := by
  have bound : 2 ^ logSlots ≤ 2 ^ 32 := Nat.pow_le_pow_right (by decide) high
  rw [toNat_ofNat, Nat.mod_eq_of_lt ((zoneSlot_lt low high counter).trans_le bound)]

theorem nodup_generateSlotHints (high : logSlots ≤ 32) (counter : Nat) {count : Nat}
    (few : count ≤ 2 ^ logSlots) :
    (generateSlotHints counter logSlots count).Nodup := by
  rw [generateSlotHints_eq_map low]
  apply List.Nodup.map_on _ (nodup_range' ..)
  intro left leftMember right rightMember same
  have slots : zoneSlot logSlots left = zoneSlot logSlots right := by
    rw [← toNat_ofNat_zoneSlot low high left, same, toNat_ofNat_zoneSlot low high right]
  have agree := zoneSlot_injective low high slots
  rw [mem_range'_1] at leftMember rightMember
  -- The counters are closer than the slot count.
  rcases le_total left right with order | order
  · have divides := (Nat.modEq_iff_dvd' order).mp agree
    have := Nat.eq_zero_of_dvd_of_lt divides (by omega)
    omega
  · have divides := (Nat.modEq_iff_dvd' order).mp agree.symm
    have := Nat.eq_zero_of_dvd_of_lt divides (by omega)
    omega

theorem perm_generateZoneSegmentHints (high : logSlots ≤ 32) (counter : Nat) {probes : Nat}
    (full : 2 ^ (logSlots - 16) ≤ probes) :
    ∃ segIds, generateZoneSegmentHints counter logSlots probes = some segIds ∧
      segIds.Perm (List.range (2 ^ (logSlots - 16))) := by
  have zones : 2 ^ (logSlots - 16) ≤ 2 ^ 16 := Nat.pow_le_pow_right (by decide) (by omega)
  let segment (offset : Nat) : Nat :=
    (permuteZone (BitVec.ofNat 64 (counter / zoneCapacity + offset))
      (BitVec.ofNat 64 (2 ^ (logSlots - 16))) (zoneSeed logSlots)).toNat
  have inside (offset : Nat) : segment offset < 2 ^ (logSlots - 16) :=
    permuteZone_lt _ _ (Nat.two_pow_pos _) zones
  have probed : generateZoneSegmentHints counter logSlots probes =
      some ((List.range (2 ^ (logSlots - 16))).map segment) := by
    have some_probe : probes ≠ 0 := by
      have := Nat.two_pow_pos (logSlots - 16)
      omega
    rw [generateZoneSegmentHints, if_neg some_probe, if_neg (by omega)]
    dsimp only
    rw [min_eq_right full]
    exact mapM_eq_some_map fun offset _ => if_pos ((inside offset).trans_le zones)
  have nodup : ((List.range (2 ^ (logSlots - 16))).map segment).Nodup := by
    apply List.Nodup.map_on _ nodup_range
    intro left leftMember right rightMember same
    rw [mem_range] at leftMember rightMember
    have agree := permuteZone_injective (show logSlots - 16 < 64 by omega) _ same
    have offsets := Nat.ModEq.add_left_cancel' _ agree
    exact Nat.ModEq.eq_of_lt_of_lt offsets leftMember rightMember
  refine ⟨_, probed, ?_⟩
  apply List.Subperm.perm_of_length_le
  · apply nodup.subperm
    intro segId mem
    obtain ⟨offset, -, rfl⟩ := mem_map.mp mem
    exact mem_range.mpr (inside offset)
  · rw [length_map]

end

/-- The hints of at most as many consecutive counters as there are slots are different slots of the
domain, and a full probe visits every segment once. -/
theorem allocator_hints_distinct (low : 17 ≤ logSlots) (high : logSlots ≤ 32) {counter count : Nat}
    (few : count ≤ 2 ^ logSlots) (_fits : counter + count ≤ 2 ^ 64) :
    (generateSlotHints counter logSlots count).length = count ∧
      (generateSlotHints counter logSlots count).Nodup ∧
      (∀ slot ∈ generateSlotHints counter logSlots count, slot.toNat < 2 ^ logSlots) ∧
      ∀ probes, 2 ^ (logSlots - 16) ≤ probes →
        ∃ segIds, generateZoneSegmentHints counter logSlots probes = some segIds ∧
          segIds.Perm (List.range (2 ^ (logSlots - 16))) := by
  refine ⟨?_, nodup_generateSlotHints low high counter few, ?_, ?_⟩
  · rw [generateSlotHints_eq_map low, List.length_map, List.length_range']
  · intro slot member
    rw [generateSlotHints_eq_map low] at member
    obtain ⟨other, -, rfl⟩ := List.mem_map.mp member
    rw [toNat_ofNat_zoneSlot low high]
    exact zoneSlot_lt low high other
  · intro probes full
    exact perm_generateZoneSegmentHints low high counter full

theorem allocator_hints_distinct_mid_zone :
    (generateSlotHints 65534 17 4).Nodup ∧
      ∃ segIds, generateZoneSegmentHints 65534 17 2 = some segIds ∧
        segIds.Perm (List.range 2) := by
  obtain ⟨-, nodup, -, probe⟩ := allocator_hints_distinct (show 17 ≤ 17 by decide)
    (show 17 ≤ 32 by decide) (show 4 ≤ 2 ^ 17 by decide) (show 65534 + 4 ≤ 2 ^ 64 by decide)
  exact ⟨nodup, probe 2 (by decide)⟩

end

end Jetsam
