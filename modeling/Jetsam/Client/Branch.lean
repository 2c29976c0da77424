import Jetsam.Client.Openings

/-!
# Registries along a branch

A block appends the registrations its objects open, so the entries registered up to a height are a
prefix of every later registry and a reorg to that height is a filter.
-/

namespace Jetsam

open Control List

def registrationsOf (objects : List ClientObject) : List ClientRegistration :=
  objects.filterMap fun
    | .registration object => some object
    | _ => none

def registryEntry (rules : ClientObjectRules) (height index : Nat) (object : ClientRegistration) :
    ClientRegistryEntry where
  index := index
  matrixDigest := object.matrixDigest
  matrixFileRoot := object.matrixFileRoot
  matrixFileLen := object.matrixFileLen
  registeredAt := height
  activeFrom := satAdd height (rules.activationDelayAt height)
  license := rules.destination.split rules.licenseMicro

/-- The entries of consecutive registrations, the first of them at `index`. -/
def registryEntries (rules : ClientObjectRules) (height : Nat) :
    Nat → List ClientRegistration → List ClientRegistryEntry
  | _, [] => []
  | index, object :: objects =>
    registryEntry rules height index object :: registryEntries rules height (index + 1) objects

structure Registrable (rules : ClientObjectRules) (batch : ClientBatchRules) (height : Nat)
    (object : ClientRegistration) : Prop where
  digest : object.matrixDigest ≠ 0
  fileRoot : object.matrixFileRoot ≠ 0
  fileLen : object.matrixFileLen ≠ 0 ∧ object.matrixFileLen.toNat ≤ rules.maxMatrixFileBytes
  listed : registrableAt rules batch height object.matrixDigest = true

/-- What the rules ask of the registrations of one block over the digests already there. -/
structure RegistrationsAllowed (rules : ClientObjectRules) (batch : ClientBatchRules)
    (height size : Nat) (registered : List Digest) (objects : List ClientRegistration) : Prop where
  registrable : ∀ object ∈ objects, Registrable rules batch height object
  distinct : (objects.map ClientRegistration.matrixDigest).Nodup
  fresh : ∀ object ∈ objects, object.matrixDigest ∉ registered
  room : objects ≠ [] →
    size + objects.length ≤ min rules.registryCapacity clientRegistryCapacity

section Scan

variable {D : Type} {rules : ClientObjectRules} {batch : ClientBatchRules} {height : Nat}
  {parent : BlockHeader D} {registry : ClientRegistryState}

variable {scan : ObjectsScan}

theorem scanObject_registers {next : ObjectsScan} {paid : MarkedGroup × ClientObject}
    (done : scanObject rules batch height parent registry scan paid = .ok next) :
    (∃ object, paid.2 = .registration object ∧ Registrable rules batch height object ∧
        object.matrixDigest ∉ scan.registered ∧
        registry.entries.length + scan.effect.registrations.length <
          min rules.registryCapacity clientRegistryCapacity ∧
        next.registered = object.matrixDigest :: scan.registered ∧
        next.effect.registrations = scan.effect.registrations ++
          [registryEntry rules height
            (registry.entries.length + scan.effect.registrations.length) object]) ∨
      registrationsOf [paid.2] = [] ∧ next.registered = scan.registered ∧
        next.effect.registrations = scan.effect.registrations := by
  obtain ⟨group, object⟩ := paid
  cases object with
  | registration object =>
    simp only [scanObject, scanRegistration, bind_eq_ok, require_eq_ok, exists_const,
      pure_eq_ok] at done
    obtain ⟨digest, fileRoot, fileLen, listed, fresh, room, _, -, rfl⟩ := done
    exact .inl ⟨object, rfl, ⟨digest, fileRoot, fileLen, listed⟩, fresh, room, rfl, rfl⟩
  | submission object =>
    simp only [scanObject, scanSubmission, bind_eq_ok, require_eq_ok, exists_const,
      pure_eq_ok] at done
    obtain ⟨-, -, -, -, -, -, rfl⟩ := done
    exact .inr ⟨rfl, rfl, rfl⟩
  | batchSubmission object =>
    simp only [scanObject, scanBatchSubmission, bind_eq_ok, require_eq_ok, exists_const,
      pure_eq_ok] at done
    obtain ⟨-, -, -, -, -, -, -, -, rfl⟩ := done
    exact .inr ⟨rfl, rfl, rfl⟩

theorem foldlM_scanObject_registers {final : ObjectsScan} {paid : List (MarkedGroup × ClientObject)}
    (done : paid.foldlM (scanObject rules batch height parent registry) scan = .ok final) :
    RegistrationsAllowed rules batch height
        (registry.entries.length + scan.effect.registrations.length) scan.registered
        (registrationsOf (paid.map Prod.snd)) ∧
      final.effect.registrations = scan.effect.registrations ++ registryEntries rules height
        (registry.entries.length + scan.effect.registrations.length)
        (registrationsOf (paid.map Prod.snd)) := by
  induction paid generalizing scan with
  | nil =>
    obtain rfl := foldlM_nil_eq_ok.mp done
    exact ⟨⟨by simp [registrationsOf], by simp [registrationsOf], by simp [registrationsOf],
      by simp [registrationsOf]⟩, by simp [registrationsOf, registryEntries]⟩
  | cons pair paid ih =>
    obtain ⟨middle, step, rest⟩ := foldlM_cons_eq_ok.mp done
    obtain ⟨allowed, appended⟩ := ih rest
    rcases scanObject_registers step with
      ⟨object, isRegistration, registrable, fresh, room, registered, registrations⟩ |
        ⟨nothing, registered, registrations⟩
    · have objects : registrationsOf ((pair :: paid).map Prod.snd) =
          object :: registrationsOf (paid.map Prod.snd) := by
        simp [registrationsOf, isRegistration]
      rw [registered, registrations, length_append, length_singleton, ← add_assoc] at allowed
      rw [registrations, length_append, length_singleton, ← add_assoc] at appended
      rw [objects]
      refine ⟨⟨forall_mem_cons.mpr ⟨registrable, allowed.registrable⟩, ?_, ?_, ?_⟩, ?_⟩
      · rw [map_cons, nodup_cons]
        refine ⟨fun mem => ?_, allowed.distinct⟩
        obtain ⟨later, inRest, same⟩ := mem_map.mp mem
        exact allowed.fresh later inRest (same ▸ mem_cons_self)
      · refine forall_mem_cons.mpr ⟨fresh, fun later inRest known => ?_⟩
        exact allowed.fresh later inRest (mem_cons_of_mem _ known)
      · intro _
        by_cases last : registrationsOf (paid.map Prod.snd) = []
        · rw [last]
          exact room
        · have := allowed.room last
          rw [length_cons]
          omega
      · rw [appended, registryEntries, append_assoc, singleton_append]
    · have objects : registrationsOf ((pair :: paid).map Prod.snd) =
          registrationsOf (paid.map Prod.snd) := by
        rw [map_cons, ← singleton_append, registrationsOf, filterMap_append]
        exact congrArg (· ++ _) nothing
      rw [registered, registrations] at allowed
      rw [registrations] at appended
      rw [objects]
      exact ⟨allowed, appended⟩

end Scan

variable {rules : ClientObjectRules} {batch : ClientBatchRules}

theorem accepted_registrations {D : Type} {hashes : ChainHashes D} {block : Block D}
    {objects : List ClientObject} {parent : BlockHeader D} {registry : ClientRegistryState}
    {effect : ClientObjectsEffect}
    (accepted : validateBlockClientObjectsWith hashes rules batch block objects parent registry =
      .ok effect) :
    RegistrationsAllowed rules batch block.header.height registry.entries.length
        (registry.entries.map ClientRegistryEntry.matrixDigest) (registrationsOf objects) ∧
      effect.registrations = registryEntries rules block.header.height registry.entries.length
        (registrationsOf objects) := by
  rcases validateBlockClientObjectsWith_eq_ok.mp accepted with
    ⟨-, rfl, rfl⟩ | ⟨-, marked, -, judged⟩
  · exact ⟨⟨by simp [registrationsOf], by simp [registrationsOf], by simp [registrationsOf],
      by simp [registrationsOf]⟩, rfl⟩
  · obtain ⟨opens, scan, scanned, rfl⟩ := judgeOpenings_eq_ok.mp judged
    have registers := foldlM_scanObject_registers scanned
    rw [map_snd_zip opens.1.ge] at registers
    simpa [startScan] using registers

variable {entry : ClientRegistryEntry}

section Entries

variable (rules : ClientObjectRules) (height index : Nat) (objects : List ClientRegistration)

@[simp]
theorem length_registryEntries :
    (registryEntries rules height index objects).length = objects.length := by
  induction objects generalizing index with
  | nil => rfl
  | cons object objects ih => simp [registryEntries, ih]

theorem map_index_registryEntries :
    (registryEntries rules height index objects).map ClientRegistryEntry.index =
      List.range' index objects.length := by
  induction objects generalizing index with
  | nil => rfl
  | cons object objects ih =>
    rw [registryEntries, map_cons, ih, length_cons, range'_succ]
    rfl

theorem map_digest_registryEntries :
    (registryEntries rules height index objects).map ClientRegistryEntry.matrixDigest =
      objects.map ClientRegistration.matrixDigest := by
  induction objects generalizing index with
  | nil => rfl
  | cons object objects ih =>
    rw [registryEntries, map_cons, ih]
    rfl

variable {rules height index objects}

theorem mem_registryEntries (mem : entry ∈ registryEntries rules height index objects) :
    ∃ object ∈ objects, entry = registryEntry rules height entry.index object := by
  induction objects generalizing index with
  | nil => simp [registryEntries] at mem
  | cons object objects ih =>
    rcases mem_cons.mp mem with rfl | later
    · exact ⟨object, mem_cons_self, rfl⟩
    · obtain ⟨source, inRest, given⟩ := ih later
      exact ⟨source, mem_cons_of_mem _ inRest, given⟩

end Entries

/-- At most sixteen entries, indexed by position, with distinct nonzero digests in the order of
registration. -/
structure RegistryShape (registry : ClientRegistryState) : Prop where
  size : registry.entries.length ≤ 16
  indexed : registry.entries.map ClientRegistryEntry.index = List.range registry.entries.length
  distinct : (registry.entries.map ClientRegistryEntry.matrixDigest).Nodup
  nonzero : ∀ entry ∈ registry.entries, entry.matrixDigest ≠ 0
  ordered : registry.entries.Pairwise fun earlier later => earlier.registeredAt ≤ later.registeredAt

/-- An entry comes from a registration the rules allow, at a height they govern. -/
structure EntryGiven (rules : ClientObjectRules) (batch : ClientBatchRules) (height : Nat)
    (entry : ClientRegistryEntry) : Prop where
  source : ∃ object, Registrable rules batch entry.registeredAt object ∧
    entry = registryEntry rules entry.registeredAt entry.index object
  active : rules.activeAt entry.registeredAt = true
  positive : 1 ≤ entry.registeredAt
  past : entry.registeredAt ≤ height

/-- What holds of the registry after the block at `height` of every branch. -/
structure RegistryInvariant (rules : ClientObjectRules) (batch : ClientBatchRules) (height : Nat)
    (registry : ClientRegistryState) : Prop where
  shape : RegistryShape registry
  capacity : registry.entries.length ≤ min rules.registryCapacity clientRegistryCapacity
  given : ∀ entry ∈ registry.entries, EntryGiven rules batch height entry

theorem registryInvariant_empty (rules : ClientObjectRules) (batch : ClientBatchRules)
    (height : Nat) : RegistryInvariant rules batch height ⟨[]⟩ where
  shape := ⟨by simp, rfl, nodup_nil, by simp, List.Pairwise.nil⟩
  capacity := Nat.zero_le _
  given := by simp

theorem EntryGiven.mono {height later : Nat} (given : EntryGiven rules batch height entry)
    (order : height ≤ later) : EntryGiven rules batch later entry :=
  ⟨given.source, given.active, given.positive, given.past.trans order⟩

/-- A point of a branch: a header and the registry after its block. -/
structure BranchPoint (D : Type) where
  header : BlockHeader D
  registry : ClientRegistryState

section Branches

variable {D : Type} {hashes : ChainHashes D} {rules : ClientObjectRules} {batch : ClientBatchRules}

/-- A block extends a branch at the next height when the object rules accept it there. -/
def BranchStep (hashes : ChainHashes D) (rules : ClientObjectRules) (batch : ClientBatchRules)
    (before after : BranchPoint D) : Prop :=
  ∃ (block : Block D) (effect : ClientObjectsEffect),
    block.header.height = before.header.height + 1 ∧
      validateBlockClientObjectsWith hashes rules batch block block.clientObjects before.header
        before.registry = .ok effect ∧
      after = ⟨block.header, before.registry.apply effect.registrations⟩

def Branch (hashes : ChainHashes D) (rules : ClientObjectRules) (batch : ClientBatchRules) :
    BranchPoint D → BranchPoint D → Prop :=
  Relation.ReflTransGen (BranchStep hashes rules batch)

variable {before after : BranchPoint D}

theorem RegistryInvariant.step
    (invariant : RegistryInvariant rules batch before.header.height before.registry)
    (step : BranchStep hashes rules batch before after) :
    RegistryInvariant rules batch after.header.height after.registry ∧
      after.header.height = before.header.height + 1 ∧
      ∃ added, after.registry.entries = before.registry.entries ++ added ∧
        ∀ entry ∈ added, entry.registeredAt = after.header.height := by
  obtain ⟨block, effect, next, accepted, rfl⟩ := step
  obtain ⟨allowed, appended⟩ := accepted_registrations accepted
  have current : ∀ entry ∈ effect.registrations, entry.registeredAt = block.header.height := by
    intro entry mem
    obtain ⟨object, -, given⟩ := mem_registryEntries (appended ▸ mem)
    rw [given]
    rfl
  have size : (before.registry.apply effect.registrations).entries.length =
      before.registry.entries.length + (registrationsOf block.clientObjects).length := by
    simp [ClientRegistryState.apply, appended]
  have capacity : (before.registry.apply effect.registrations).entries.length ≤
      min rules.registryCapacity clientRegistryCapacity := by
    by_cases none : registrationsOf block.clientObjects = []
    · rw [size, none]
      exact invariant.capacity
    · rw [size]
      exact allowed.room none
  have active : effect.registrations ≠ [] → rules.activeAt block.header.height = true := by
    intro some
    rcases validateBlockClientObjectsWith_eq_ok.mp accepted with ⟨-, -, rfl⟩ | ⟨active, -⟩
    · exact absurd rfl some
    · exact active
  have given : ∀ entry ∈ (before.registry.apply effect.registrations).entries,
      EntryGiven rules batch block.header.height entry := by
    rw [ClientRegistryState.apply, forall_mem_append]
    refine ⟨fun entry mem => (invariant.given entry mem).mono (by omega), ?_⟩
    intro entry mem
    have made := current entry mem
    obtain ⟨object, inBlock, source⟩ := mem_registryEntries (appended ▸ mem)
    exact ⟨⟨object, made ▸ allowed.registrable object inBlock, made ▸ source⟩,
      made ▸ active (ne_nil_of_mem mem), by omega, made.le⟩
  refine ⟨⟨⟨capacity.trans (min_le_right _ _), ?_, ?_, ?_, ?_⟩, capacity, given⟩, next,
    effect.registrations, rfl, current⟩
  · rw [size, ClientRegistryState.apply, map_append, appended, map_index_registryEntries,
      invariant.shape.indexed, range_eq_range', range_eq_range']
    have joined := @range'_append_1 0 before.registry.entries.length
      (registrationsOf block.clientObjects).length
    rwa [zero_add] at joined
  · rw [ClientRegistryState.apply, map_append, appended, map_digest_registryEntries, nodup_append']
    refine ⟨invariant.shape.distinct, allowed.distinct, fun digest known added => ?_⟩
    obtain ⟨object, inBlock, rfl⟩ := mem_map.mp added
    exact allowed.fresh object inBlock known
  · intro entry mem
    obtain ⟨object, registrable, source⟩ := (given entry mem).source
    rw [source]
    exact registrable.digest
  · rw [ClientRegistryState.apply, pairwise_append]
    refine ⟨invariant.shape.ordered, ?_, fun earlier old later new => ?_⟩
    · exact pairwise_of_forall_mem_list fun earlier first later second =>
        ((current earlier first).trans (current later second).symm).le
    · have := (invariant.given earlier old).past
      rw [current later new]
      omega

theorem RegistryInvariant.branch
    (invariant : RegistryInvariant rules batch before.header.height before.registry)
    (branch : Branch hashes rules batch before after) :
    RegistryInvariant rules batch after.header.height after.registry := by
  induction branch with
  | refl => exact invariant
  | tail _ step ih => exact (ih.step step).1

def ClientRegistryState.truncateAbove (registry : ClientRegistryState) (height : Nat) :
    ClientRegistryState :=
  ⟨registry.entries.filter fun entry => entry.registeredAt ≤ height⟩

theorem RegistryInvariant.truncateAbove {earlier later : BranchPoint D}
    (invariant : RegistryInvariant rules batch earlier.header.height earlier.registry)
    (branch : Branch hashes rules batch earlier later) :
    earlier.header.height ≤ later.header.height ∧
      later.registry.truncateAbove earlier.header.height = earlier.registry := by
  induction branch with
  | refl =>
    refine ⟨le_rfl, ?_⟩
    rw [ClientRegistryState.truncateAbove, filter_eq_self.mpr fun entry mem =>
      decide_eq_true (invariant.given entry mem).past]
  | tail passed step ih =>
    obtain ⟨order, truncated⟩ := ih
    obtain ⟨-, next, added, appended, current⟩ := (invariant.branch passed).step step
    have dropped : (added.filter fun entry => entry.registeredAt ≤ earlier.header.height) = [] := by
      refine filter_eq_nil_iff.mpr fun entry mem => ?_
      have := current entry mem
      rw [decide_eq_true_eq]
      omega
    refine ⟨by omega, ?_⟩
    rw [ClientRegistryState.truncateAbove, appended, filter_append, dropped, append_nil]
    exact truncated

end Branches

end Jetsam
