import Jetsam.Client.Branch
import Jetsam.Tx.Wire

/-!
# Stored registries

The registry is stored as a version byte, a count and fixed entries. The decoder checks every rule
that a registry of a branch keeps.
-/

namespace Jetsam

open Control Wire List

def ClientRegistryEntry.encode (entry : ClientRegistryEntry) : List Byte :=
  [BitVec.ofNat 8 entry.index] ++ digestBytes entry.matrixDigest ++
    digestBytes entry.matrixFileRoot ++ leBytes 4 entry.matrixFileLen.toNat ++
    leBytes 8 entry.registeredAt ++ leBytes 8 entry.activeFrom ++ leBytes 8 entry.license.burn ++
    leBytes 8 entry.license.miners ++ leBytes 8 entry.license.treasury

def registryStateVersion : Byte := 1

def ClientRegistryState.encode (registry : ClientRegistryState) : List Byte :=
  [registryStateVersion, BitVec.ofNat 8 registry.entries.length] ++
    registry.entries.flatMap ClientRegistryEntry.encode

def takeEntry : Reader WireError ClientRegistryEntry := do
  let index ← takeByte
  let matrixDigest ← takeDigest
  let matrixFileRoot ← takeDigest
  let matrixFileLen ← takeU32
  let registeredAt ← readNat .truncated 8
  let activeFrom ← readNat .truncated 8
  let burn ← readNat .truncated 8
  let miners ← readNat .truncated 8
  let treasury ← readNat .truncated 8
  pure
    { index := index.toNat, matrixDigest, matrixFileRoot, matrixFileLen, registeredAt, activeFrom
      license := ⟨burn, miners, treasury⟩ }

/-- Whether an entry may follow the entries before it. -/
def CanonicalNext (before : List ClientRegistryEntry) (entry : ClientRegistryEntry) : Prop :=
  entry.index = before.length ∧ entry.matrixDigest ≠ 0 ∧ entry.registeredAt ≤ entry.activeFrom ∧
    (∀ previous ∈ before.getLast?, previous.registeredAt ≤ entry.registeredAt) ∧
    ∀ other ∈ before, other.matrixDigest ≠ entry.matrixDigest

instance (before : List ClientRegistryEntry) (entry : ClientRegistryEntry) :
    Decidable (CanonicalNext before entry) :=
  inferInstanceAs (Decidable (_ ∧ _ ∧ _ ∧ _ ∧ _))

/-- Read the entries one by one, each against the ones before it. -/
def takeEntries : List ClientRegistryEntry → Nat → Reader WireError (List ClientRegistryEntry)
  | before, 0 => pure before
  | before, count + 1 => do
    let entry ← takeEntry
    check (require (CanonicalNext before entry) .nonCanonicalBody)
    takeEntries (before ++ [entry]) count

def takeRegistry : Reader WireError ClientRegistryState := do
  let version ← takeByte
  check (require (version = registryStateVersion) .badMarker)
  let count ← takeByte
  check (require (count.toNat ≤ clientRegistryCapacity) .lengthOverflow)
  let entries ← takeEntries [] count.toNat
  pure ⟨entries⟩

def ClientRegistryState.decode (bytes : List Byte) : Except WireError ClientRegistryState := do
  let (registry, rest) ← takeRegistry bytes
  require (rest = []) .trailingBytes
  pure registry

structure EntryFits (entry : ClientRegistryEntry) : Prop where
  index : entry.index < 256
  registeredAt : entry.registeredAt < 256 ^ 8
  activeFrom : entry.activeFrom < 256 ^ 8
  burn : entry.license.burn < 256 ^ 8
  miners : entry.license.miners < 256 ^ 8
  treasury : entry.license.treasury < 256 ^ 8

theorem reads_entry : Reads takeEntry EntryFits ClientRegistryEntry.encode := by
  intro input entry rest
  simp only [takeEntry, run_bind_eq_ok, reads_takeByte _ _ _, reads_takeDigest _ _ _,
    reads_takeU32 _ _ _, reads_readNat _ _ _ _ _, run_pure_eq_ok, true_and,
    ClientRegistryEntry.encode, append_assoc]
  constructor
  · rintro ⟨index, _, rfl, digest, _, rfl, fileRoot, _, rfl, fileLen, _, rfl, registeredAt, _,
      ⟨registeredFits, rfl⟩, activeFrom, _, ⟨activeFits, rfl⟩, burn, _, ⟨burnFits, rfl⟩, miners, _,
      ⟨minersFit, rfl⟩, treasury, _, ⟨treasuryFits, rfl⟩, rfl, rfl⟩
    refine ⟨⟨index.isLt, registeredFits, activeFits, burnFits, minersFit, treasuryFits⟩, ?_⟩
    simp
  · rintro ⟨fits, rfl⟩
    refine ⟨_, _, rfl, _, _, rfl, _, _, rfl, _, _, rfl, _, _, ⟨fits.registeredAt, rfl⟩, _, _,
      ⟨fits.activeFrom, rfl⟩, _, _, ⟨fits.burn, rfl⟩, _, _, ⟨fits.miners, rfl⟩, _, _,
      ⟨fits.treasury, rfl⟩, ?_, rfl⟩
    rw [BitVec.toNat_ofNat, Nat.mod_eq_of_lt fits.index]

/-- Entries that may follow one another after the entries before them. -/
def CanonicalFrom : List ClientRegistryEntry → List ClientRegistryEntry → Prop
  | _, [] => True
  | before, entry :: entries =>
    EntryFits entry ∧ CanonicalNext before entry ∧ CanonicalFrom (before ++ [entry]) entries

theorem reads_entries (before : List ClientRegistryEntry) (count : Nat) :
    Reads (takeEntries before count)
      (fun all => ∃ entries, all = before ++ entries ∧ entries.length = count ∧
        CanonicalFrom before entries)
      fun all => (all.drop before.length).flatMap ClientRegistryEntry.encode := by
  induction count generalizing before with
  | zero =>
    intro input all rest
    simp only [takeEntries, run_pure_eq_ok]
    constructor
    · rintro ⟨rfl, rfl⟩
      exact ⟨⟨[], by simp, rfl, trivial⟩, by simp⟩
    · rintro ⟨⟨entries, rfl, none, -⟩, rfl⟩
      obtain rfl := eq_nil_of_length_eq_zero none
      simp
  | succ count ih =>
    intro input all rest
    simp only [takeEntries, run_bind_eq_ok, reads_entry _ _ _, run_check_eq_ok, require_eq_ok,
      ih _ _ _ _]
    constructor
    · rintro ⟨entry, _, ⟨fits, rfl⟩, -, _, ⟨next, rfl⟩, ⟨entries, rfl, size, canonical⟩, rfl⟩
      refine ⟨⟨entry :: entries, by simp, by simp [size], fits, next, canonical⟩, ?_⟩
      simp
    · rintro ⟨⟨entries, rfl, size, canonical⟩, rfl⟩
      cases entries with
      | nil => simp at size
      | cons entry entries =>
        obtain ⟨fits, next, later⟩ := canonical
        refine ⟨entry, entries.flatMap ClientRegistryEntry.encode ++ rest, ⟨fits, by simp⟩, (),
          _, ⟨next, rfl⟩, ⟨entries, by simp, Nat.succ.inj size, later⟩, by simp⟩

variable {registry : ClientRegistryState}

/-- A stored registry is accepted exactly when its entries follow one another by the rules, and only
in its own stored form. -/
theorem decode_registry_eq_ok {bytes : List Byte} :
    ClientRegistryState.decode bytes = .ok registry ↔
      registry.entries.length ≤ clientRegistryCapacity ∧ CanonicalFrom [] registry.entries ∧
        bytes = registry.encode := by
  simp only [ClientRegistryState.decode, bind_eq_ok, Prod.exists, require_eq_ok, exists_const,
    pure_eq_ok, takeRegistry, run_bind_eq_ok, reads_takeByte _ _ _, run_check_eq_ok,
    reads_entries _ _ _ _ _, run_pure_eq_ok, true_and, nil_append, length_nil,
    drop_zero, ClientRegistryState.encode]
  constructor
  · rintro ⟨_, _, ⟨_, _, rfl, _, ⟨rfl, rfl⟩, count, _, rfl, _, ⟨small, rfl⟩, entries, _,
      ⟨⟨_, rfl, size, canonical⟩, rfl⟩, rfl, rfl⟩, rfl, rfl⟩
    refine ⟨size ▸ small, canonical, ?_⟩
    simp [size]
  · rintro ⟨small, canonical, rfl⟩
    have counted : (BitVec.ofNat 8 registry.entries.length).toNat = registry.entries.length := by
      rw [BitVec.toNat_ofNat, Nat.mod_eq_of_lt]
      exact small.trans_lt (by decide)
    refine ⟨registry, [], ⟨_, _, rfl, _, ⟨rfl, rfl⟩, _, _, rfl, _, ⟨counted.trans_le small, rfl⟩,
      registry.entries, [], ⟨⟨registry.entries, rfl, counted.symm, canonical⟩, ?_⟩, rfl, rfl⟩, rfl,
      rfl⟩
    simp

theorem canonicalFrom_of_shape {before entries : List ClientRegistryEntry}
    (indexed : (before ++ entries).map ClientRegistryEntry.index =
      List.range (before ++ entries).length)
    (distinct : ((before ++ entries).map ClientRegistryEntry.matrixDigest).Nodup)
    (ordered : (before ++ entries).Pairwise fun earlier later =>
      earlier.registeredAt ≤ later.registeredAt)
    (nonzero : ∀ entry ∈ entries, entry.matrixDigest ≠ 0)
    (timely : ∀ entry ∈ entries, entry.registeredAt ≤ entry.activeFrom)
    (fits : ∀ entry ∈ entries, EntryFits entry) : CanonicalFrom before entries := by
  induction entries generalizing before with
  | nil => trivial
  | cons entry entries ih =>
    rw [forall_mem_cons] at nonzero timely fits
    have position : entry.index = before.length := by
      have found := congrArg (fun indices => indices[before.length]?) indexed
      simpa using found
    have apart := (pairwise_append.mp ordered).2.2
    have fresh : ∀ other ∈ before, other.matrixDigest ≠ entry.matrixDigest := by
      rw [map_append, nodup_append] at distinct
      intro other mem same
      exact distinct.2.2 _ (mem_map_of_mem mem) _ mem_cons_self same
    have later : CanonicalFrom (before ++ [entry]) entries := by
      rw [append_cons] at indexed distinct ordered
      exact ih indexed distinct ordered nonzero.2 timely.2 fits.2
    refine ⟨fits.1, ⟨position, nonzero.1, timely.1, fun previous last => ?_, fresh⟩, later⟩
    exact apart previous (mem_of_getLast? last) entry mem_cons_self

theorem LicenseDestination.split_le (license : Nat) (destination : LicenseDestination) :
    (destination.split license).burn ≤ license ∧ (destination.split license).miners ≤ license ∧
      (destination.split license).treasury ≤ license := by
  cases destination with
  | burn => simp [split]
  | miners => simp [split]
  | treasury address => simp [split]
  | burnAndMiners burnBps =>
    have share : license * (10000 - min burnBps 10000) / 10000 ≤ license := by
      have := Nat.mul_le_mul_left license (Nat.sub_le 10000 (min burnBps 10000))
      omega
    exact ⟨Nat.sub_le _ _, share, Nat.zero_le _⟩

theorem RegistryInvariant.decode_encode {rules : ClientObjectRules} {batch : ClientBatchRules}
    {height : Nat} (invariant : RegistryInvariant rules batch height registry)
    (licenseFits : rules.licenseMicro < u64Bound) (heightFits : height < u64Bound) :
    ClientRegistryState.decode registry.encode = .ok registry := by
  have word : u64Bound = 256 ^ 8 := by decide
  have given := invariant.given
  refine decode_registry_eq_ok.mpr ⟨invariant.shape.size, canonicalFrom_of_shape
    invariant.shape.indexed invariant.shape.distinct invariant.shape.ordered
    invariant.shape.nonzero ?_ ?_, rfl⟩
  · intro entry mem
    obtain ⟨object, -, source⟩ := (given entry mem).source
    have past := (given entry mem).past
    have active : entry.activeFrom =
        satAdd entry.registeredAt (rules.activationDelayAt entry.registeredAt) :=
      congrArg ClientRegistryEntry.activeFrom source
    rw [active, satAdd, u64Max]
    omega
  · intro entry mem
    obtain ⟨object, -, source⟩ := (given entry mem).source
    have past := (given entry mem).past
    have active : entry.activeFrom =
        satAdd entry.registeredAt (rules.activationDelayAt entry.registeredAt) :=
      congrArg ClientRegistryEntry.activeFrom source
    have license : entry.license = rules.destination.split rules.licenseMicro :=
      congrArg ClientRegistryEntry.license source
    obtain ⟨burn, miners, treasury⟩ :=
      LicenseDestination.split_le rules.licenseMicro rules.destination
    have inRange : entry.index ∈ List.range registry.entries.length :=
      invariant.shape.indexed ▸ mem_map_of_mem mem
    have small := mem_range.mp inRange
    have size := invariant.shape.size
    refine ⟨by omega, by omega, ?_, ?_, ?_, ?_⟩
    · rw [active, satAdd, u64Max]
      omega
    all_goals
      rw [license]
      omega

/-- Along a branch, truncation takes a registry back to every earlier height, registries keep their
shape, and they are stored in one form only. -/
theorem registry_along_branch {D : Type} (hashes : ChainHashes D) (rules : ClientObjectRules)
    (batch : ClientBatchRules) (genesis : BlockHeader D) (earlier later : BranchPoint D)
    (reached : Branch hashes rules batch ⟨genesis, ⟨[]⟩⟩ earlier)
    (onward : Branch hashes rules batch earlier later)
    (licenseFits : rules.licenseMicro < u64Bound) (heightFits : later.header.height < u64Bound) :
    later.registry.truncateAbove earlier.header.height = earlier.registry ∧
      RegistryShape later.registry ∧
      ClientRegistryState.decode later.registry.encode = .ok later.registry ∧
      ∀ bytes registry, ClientRegistryState.decode bytes = .ok registry →
        registry.encode = bytes := by
  have invariant := (registryInvariant_empty rules batch genesis.height).branch reached
  have final := invariant.branch onward
  refine ⟨(invariant.truncateAbove onward).2, final.shape,
    final.decode_encode licenseFits heightFits, ?_⟩
  intro bytes registry decoded
  exact (decode_registry_eq_ok.mp decoded).2.2.symm

def originHeader : BlockHeader Unit := ⟨0, (), 0, 0, 0, 0, 0, 0, 24, 0, 0⟩

def markerRegistry : ClientRegistryState :=
  ⟨[registryEntry openRules 1 0 ⟨1, 1, 1⟩]⟩

theorem branch_marker :
    Branch openHashes openRules noBatch ⟨originHeader, ⟨[]⟩⟩ ⟨markerHeader, markerRegistry⟩ := by
  refine Relation.ReflTransGen.single ⟨⟨markerHeader, [emptyCoinbase, markerPage],
    [openRegistration 1]⟩, ⟨markerRegistry.entries, none, none, 0⟩, rfl, ?_, rfl⟩
  decide +kernel

theorem registry_along_branch_marker :
    markerRegistry.truncateAbove 0 = ⟨[]⟩ ∧ RegistryShape markerRegistry ∧
      ClientRegistryState.decode markerRegistry.encode = .ok markerRegistry := by
  obtain ⟨truncated, shape, stored, -⟩ := registry_along_branch openHashes openRules noBatch
    originHeader ⟨originHeader, ⟨[]⟩⟩ ⟨markerHeader, markerRegistry⟩ Relation.ReflTransGen.refl
    branch_marker (by decide) (by decide)
  exact ⟨truncated, shape, stored⟩

end Jetsam
