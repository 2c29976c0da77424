import Jetsam.Tx.Body
import Jetsam.Consensus.Params

/-!
# Client objects and the client registry

A registration appends a matrix digest and pays a license; the miners' share is issued again over
the following blocks, each share exactly once.
-/

namespace Jetsam

open Finset

def clientRegistryCapacity : Nat := 16

def clientLicenseBurnAddress : Address :=
  0x99c11b609d5dde3f38001d5b3aa75f071c22b166f2e556276f3bebb78821f6f0

/-- Owner that pools the miners' share of the license. -/
def clientLicensePoolAddress : Address :=
  0x5d1577375b7d9b60a4ae3dae1537e162adc798e8672e0f095075069755ff0498

/-- Marker tag `JTMCREG1`, first byte lowest. -/
def clientRegistrationMarkerTag : BitVec 64 := 0x31474552434d544a

/-- Marker tag `JTMCSUB1`, first byte lowest. -/
def clientSubmissionMarkerTag : BitVec 64 := 0x31425553434d544a

/-- Marker tag `JTMCBAT1`, first byte lowest. -/
def clientBatchSubmissionMarkerTag : BitVec 64 := 0x31544142434d544a

/-- Append a matrix digest to the registry. -/
structure ClientRegistration where
  matrixDigest : Digest
  matrixFileRoot : Digest
  matrixFileLen : BitVec 32
  deriving DecidableEq

/-- Pay the miner who carries a client proof. -/
structure ClientSubmission where
  matrixDigest : Digest
  ioCommitment : Digest
  deriving DecidableEq

/-- Pay the miner who carries a batch proof. -/
structure ClientBatchSubmission where
  batchClass : Digest
  statementsRoot : Digest
  count : BitVec 32
  deriving DecidableEq

inductive ClientObject where
  | registration (object : ClientRegistration)
  | submission (object : ClientSubmission)
  | batchSubmission (object : ClientBatchSubmission)
  deriving DecidableEq

inductive ClientObjectKind where
  | registration
  | submission
  | batchSubmission
  deriving DecidableEq

namespace ClientObject

def kind : ClientObject → ClientObjectKind
  | registration _ => .registration
  | submission _ => .submission
  | batchSubmission _ => .batchSubmission

def markerTag : ClientObject → BitVec 64
  | registration _ => clientRegistrationMarkerTag
  | submission _ => clientSubmissionMarkerTag
  | batchSubmission _ => clientBatchSubmissionMarkerTag

/-- Owner of the output that commits to an object: the tag of its kind and 24 bytes of its
commitment. -/
def marker (commitment : ClientObject → Digest) (object : ClientObject) : Address :=
  (commitment object <<< 64) ||| object.markerTag.setWidth 256

end ClientObject

structure LicenseSplit where
  burn : Nat
  miners : Nat
  treasury : Nat
  deriving DecidableEq

inductive LicenseDestination where
  | burn
  | miners
  | burnAndMiners (burnBps : Nat)
  | treasury (address : Address)
  deriving DecidableEq

/-- Split a license; rounding favours the burn. -/
def LicenseDestination.split (license : Nat) : LicenseDestination → LicenseSplit
  | burn => ⟨license, 0, 0⟩
  | miners => ⟨0, license, 0⟩
  | burnAndMiners burnBps =>
    let share := license * (10000 - min burnBps 10000) / 10000
    ⟨license - share, share, 0⟩
  | treasury _ => ⟨0, 0, license⟩

def LicenseDestination.treasuryAddress : LicenseDestination → Option Address
  | treasury address => some address
  | _ => none

structure ClientObjectRules where
  activationHeight : Option Nat
  licenseMicro : Nat
  destination : LicenseDestination
  submissionFeeMicro : Nat
  activationDelay : Nat
  shortActivationFrom : Option Nat
  shortActivationDelay : Nat
  dividendBlocks : Nat
  registryCapacity : Nat
  maxMatrixFileBytes : Nat
  /-- Matrix digests that may register. -/
  catalogue : List Digest

structure ClientRegistryEntry where
  index : Nat
  matrixDigest : Digest
  matrixFileRoot : Digest
  matrixFileLen : BitVec 32
  registeredAt : Nat
  activeFrom : Nat
  license : LicenseSplit
  deriving DecidableEq

namespace ClientObjectRules

def activeAt (rules : ClientObjectRules) (height : Nat) : Bool :=
  rules.activationHeight.any fun activation => decide (activation ≤ height)

def activationDelayAt (rules : ClientObjectRules) (registeredAt : Nat) : Nat :=
  if rules.shortActivationFrom.any fun start => decide (start ≤ registeredAt) then
    rules.shortActivationDelay
  else rules.activationDelay

def effectiveActiveFrom (rules : ClientObjectRules) (entry : ClientRegistryEntry) : Nat :=
  match rules.shortActivationFrom with
  | none => entry.activeFrom
  | some start =>
    min entry.activeFrom (max (satAdd entry.registeredAt rules.shortActivationDelay) start)

def clientActiveAt (rules : ClientObjectRules) (entry : ClientRegistryEntry) (height : Nat) :
    Bool :=
  decide (rules.effectiveActiveFrom entry ≤ height)

theorem activeAt_mono {rules : ClientObjectRules} {earlier later : Nat} (order : earlier ≤ later)
    (active : rules.activeAt earlier = true) : rules.activeAt later = true := by
  simp only [activeAt, Option.any_eq_true, decide_eq_true_eq] at active ⊢
  obtain ⟨activation, known, reached⟩ := active
  exact ⟨activation, known, reached.trans order⟩

end ClientObjectRules

structure ClientBatchRules where
  activationHeight : Option Nat
  batchClass : Option Digest
  maxClients : Nat
  catalogue : List Digest

def ClientBatchRules.activeAt (batch : ClientBatchRules) (height : Nat) : Bool :=
  batch.activationHeight.any fun activation => decide (activation ≤ height)

/-- The kind a marker owner announces under the first object rules. -/
def clientObjectMarkerKind (owner : Address) : Option ClientObjectKind :=
  let tag : BitVec 64 := owner.setWidth 64
  if tag = clientRegistrationMarkerTag then some .registration
  else if tag = clientSubmissionMarkerTag then some .submission
  else none

/-- The kind a marker owner announces at a height; the batch tag waits for the batch rules. -/
def clientObjectMarkerKindAt (batch : ClientBatchRules) (height : Nat) (owner : Address) :
    Option ClientObjectKind :=
  let tag : BitVec 64 := owner.setWidth 64
  if tag = clientRegistrationMarkerTag then some .registration
  else if tag = clientSubmissionMarkerTag then some .submission
  else if batch.activeAt height ∧ tag = clientBatchSubmissionMarkerTag then some .batchSubmission
  else none

def isClientLockedAddressAt (batch : ClientBatchRules) (height : Nat) (owner : Address) : Bool :=
  owner == clientLicenseBurnAddress || owner == clientLicensePoolAddress ||
    (clientObjectMarkerKindAt batch height owner).isSome

def registrableAt (rules : ClientObjectRules) (batch : ClientBatchRules) (height : Nat)
    (digest : Digest) : Bool :=
  if batch.activeAt height then batch.catalogue.contains digest
  else rules.catalogue.contains digest

structure ClientRegistryState where
  entries : List ClientRegistryEntry
  deriving DecidableEq

/-- What one license pays the miner at `height`: its share in equal parts, the remainder first. -/
def dividendOf (blocks : Nat) (entry : ClientRegistryEntry) (height : Nat) : Nat :=
  if 0 < entry.license.miners ∧ entry.registeredAt < height ∧
      height - entry.registeredAt ≤ blocks then
    entry.license.miners / blocks +
      if height = entry.registeredAt + 1 then entry.license.miners % blocks else 0
  else 0

def ClientObjectRules.dividendSpan (rules : ClientObjectRules) : Nat := max rules.dividendBlocks 1

/-- Coinbase raise owed to the miner of the block at `height`. -/
def ClientRegistryState.licenseDividendAt (registry : ClientRegistryState) (height : Nat)
    (rules : ClientObjectRules) : Nat :=
  min (registry.entries.map fun entry => dividendOf rules.dividendSpan entry height).sum u64Max

/-- What a license still owes the miners after `height`. -/
def outstandingOf (blocks : Nat) (entry : ClientRegistryEntry) (height : Nat) : Nat :=
  if height ≤ entry.registeredAt then entry.license.miners
  else (blocks - (height - entry.registeredAt)) * (entry.license.miners / blocks)

def ClientRegistryState.outstanding (registry : ClientRegistryState) (height : Nat)
    (rules : ClientObjectRules) : Nat :=
  (registry.entries.map fun entry => outstandingOf rules.dividendSpan entry height).sum

theorem outstandingOf_succ {blocks : Nat} (pos : 0 < blocks) (entry : ClientRegistryEntry)
    (height : Nat) :
    outstandingOf blocks entry (height + 1) + dividendOf blocks entry (height + 1) =
      outstandingOf blocks entry height := by
  have share := Nat.div_add_mod entry.license.miners blocks
  rcases lt_trichotomy height entry.registeredAt with before | first | later
  · simp only [outstandingOf, dividendOf]
    rw [if_pos (by omega), if_neg (by omega), if_pos (by omega), add_zero]
  · subst first
    simp only [outstandingOf, dividendOf]
    rw [if_neg (by omega), if_pos le_rfl, Nat.add_sub_cancel_left, if_pos trivial]
    by_cases paid : 0 < entry.license.miners
    · rw [if_pos ⟨paid, by omega, by omega⟩]
      calc
        (blocks - 1) * (entry.license.miners / blocks) +
            (entry.license.miners / blocks + entry.license.miners % blocks) =
            (blocks - 1 + 1) * (entry.license.miners / blocks) + entry.license.miners % blocks := by
          rw [Nat.succ_mul]
          omega
        _ = entry.license.miners := by rw [Nat.sub_add_cancel pos, share]
    · obtain nothing : entry.license.miners = 0 := by omega
      simp [nothing]
  · simp only [outstandingOf, dividendOf]
    rw [if_neg (show ¬height + 1 ≤ entry.registeredAt by omega),
      if_neg (show ¬height ≤ entry.registeredAt by omega),
      if_neg (show height + 1 ≠ entry.registeredAt + 1 by omega),
      show height + 1 - entry.registeredAt = height - entry.registeredAt + 1 by omega]
    generalize height - entry.registeredAt = age
    by_cases within : age + 1 ≤ blocks
    · rw [show blocks - age = blocks - (age + 1) + 1 by omega, Nat.succ_mul]
      by_cases paid : 0 < entry.license.miners
      · rw [if_pos ⟨paid, by omega, within⟩]
        rfl
      · obtain nothing : entry.license.miners = 0 := by omega
        simp [nothing]
    · rw [if_neg (by omega), Nat.sub_eq_zero_of_le (by omega),
        Nat.sub_eq_zero_of_le (show blocks ≤ age by omega), add_zero]

/-- Issuing a block's dividend lowers what is owed by at least as much. -/
theorem ClientRegistryState.outstanding_succ (registry : ClientRegistryState) (height : Nat)
    (rules : ClientObjectRules) :
    registry.outstanding (height + 1) rules + registry.licenseDividendAt (height + 1) rules ≤
      registry.outstanding height rules := by
  have pos : 0 < rules.dividendSpan := by
    unfold ClientObjectRules.dividendSpan
    omega
  have exact : registry.outstanding (height + 1) rules +
      (registry.entries.map fun entry => dividendOf rules.dividendSpan entry (height + 1)).sum =
        registry.outstanding height rules := by
    simp only [outstanding, ← List.sum_map_add, outstandingOf_succ pos]
  have saturated : registry.licenseDividendAt (height + 1) rules ≤
      (registry.entries.map fun entry => dividendOf rules.dividendSpan entry (height + 1)).sum :=
    min_le_left _ _
  omega

def ClientRegistryState.apply (registry : ClientRegistryState)
    (registrations : List ClientRegistryEntry) : ClientRegistryState :=
  ⟨registry.entries ++ registrations⟩

theorem ClientRegistryState.outstanding_apply (registry : ClientRegistryState)
    {registrations : List ClientRegistryEntry} {height : Nat} (rules : ClientObjectRules)
    (current : ∀ entry ∈ registrations, entry.registeredAt = height) :
    (registry.apply registrations).outstanding height rules =
      registry.outstanding height rules +
        (registrations.map fun entry => entry.license.miners).sum := by
  have shares : registrations.map (fun entry => outstandingOf rules.dividendSpan entry height) =
      registrations.map fun entry => entry.license.miners :=
    List.map_congr_left fun entry mem => by
      rw [outstandingOf, if_pos (current entry mem).ge]
  rw [outstanding, outstanding, apply, List.map_append, List.sum_append, shares]

end Jetsam
