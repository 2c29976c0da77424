import Jetsam.Consensus.Validation

/-!
# Client objects of a block

From the activation height on, the objects of a block are exactly the openings of its markers, in
order, each paid by the transaction that carries its marker. No group may spend from a locked owner,
so what is paid into the pool stays there.
-/

namespace Jetsam

open Control List

inductive ClientObjectError where
  | objectsBeforeActivation
  | objectsDoNotMatchMarkers
  | multipleMarkersInTransaction (group : Nat)
  | markerCarriesValue (group : Nat)
  | markerInSystemRecord
  | spendFromLockedAddress (owner : Address)
  | nullMatrixDigest
  | nullMatrixFileRoot
  | matrixFileLength (len : BitVec 32) (max : Nat)
  | duplicateRegistration (matrixDigest : Digest)
  | notInCatalogue (matrixDigest : Digest)
  | registryFull (capacity : Nat)
  | licenseMissing (destination : Address) (required : Nat)
  | licenseUnderpaid (destination : Address) (required paid : Nat)
  | tooManySubmissions
  | clientNotRegistered (matrixDigest : Digest)
  | clientNotYetActive (matrixDigest : Digest) (activeFrom : Nat)
  | submissionFeeTooLow (required paid : Nat)
  | pageStream
  | clientSubmissionInBatchSlot
  | batchSubmissionBeforeV1_6
  | batchClassUnset
  | foreignBatchClass (batchClass : Digest)
  | batchCount (count max : Nat)
  deriving DecidableEq

structure ClientObjectsEffect where
  registrations : List ClientRegistryEntry
  submission : Option ClientSubmission
  batchSubmission : Option ClientBatchSubmission
  licenseDividend : Nat
  deriving DecidableEq

def liveOutputsOf (pages : List TxBody) : List TxOutput :=
  pages.flatMap fun page => page.liveOutputs.map Prod.snd

def paidTo (owner : Address) (pages : List TxBody) : Nat :=
  (((liveOutputsOf pages).filter (·.owner == owner)).map fun output => output.amount.toNat).sum

/-- A group with a marker: its facts, its pages, and what the marker announces. -/
structure MarkedGroup where
  facts : PagedSpendGroupFacts
  pages : List TxBody
  kind : ClientObjectKind
  owner : Address

section Rules

variable (rules : ClientObjectRules) (batch : ClientBatchRules) (height : Nat)

def noteMarker (group : Nat) (marker : Option (ClientObjectKind × Address)) (output : TxOutput) :
    Except ClientObjectError (Option (ClientObjectKind × Address)) :=
  match clientObjectMarkerKindAt batch height output.owner with
  | none => .ok marker
  | some kind => do
    require (output.amount = 0) (.markerCarriesValue group)
    require (marker = none) (.multipleMarkersInTransaction group)
    pure (some (kind, output.owner))

/-- Refuse spends from locked owners and collect the groups with a marker. -/
def collectMarked (user : List TxBody) :
    Nat → List PagedSpendGroupFacts → Except ClientObjectError (List MarkedGroup)
  | _, [] => pure []
  | index, group :: groups => do
    require (isClientLockedAddressAt batch height group.spend.inputOwner = false)
      (.spendFromLockedAddress group.spend.inputOwner)
    let pages := (user.drop group.startPage).take group.pageCount
    let marker ← (liveOutputsOf pages).foldlM (noteMarker batch height index) none
    let rest ← collectMarked user (index + 1) groups
    pure ((marker.map fun found => (⟨group, pages, found.1, found.2⟩ : MarkedGroup)).toList ++ rest)

/-- The paying transaction sends a destination its share; a treasury share has a treasury
address. -/
def checkShare (pages : List TxBody) (address : Option Address) (required : Nat) :
    Except ClientObjectError Unit :=
  if required = 0 then .ok ()
  else do
    let address := address.getD 0
    let paid := paidTo address pages
    require (paid ≠ 0) (.licenseMissing address required)
    require (required ≤ paid) (.licenseUnderpaid address required (paid % u64Bound))

def checkLicensePaid (pages : List TxBody) (split : LicenseSplit)
    (destination : LicenseDestination) : Except ClientObjectError Unit := do
  checkShare pages (some clientLicenseBurnAddress) split.burn
  checkShare pages (some clientLicensePoolAddress) split.miners
  checkShare pages destination.treasuryAddress split.treasury

/-- The entry a block may carry. -/
def ClientRegistryState.checkCarriable (registry : ClientRegistryState) (matrixDigest : Digest) :
    Except ClientObjectError ClientRegistryEntry := do
  let entry ← okOr (registry.entries.find? fun entry => entry.matrixDigest == matrixDigest)
    (.clientNotRegistered matrixDigest)
  require (rules.clientActiveAt entry height = true)
    (.clientNotYetActive matrixDigest (rules.effectiveActiveFrom entry))
  pure entry

structure ObjectsScan where
  registered : List Digest
  effect : ClientObjectsEffect

def scanRegistration (registry : ClientRegistryState) (scan : ObjectsScan) (group : MarkedGroup)
    (object : ClientRegistration) : Except ClientObjectError ObjectsScan := do
  require (object.matrixDigest ≠ 0) .nullMatrixDigest
  require (object.matrixFileRoot ≠ 0) .nullMatrixFileRoot
  require (object.matrixFileLen ≠ 0 ∧ object.matrixFileLen.toNat ≤ rules.maxMatrixFileBytes)
    (.matrixFileLength object.matrixFileLen rules.maxMatrixFileBytes)
  require (registrableAt rules batch height object.matrixDigest = true)
    (.notInCatalogue object.matrixDigest)
  require (object.matrixDigest ∉ scan.registered) (.duplicateRegistration object.matrixDigest)
  let index := registry.entries.length + scan.effect.registrations.length
  let capacity := min rules.registryCapacity clientRegistryCapacity
  require (index < capacity) (.registryFull capacity)
  let split := rules.destination.split rules.licenseMicro
  checkLicensePaid group.pages split rules.destination
  let entry : ClientRegistryEntry :=
    { index
      matrixDigest := object.matrixDigest
      matrixFileRoot := object.matrixFileRoot
      matrixFileLen := object.matrixFileLen
      registeredAt := height
      activeFrom := satAdd height (rules.activationDelayAt height)
      license := split }
  pure
    { registered := object.matrixDigest :: scan.registered
      effect := { scan.effect with registrations := scan.effect.registrations ++ [entry] } }

def checkSubmissionFee {D : Type} (parent : BlockHeader D) (group : MarkedGroup) :
    Except ClientObjectError Unit := do
  let spend := group.facts.spend
  let required := satAdd (feeBreakdown spend.liveInputs spend.liveOutputs parent.activeSlotCount
    parent.logSlots).requiredTotal rules.submissionFeeMicro
  require (required ≤ spend.fee.toNat) (.submissionFeeTooLow required spend.fee.toNat)

def scanSubmission {D : Type} (parent : BlockHeader D) (registry : ClientRegistryState)
    (scan : ObjectsScan) (group : MarkedGroup) (object : ClientSubmission) :
    Except ClientObjectError ObjectsScan := do
  require (batch.activeAt height = false) .clientSubmissionInBatchSlot
  require (scan.effect.submission = none) .tooManySubmissions
  let _ ← registry.checkCarriable rules height object.matrixDigest
  checkSubmissionFee rules parent group
  pure { scan with effect := { scan.effect with submission := some object } }

def scanBatchSubmission {D : Type} (parent : BlockHeader D) (scan : ObjectsScan)
    (group : MarkedGroup) (object : ClientBatchSubmission) :
    Except ClientObjectError ObjectsScan := do
  require (batch.activeAt height = true) .batchSubmissionBeforeV1_6
  require (scan.effect.batchSubmission = none) .tooManySubmissions
  let batchClass ← okOr batch.batchClass .batchClassUnset
  require (batchClass = object.batchClass) (.foreignBatchClass object.batchClass)
  require (object.count ≠ 0 ∧ object.count.toNat ≤ batch.maxClients)
    (.batchCount object.count.toNat batch.maxClients)
  checkSubmissionFee rules parent group
  pure { scan with effect := { scan.effect with batchSubmission := some object } }

/-- Judge one object with the group that pays for it. -/
def scanObject {D : Type} (parent : BlockHeader D) (registry : ClientRegistryState)
    (scan : ObjectsScan) (paid : MarkedGroup × ClientObject) :
    Except ClientObjectError ObjectsScan :=
  match paid.2 with
  | .registration object => scanRegistration rules batch height registry scan paid.1 object
  | .submission object => scanSubmission rules batch height parent registry scan paid.1 object
  | .batchSubmission object => scanBatchSubmission rules batch height parent scan paid.1 object

end Rules

def judgeClientObjects {D : Type} (hashes : ChainHashes D) (rules : ClientObjectRules)
    (batch : ClientBatchRules) (block : Block D) (objects : List ClientObject)
    (parent : BlockHeader D) (registry : ClientRegistryState) :
    Except ClientObjectError ClientObjectsEffect := do
  let height := block.header.height
  let stream ← mapError (fun _ => .pageStream)
    (validateBlockPageStream hashes.tx block.transactions)
  let system := block.transactions.take stream.userStartIndex
  let user := block.transactions.drop stream.userStartIndex
  require (∀ output ∈ liveOutputsOf system,
    (clientObjectMarkerKindAt batch height output.owner).isNone) .markerInSystemRecord
  let marked ← collectMarked batch height user 0 stream.groups
  require (marked.length = objects.length ∧ ∀ paid ∈ marked.zip objects,
      paid.2.kind = paid.1.kind ∧ paid.2.marker hashes.commitment = paid.1.owner)
    .objectsDoNotMatchMarkers
  let start : ObjectsScan :=
    { registered := registry.entries.map ClientRegistryEntry.matrixDigest
      effect := ⟨[], none, none, registry.licenseDividendAt height rules⟩ }
  let scan ← (marked.zip objects).foldlM (scanObject rules batch height parent registry) start
  pure scan.effect

/-- Native validation of a block's objects against the registry of its parent. -/
def validateBlockClientObjectsWith {D : Type} (hashes : ChainHashes D) (rules : ClientObjectRules)
    (batch : ClientBatchRules) (block : Block D) (objects : List ClientObject)
    (parent : BlockHeader D) (registry : ClientRegistryState) :
    Except ClientObjectError ClientObjectsEffect :=
  if rules.activeAt block.header.height then
    judgeClientObjects hashes rules batch block objects parent registry
  else do
    require (objects = []) .objectsBeforeActivation
    pure ⟨[], none, none, 0⟩

section Pool

variable {rules : ClientObjectRules} {batch : ClientBatchRules} {height : Nat}

theorem collectMarked_eq_ok {hasher : TxHasher} {user before : List TxBody}
    {groups : List PageGroup} {start index : Nat} {marked : List MarkedGroup}
    (begins : before.length = start) (split : user = before ++ groups.flatMap PageGroup.pages)
    (done : collectMarked batch height user index (groupFacts hasher start groups) = .ok marked) :
    (∀ group ∈ groups, isClientLockedAddressAt batch height group.1.inputOwner = false) ∧
      (marked.map MarkedGroup.pages).Sublist (groups.map PageGroup.pages) := by
  induction groups generalizing before start index marked with
  | nil =>
    simp only [groupFacts, collectMarked, pure_eq_ok] at done
    simp [← done]
  | cons group groups ih =>
    simp only [groupFacts, collectMarked, bind_eq_ok, require_eq_ok, exists_const,
      pure_eq_ok] at done
    obtain ⟨unlocked, marker, -, rest, restDone, rfl⟩ := done
    have slice : (user.drop start).take group.pages.length = group.pages := by
      rw [split, ← begins, drop_left, flatMap_cons, take_left]
    obtain ⟨restUnlocked, restSublist⟩ := @ih (before ++ group.pages)
      (start + group.pages.length) (index + 1) rest (by simp [begins])
      (by rw [split, flatMap_cons, append_assoc]) restDone
    refine ⟨forall_mem_cons.mpr ⟨unlocked, restUnlocked⟩, ?_⟩
    cases marker with
    | none => simpa using restSublist.cons group.pages
    | some found =>
      simp only [Option.map_some, Option.toList_some, singleton_append, map_cons, slice]
      exact restSublist.cons_cons group.pages

def minersShares (entries : List ClientRegistryEntry) : Nat :=
  (entries.map fun entry => entry.license.miners).sum

theorem checkShare_eq_ok {pages : List TxBody} {address : Address} {required : Nat} {done : Unit}
    (checked : checkShare pages (some address) required = .ok done) :
    required ≤ paidTo address pages := by
  unfold checkShare at checked
  split at checked
  · omega
  · simp only [bind_eq_ok, require_eq_ok, exists_const, Option.getD_some] at checked
    exact checked.2

variable {D : Type} {parent : BlockHeader D} {registry : ClientRegistryState}

theorem scanObject_shares {scan next : ObjectsScan} {paid : MarkedGroup × ClientObject}
    (done : scanObject rules batch height parent registry scan paid = .ok next) :
    minersShares next.effect.registrations ≤ minersShares scan.effect.registrations +
        paidTo clientLicensePoolAddress paid.1.pages ∧
      ((∀ entry ∈ scan.effect.registrations, entry.registeredAt = height) →
        ∀ entry ∈ next.effect.registrations, entry.registeredAt = height) := by
  obtain ⟨group, object⟩ := paid
  cases object with
  | registration object =>
    simp only [scanObject, scanRegistration, checkLicensePaid, bind_eq_ok, require_eq_ok,
      exists_const, pure_eq_ok] at done
    obtain ⟨-, -, -, -, -, -, _, ⟨_, -, _, pool, -⟩, rfl⟩ := done
    have paid := checkShare_eq_ok pool
    constructor
    · simp only [minersShares, map_append, sum_append, map_cons, map_nil, sum_cons, sum_nil]
      omega
    · intro current
      simp only [forall_mem_append, forall_mem_singleton]
      exact ⟨current, trivial⟩
  | submission object =>
    simp only [scanObject, scanSubmission, bind_eq_ok, require_eq_ok, exists_const,
      pure_eq_ok] at done
    obtain ⟨-, -, -, -, -, -, rfl⟩ := done
    exact ⟨Nat.le_add_right _ _, id⟩
  | batchSubmission object =>
    simp only [scanObject, scanBatchSubmission, bind_eq_ok, require_eq_ok, exists_const,
      pure_eq_ok] at done
    obtain ⟨-, -, -, -, -, -, -, -, rfl⟩ := done
    exact ⟨Nat.le_add_right _ _, id⟩

theorem foldlM_scanObject_shares {scan final : ObjectsScan}
    {paid : List (MarkedGroup × ClientObject)}
    (done : paid.foldlM (scanObject rules batch height parent registry) scan = .ok final)
    (current : ∀ entry ∈ scan.effect.registrations, entry.registeredAt = height) :
    minersShares final.effect.registrations ≤ minersShares scan.effect.registrations +
        (paid.map fun pair => paidTo clientLicensePoolAddress pair.1.pages).sum ∧
      ∀ entry ∈ final.effect.registrations, entry.registeredAt = height := by
  induction paid generalizing scan with
  | nil =>
    obtain rfl := foldlM_nil_eq_ok.mp done
    exact ⟨Nat.le_add_right _ _, current⟩
  | cons pair paid ih =>
    obtain ⟨middle, step, rest⟩ := foldlM_cons_eq_ok.mp done
    obtain ⟨bound, keeps⟩ := scanObject_shares step
    obtain ⟨restBound, final⟩ := ih rest (keeps current)
    rw [map_cons, sum_cons]
    exact ⟨by omega, final⟩

theorem judgeClientObjects_eq_ok {hashes : ChainHashes D} {block : Block D}
    {objects : List ClientObject} {effect : ClientObjectsEffect} {layout : BlockLayout}
    (records : block.transactions = layout.records) (accepted : layout.Accepted)
    (done : judgeClientObjects hashes rules batch block objects parent registry = .ok effect) :
    (∀ group ∈ layout.groups, group.1.inputOwner ≠ clientLicensePoolAddress) ∧
      minersShares effect.registrations ≤
        (layout.groups.map fun group => paidTo clientLicensePoolAddress group.pages).sum ∧
      ∀ entry ∈ effect.registrations, entry.registeredAt = block.header.height := by
  have stream : validateBlockPageStream hashes.tx block.transactions =
      .ok (layout.facts hashes.tx .v1) :=
    validateBlockPageStreamIn_eq_ok.mpr ⟨layout, records, accepted, rfl⟩
  simp only [judgeClientObjects, stream, bind_eq_ok, mapError_eq_ok, Except.ok.injEq,
    require_eq_ok, exists_const, pure_eq_ok, exists_eq_left'] at done
  obtain ⟨-, marked, collected, ⟨lengths, -⟩, scan, scanned, rfl⟩ := done
  rw [records, BlockLayout.facts, ChainState.drop_system] at collected
  obtain ⟨unlocked, sublist⟩ := collectMarked_eq_ok length_nil rfl collected
  obtain ⟨bound, current⟩ := foldlM_scanObject_shares scanned (by simp)
  refine ⟨fun group mem owned => ?_, ?_, current⟩
  · have locked := unlocked group mem
    simp [isClientLockedAddressAt, owned] at locked
  · calc
      minersShares scan.effect.registrations ≤
          ((marked.zip objects).map fun pair =>
            paidTo clientLicensePoolAddress pair.1.pages).sum := by
        simpa [minersShares] using bound
      _ = ((marked.map MarkedGroup.pages).map (paidTo clientLicensePoolAddress)).sum := by
        conv_rhs => rw [← map_fst_zip lengths.le]
        simp only [map_map, Function.comp_def]
      _ ≤ ((layout.groups.map PageGroup.pages).map (paidTo clientLicensePoolAddress)).sum :=
        (sublist.map _).sum_le_sum (by simp)
      _ = (layout.groups.map fun group => paidTo clientLicensePoolAddress group.pages).sum := by
        rw [map_map]
        rfl

end Pool

end Jetsam
