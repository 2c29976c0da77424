import Jetsam.Client.Branch
import Jetsam.Control.Refusals

/-!
# Registrations held for a block

A node relays a registration and its paying transaction without the height of the block that will
carry them. Its scan for markers reads two tags; a block under the batch rules reads a third. The
scans agree on every transaction that pays no owner with the batch tag.
-/

namespace Jetsam

open Control List

section Checks

variable (commitment : ClientObject → Digest) (rules : ClientObjectRules)
  (batch : ClientBatchRules) (pages : List TxBody) (registration : ClientRegistration)

def checkRegistrationShape : Except ClientObjectError Unit := do
  require (registration.matrixDigest ≠ 0) .nullMatrixDigest
  require (registration.matrixFileRoot ≠ 0) .nullMatrixFileRoot
  require (registration.matrixFileLen ≠ 0 ∧
      registration.matrixFileLen.toNat ≤ rules.maxMatrixFileBytes)
    (.matrixFileLength registration.matrixFileLen rules.maxMatrixFileBytes)

/-- A registration that some block may carry: its shape, and its digest in a catalogue. -/
def checkRegistrationRelayable : Except ClientObjectError Unit := do
  checkRegistrationShape rules registration
  require (rules.catalogue.contains registration.matrixDigest = true ∨
      batch.activationHeight.isSome = true ∧
        batch.catalogue.contains registration.matrixDigest = true)
    (.notInCatalogue registration.matrixDigest)

def relayMarkers : List TxOutput :=
  (liveOutputsOf pages).filter fun output => (clientObjectMarkerKind output.owner).isSome

/-- One marker of no value, the registration's own. -/
def checkSoleMarker : List TxOutput → Except ClientObjectError Unit
  | [output] => do
    require (output.owner = (ClientObject.registration registration).marker commitment)
      .objectsDoNotMatchMarkers
    require (output.amount = 0) (.markerCarriesValue 0)
  | _ :: _ :: _ => .error (.multipleMarkersInTransaction 0)
  | [] => .error .objectsDoNotMatchMarkers

/-- The pages open exactly the registration and pay its license. -/
def checkRegistrationPaid : Except ClientObjectError Unit := do
  checkSoleMarker commitment registration (relayMarkers pages)
  checkLicensePaid pages (rules.destination.split rules.licenseMicro) rules.destination

/-- The checks of a registration and of its paying transaction before it is held or relayed. -/
def checkRegistrationPaymentRelayable : Except ClientObjectError Unit := do
  checkRegistrationRelayable rules batch registration
  checkRegistrationPaid commitment rules pages registration

end Checks

/-- Whether a refusal concerns the markers of the user groups. -/
def ClientObjectError.concernsMarkers : ClientObjectError → Bool
  | .multipleMarkersInTransaction _ | .markerCarriesValue _ | .objectsDoNotMatchMarkers => true
  | _ => false

/-- The pages are the only user group of a body with a valid record layout. -/
def OnlyGroup (hasher : TxHasher) (transactions pages : List TxBody) : Prop :=
  ∀ facts, validateBlockPageStream hasher transactions = .ok facts →
    facts.groups.length = 1 ∧ transactions.drop facts.userStartIndex = pages

instance (hasher : TxHasher) (transactions pages : List TxBody) :
    Decidable (OnlyGroup hasher transactions pages) :=
  match layout : validateBlockPageStream hasher transactions with
  | .ok facts =>
    decidable_of_iff (facts.groups.length = 1 ∧ transactions.drop facts.userStartIndex = pages)
      ⟨fun single _ valid => Except.ok.inj (layout.symm.trans valid) ▸ single,
        fun only => only facts layout⟩
  | .error _ => isTrue fun _ valid => nomatch layout.symm.trans valid

/-- No live output of the pages is owned by an address with the batch tag. -/
def AvoidsBatchTag (pages : List TxBody) : Prop :=
  ∀ output ∈ liveOutputsOf pages, output.owner.setWidth 64 ≠ clientBatchSubmissionMarkerTag

instance (pages : List TxBody) : Decidable (AvoidsBatchTag pages) :=
  inferInstanceAs (Decidable (∀ _ ∈ _, _))

variable {commitment : ClientObject → Digest} {registration : ClientRegistration}
  {pages : List TxBody}

variable {output : TxOutput}

section Scans

variable {batch : ClientBatchRules} {height : Nat}

theorem setWidth_marker (commitment : ClientObject → Digest) (object : ClientObject) :
    (object.marker commitment).setWidth 64 = object.markerTag := by
  simp [ClientObject.marker]

theorem clientObjectMarkerKindAt_marker (commitment : ClientObject → Digest)
    (registration : ClientRegistration) :
    clientObjectMarkerKindAt batch height
      ((ClientObject.registration registration).marker commitment) = some .registration := by
  rw [clientObjectMarkerKindAt, setWidth_marker]
  exact if_pos rfl

/-- Without the batch tag, an owner announces at every height what it announces to the relay. -/
theorem clientObjectMarkerKindAt_eq {owner : Address}
    (other : owner.setWidth 64 ≠ clientBatchSubmissionMarkerTag) :
    clientObjectMarkerKindAt batch height owner = clientObjectMarkerKind owner := by
  simp [clientObjectMarkerKindAt, clientObjectMarkerKind, other]

theorem foldlM_noteMarker_filter (group : Nat) (outputs : List TxOutput)
    (marker : Option (ClientObjectKind × Address)) :
    outputs.foldlM (noteMarker batch height group) marker =
      (outputs.filter fun output =>
        (clientObjectMarkerKindAt batch height output.owner).isSome).foldlM
          (noteMarker batch height group) marker := by
  induction outputs generalizing marker with
  | nil => rfl
  | cons output outputs ih =>
    cases kind : clientObjectMarkerKindAt batch height output.owner with
    | none =>
      have passes : noteMarker batch height group marker output = .ok marker := by
        rw [noteMarker, kind]
      rw [filter_cons_of_neg (by simp [kind]), foldlM_cons, bind_of_ok passes, ih]
    | some announced =>
      rw [filter_cons_of_pos (by simp [kind]), foldlM_cons, foldlM_cons]
      exact congrArg _ (funext ih)

theorem foldlM_noteMarker_relayed (avoids : AvoidsBatchTag pages)
    (found : relayMarkers pages = [output])
    (opens : output.owner = (ClientObject.registration registration).marker commitment)
    (valueless : output.amount = 0) (group : Nat) :
    (liveOutputsOf pages).foldlM (noteMarker batch height group) none =
      .ok (some (.registration, output.owner)) := by
  have same : ((liveOutputsOf pages).filter fun output =>
      (clientObjectMarkerKindAt batch height output.owner).isSome) = relayMarkers pages := by
    apply filter_congr
    intro output mem
    rw [clientObjectMarkerKindAt_eq (avoids output mem)]
  have kind : clientObjectMarkerKindAt batch height output.owner = some .registration := by
    rw [opens, clientObjectMarkerKindAt_marker]
  rw [foldlM_noteMarker_filter, same, found, foldlM_cons, noteMarker, kind]
  simp [Control.require, valueless, bind, Except.bind, pure, Except.pure]

end Scans

/-- What the relay check establishes about the markers of the pages. -/
theorem checkRegistrationPaymentRelayable_markers {rules : ClientObjectRules}
    {batch : ClientBatchRules}
    (relayed : checkRegistrationPaymentRelayable commitment rules batch pages registration =
      .ok ()) :
    ∃ output, relayMarkers pages = [output] ∧
      output.owner = (ClientObject.registration registration).marker commitment ∧
      output.amount = 0 := by
  obtain ⟨_, -, paid⟩ := bind_eq_ok.mp relayed
  obtain ⟨_, marked, -⟩ := bind_eq_ok.mp paid
  cases markers : relayMarkers pages with
  | nil => simp [markers, checkSoleMarker] at marked
  | cons output others =>
    cases others with
    | nil =>
      simp only [markers, checkSoleMarker, bind_eq_ok, require_eq_ok, exists_const] at marked
      exact ⟨output, rfl, marked.1, marked.2⟩
    | cons second others => simp [markers, checkSoleMarker] at marked

section Judgement

variable {D : Type} {hashes : ChainHashes D} {rules : ClientObjectRules}
  {batch : ClientBatchRules} {block : Block D}

/-- Refusals that have nothing to do with the markers. -/
def Unmarked (error : ClientObjectError) : Prop := error.concernsMarkers = false

theorem checkShare_refuses (pages : List TxBody) (address : Option Address) (required : Nat) :
    RefusesOnly Unmarked (checkShare pages address required) := by
  rw [checkShare]
  split
  · exact RefusesOnly.ok ()
  · apply RefusesOnly.require_bind
    · rfl
    · exact fun _ => RefusesOnly.require rfl

theorem checkLicensePaid_refuses (pages : List TxBody) (split : LicenseSplit)
    (destination : LicenseDestination) :
    RefusesOnly Unmarked (checkLicensePaid pages split destination) := by
  apply (checkShare_refuses _ _ _).bind
  intro _ _
  apply (checkShare_refuses _ _ _).bind
  intro _ _
  exact checkShare_refuses _ _ _

theorem scanRegistration_refuses (registry : ClientRegistryState) (scan : ObjectsScan)
    (group : MarkedGroup) (object : ClientRegistration) :
    RefusesOnly Unmarked
      (scanRegistration rules batch block.header.height registry scan group object) := by
  -- six rules that the registration and the registry alone decide, then the license
  iterate 6 refine RefusesOnly.require_bind (by rfl) fun _ => ?_
  apply (checkLicensePaid_refuses _ _ _).bind
  intro _ _
  exact RefusesOnly.ok _

variable {hasher : TxHasher}

theorem OnlyGroup.layout {transactions : List TxBody} (only : OnlyGroup hasher transactions pages)
    {facts : BlockPageStreamFacts}
    (valid : validateBlockPageStream hasher transactions = .ok facts) :
    ∃ group : PageGroup, group.pages = pages ∧ facts.groups = groupFacts hasher 0 [group] := by
  obtain ⟨single, user⟩ := only facts valid
  obtain ⟨layout, rfl, accepted, rfl⟩ := validateBlockPageStreamIn_eq_ok.mp valid
  obtain ⟨group, alone⟩ : ∃ group, layout.groups = [group] := by
    simpa [BlockLayout.facts, length_eq_one_iff] using single
  refine ⟨group, ?_, congrArg (groupFacts hasher 0) alone⟩
  rw [← user, BlockLayout.facts, BlockLayout.records, drop_left, BlockLayout.pages, alone]
  simp

theorem collectMarked_relayed {height : Nat} {group : PageGroup}
    (avoids : AvoidsBatchTag group.pages) (found : relayMarkers group.pages = [output])
    (opens : output.owner = (ClientObject.registration registration).marker commitment)
    (valueless : output.amount = 0) :
    collectMarked batch height group.pages 0 (groupFacts hasher 0 [group]) = (do
      let spend := pagedSpendFacts hasher group.1 group.2
      require (isClientLockedAddressAt batch height spend.inputOwner = false)
        (.spendFromLockedAddress spend.inputOwner)
      pure [⟨⟨0, group.pages.length, spend⟩, group.pages, .registration, output.owner⟩]) := by
  have noted : (liveOutputsOf group.pages).foldlM (noteMarker batch height 0) none =
      .ok (some (.registration, output.owner)) :=
    foldlM_noteMarker_relayed avoids found opens valueless 0
  simp only [groupFacts, collectMarked, drop_zero, take_length, noted]
  rfl

theorem blockMarkers_relayed (only : OnlyGroup hashes.tx block.transactions pages)
    (relayed : checkRegistrationPaymentRelayable hashes.commitment rules batch pages registration =
      .ok ()) (avoids : AvoidsBatchTag pages) :
    RefusesOnly Unmarked (blockMarkers hashes batch block) ∧
      ∀ marked, blockMarkers hashes batch block = .ok marked →
        Opens hashes.commitment marked [.registration registration] := by
  obtain ⟨output, found, opens, valueless⟩ := checkRegistrationPaymentRelayable_markers relayed
  constructor
  · refine RefusesOnly.bind (RefusesOnly.mapError (by exact fun _ => rfl) _) fun facts valid => ?_
    obtain ⟨group, rfl, groups⟩ := only.layout (mapError_eq_ok.mp valid)
    refine RefusesOnly.require_bind (by rfl) fun _ => ?_
    rw [(only facts (mapError_eq_ok.mp valid)).2, groups,
      collectMarked_relayed avoids found opens valueless]
    exact RefusesOnly.require_bind (by rfl) fun _ => RefusesOnly.ok _
  · intro marked markers
    simp only [blockMarkers, bind_eq_ok, mapError_eq_ok, require_eq_ok, exists_const] at markers
    obtain ⟨facts, valid, -, done⟩ := markers
    obtain ⟨group, rfl, groups⟩ := only.layout valid
    rw [(only facts valid).2, groups, collectMarked_relayed avoids found opens valueless] at done
    simp only [require_bind_eq_ok, pure_eq_ok] at done
    obtain ⟨-, rfl⟩ := done
    simp [Opens, ClientObject.kind, opens]

end Judgement

/-- Batch rules in force at every height, with the first digest in their catalogue. -/
def openBatch : ClientBatchRules := ⟨some 0, some 9, 4, [1]⟩

/-- The sample page with a second, worthless output for an owner with the batch tag. -/
def taggedPage : TxBody :=
  { markerPage with
    outputs := ![⟨2, 0, (openRegistration 1).marker openCommitment⟩,
      ⟨3, 0, clientBatchSubmissionMarkerTag.setWidth 256⟩]
    validityBitmap := 0x301 ||| pagedSpendStartBit ||| pagedSpendEndBit }

/-- The registry that already holds the first digest. -/
def takenRegistry : ClientRegistryState := ⟨[⟨0, 1, 1, 1, 0, 0, ⟨0, 0, 0⟩⟩]⟩

end Jetsam
