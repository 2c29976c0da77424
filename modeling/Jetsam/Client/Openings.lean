import Jetsam.Client.Block

/-!
# Object lists as openings

The header commits to a block's objects only through the markers of its transactions. Two lists that
open the same markers are the same list unless two objects share a marker, so a refusal that
condemns the header concerns every list.
-/

namespace Jetsam

open Control List

/-- Whether a refusal proves the block invalid rather than the objects served with it. -/
def ClientObjectError.condemnsBlock : ClientObjectError → Bool
  | .objectsDoNotMatchMarkers | .objectsBeforeActivation => false
  | _ => true

def MarkersCollisionFree (commitment : ClientObject → Digest) (known : Set ClientObject) : Prop :=
  Set.InjOn (ClientObject.marker commitment) known

/-- The objects are exactly the openings of the markers, in order. -/
def Opens (commitment : ClientObject → Digest) (marked : List MarkedGroup)
    (objects : List ClientObject) : Prop :=
  marked.length = objects.length ∧ ∀ paid ∈ marked.zip objects,
    paid.2.kind = paid.1.kind ∧ paid.2.marker commitment = paid.1.owner

instance (commitment : ClientObject → Digest) (marked : List MarkedGroup)
    (objects : List ClientObject) : Decidable (Opens commitment marked objects) :=
  inferInstanceAs (Decidable (_ ∧ _))

variable {marked : List MarkedGroup}

section Openings

variable {commitment : ClientObject → Digest} {known : Set ClientObject}

theorem opens_cons {group : MarkedGroup} {objects : List ClientObject} :
    Opens commitment (group :: marked) objects ↔
      ∃ object rest, objects = object :: rest ∧ object.kind = group.kind ∧
        object.marker commitment = group.owner ∧ Opens commitment marked rest := by
  cases objects with
  | nil => simp [Opens]
  | cons object rest =>
    simp only [Opens, length_cons, Nat.add_right_cancel_iff, zip_cons_cons,
      forall_mem_cons, List.cons.injEq]
    constructor
    · rintro ⟨size, ⟨kind, marker⟩, others⟩
      exact ⟨object, rest, ⟨rfl, rfl⟩, kind, marker, size, others⟩
    · rintro ⟨_, _, ⟨rfl, rfl⟩, kind, marker, size, others⟩
      exact ⟨size, ⟨kind, marker⟩, others⟩

theorem Opens.unique (free : MarkersCollisionFree commitment known)
    {objects others : List ClientObject} (opens : Opens commitment marked objects)
    (otherOpens : Opens commitment marked others) (drawn : ∀ object ∈ objects, object ∈ known)
    (otherDrawn : ∀ object ∈ others, object ∈ known) : objects = others := by
  induction marked generalizing objects others with
  | nil =>
    have noObjects := eq_nil_of_length_eq_zero opens.1.symm
    have noOthers := eq_nil_of_length_eq_zero otherOpens.1.symm
    rw [noObjects, noOthers]
  | cons group marked ih =>
    obtain ⟨object, rest, rfl, -, marker, opensRest⟩ := opens_cons.mp opens
    obtain ⟨other, otherRest, rfl, -, otherMarker, otherOpensRest⟩ := opens_cons.mp otherOpens
    rw [forall_mem_cons] at drawn otherDrawn
    have same : object = other := free drawn.1 otherDrawn.1 (marker.trans otherMarker.symm)
    rw [same, ih opensRest otherOpensRest drawn.2 otherDrawn.2]

end Openings

section Judgement

variable {D : Type} (hashes : ChainHashes D) (rules : ClientObjectRules) (batch : ClientBatchRules)
  (block : Block D) (parent : BlockHeader D) (registry : ClientRegistryState)

/-- The markers of a block, with every rule that its transactions alone can break. -/
def blockMarkers : Except ClientObjectError (List MarkedGroup) := do
  let stream ← mapError (fun _ => .pageStream)
    (validateBlockPageStream hashes.tx block.transactions)
  require (∀ output ∈ liveOutputsOf (block.transactions.take stream.userStartIndex),
    (clientObjectMarkerKindAt batch block.header.height output.owner).isNone)
    .markerInSystemRecord
  collectMarked batch block.header.height (block.transactions.drop stream.userStartIndex) 0
    stream.groups

def startScan : ObjectsScan where
  registered := registry.entries.map ClientRegistryEntry.matrixDigest
  effect := ⟨[], none, none, registry.licenseDividendAt block.header.height rules⟩

/-- The judgement of an object list over the markers it has to open. -/
def judgeOpenings (objects : List ClientObject) (marked : List MarkedGroup) :
    Except ClientObjectError ClientObjectsEffect := do
  require (Opens hashes.commitment marked objects) .objectsDoNotMatchMarkers
  let scan ← (marked.zip objects).foldlM
    (scanObject rules batch block.header.height parent registry) (startScan rules block registry)
  pure scan.effect

theorem judgeClientObjects_eq (objects : List ClientObject) :
    judgeClientObjects hashes rules batch block objects parent registry =
      blockMarkers hashes batch block >>=
        judgeOpenings hashes rules batch block parent registry objects := by
  simp only [judgeClientObjects, blockMarkers, bind_assoc]
  rfl

variable {hashes rules batch block parent registry}

variable {objects : List ClientObject} {effect : ClientObjectsEffect}

theorem judgeOpenings_eq_ok :
    judgeOpenings hashes rules batch block parent registry objects marked = .ok effect ↔
      Opens hashes.commitment marked objects ∧
        ∃ scan, (marked.zip objects).foldlM
            (scanObject rules batch block.header.height parent registry)
            (startScan rules block registry) = .ok scan ∧ scan.effect = effect := by
  simp only [judgeOpenings, bind_eq_ok, require_eq_ok, exists_const, pure_eq_ok]

/-- What an accepted object list has to be, below the activation height and above it. -/
theorem validateBlockClientObjectsWith_eq_ok :
    validateBlockClientObjectsWith hashes rules batch block objects parent registry = .ok effect ↔
      (rules.activeAt block.header.height = false ∧ objects = [] ∧
          effect = ⟨[], none, none, 0⟩) ∨
        rules.activeAt block.header.height = true ∧
          ∃ marked, blockMarkers hashes batch block = .ok marked ∧
            judgeOpenings hashes rules batch block parent registry objects marked = .ok effect := by
  cases active : rules.activeAt block.header.height with
  | false =>
    simp only [validateBlockClientObjectsWith, active, Bool.false_eq_true, if_false, bind_eq_ok,
      require_eq_ok, exists_const, pure_eq_ok, true_and, false_and, or_false]
    exact and_congr_right fun _ => eq_comm
  | true =>
    simp only [validateBlockClientObjectsWith, active, if_true, judgeClientObjects_eq, bind_eq_ok,
      Bool.true_eq_false, false_and, true_and, false_or]

theorem accepted_objects_unique {known : Set ClientObject}
    (free : MarkersCollisionFree hashes.commitment known) {others : List ClientObject}
    (drawn : ∀ object ∈ objects, object ∈ known) (otherDrawn : ∀ object ∈ others, object ∈ known)
    {otherEffect : ClientObjectsEffect}
    (accepted : validateBlockClientObjectsWith hashes rules batch block objects parent registry =
      .ok effect)
    (otherAccepted : validateBlockClientObjectsWith hashes rules batch block others parent
      registry = .ok otherEffect) : objects = others := by
  rw [validateBlockClientObjectsWith_eq_ok] at accepted otherAccepted
  rcases accepted with ⟨inactive, rfl, -⟩ | ⟨active, marked, markers, judged⟩
  · rcases otherAccepted with ⟨-, rfl, -⟩ | ⟨active, -⟩
    · rfl
    · simp [inactive] at active
  · rcases otherAccepted with ⟨inactive, -⟩ | ⟨-, otherMarked, otherMarkers, otherJudged⟩
    · simp [inactive] at active
    · obtain rfl : marked = otherMarked := Except.ok.inj (markers.symm.trans otherMarkers)
      exact (judgeOpenings_eq_ok.mp judged).1.unique free (judgeOpenings_eq_ok.mp otherJudged).1
        drawn otherDrawn

/-- A condemning refusal comes from the transactions alone or from a list that opens the markers. -/
theorem condemned_cases {error : ClientObjectError}
    (refused : validateBlockClientObjectsWith hashes rules batch block objects parent registry =
      .error error) (condemns : error.condemnsBlock = true) :
    rules.activeAt block.header.height = true ∧
      ∀ marked, blockMarkers hashes batch block = .ok marked →
        Opens hashes.commitment marked objects := by
  cases active : rules.activeAt block.header.height with
  | false =>
    simp only [validateBlockClientObjectsWith, active, Bool.false_eq_true, if_false] at refused
    by_cases empty : objects = []
    · simp [require, empty, bind, Except.bind, pure, Except.pure] at refused
    · simp [require, empty, bind, Except.bind] at refused
      simp [← refused, ClientObjectError.condemnsBlock] at condemns
  | true =>
    refine ⟨rfl, fun marked markers => ?_⟩
    simp only [validateBlockClientObjectsWith, active, if_true, judgeClientObjects_eq, markers]
      at refused
    by_contra closed
    simp [judgeOpenings, require, closed, bind, Except.bind] at refused
    simp [← refused, ClientObjectError.condemnsBlock] at condemns

/-- Over known objects without marker collisions, a block accepts at most one object list, and none
once a list is refused with a condemning error. -/
theorem client_objects_determined (hashes : ChainHashes D) (rules : ClientObjectRules)
    (batch : ClientBatchRules) (header parent : BlockHeader D) (transactions : List TxBody)
    (registry : ClientRegistryState) (known : Set ClientObject)
    (free : MarkersCollisionFree hashes.commitment known) (objects others : List ClientObject)
    (drawn : ∀ object ∈ objects ++ others, object ∈ known) :
    (∀ effect otherEffect,
      validateBlockClientObjectsWith hashes rules batch ⟨header, transactions, objects⟩ objects
          parent registry = .ok effect →
        validateBlockClientObjectsWith hashes rules batch ⟨header, transactions, others⟩ others
            parent registry = .ok otherEffect →
          objects = others) ∧
      ∀ error,
        validateBlockClientObjectsWith hashes rules batch ⟨header, transactions, objects⟩ objects
            parent registry = .error error →
          error.condemnsBlock = true →
            ∃ otherError, validateBlockClientObjectsWith hashes rules batch
              ⟨header, transactions, others⟩ others parent registry = .error otherError := by
  rw [List.forall_mem_append] at drawn
  obtain ⟨drawn, otherDrawn⟩ := drawn
  constructor
  · intro effect otherEffect accepted otherAccepted
    exact accepted_objects_unique free drawn otherDrawn accepted otherAccepted
  · intro error refused condemns
    cases judged : validateBlockClientObjectsWith hashes rules batch
      ⟨header, transactions, others⟩ others parent registry with
    | error otherError => exact ⟨otherError, rfl⟩
    | ok otherEffect =>
      obtain ⟨active, opensIfMarked⟩ := condemned_cases refused condemns
      rcases validateBlockClientObjectsWith_eq_ok.mp judged with
        ⟨inactive, -⟩ | ⟨-, marked, markers, otherJudged⟩
      · simp [inactive] at active
      · have same := (opensIfMarked marked markers).unique free
          (judgeOpenings_eq_ok.mp otherJudged).1 drawn otherDrawn
        subst same
        rw [judged] at refused
        cases refused

end Judgement

section Sample

def openCommitment : ClientObject → Digest
  | .registration object => object.matrixDigest
  | .submission object => object.matrixDigest
  | .batchSubmission object => object.batchClass

/-- Constant hashes, and markers that show their digests. -/
def openHashes : ChainHashes Unit where
  state := ⟨fun _ => (), fun _ _ => (), ()⟩
  tx := ⟨fun _ => 0, id⟩
  tree := ⟨fun _ _ => 0, fun _ _ => 0⟩
  blockId := fun _ => 0
  commitment := openCommitment

/-- Object rules from genesis on, with a free license and two digests in the catalogue. -/
def openRules : ClientObjectRules where
  activationHeight := some 0
  licenseMicro := 0
  destination := .burn
  submissionFeeMicro := 0
  activationDelay := 0
  shortActivationFrom := none
  shortActivationDelay := 0
  dividendBlocks := 1
  registryCapacity := 16
  maxMatrixFileBytes := 1
  catalogue := [1, 2]

def noBatch : ClientBatchRules := ⟨none, none, 0, []⟩

def openRegistration (digest : Digest) : ClientObject := .registration ⟨digest, 1, 1⟩

/-- A page whose one output is the marker of the first digest. -/
def markerPage : TxBody where
  epochAnchor := 0
  fee := 0
  inputOwner := 1
  inputs := ![⟨1, 0, 1⟩, .dummy, .dummy, .dummy, .dummy, .dummy, .dummy, .dummy]
  outputs := ![⟨2, 0, (openRegistration 1).marker openCommitment⟩, .dummy]
  validityBitmap := 0x101 ||| pagedSpendStartBit ||| pagedSpendEndBit
  isCoinbase := false

def emptyCoinbase : TxBody where
  epochAnchor := 0
  fee := 0
  inputOwner := 0
  inputs := fun _ => .dummy
  outputs := fun _ => .dummy
  validityBitmap := outputBitmapBit 0
  isCoinbase := true

def markerHeader : BlockHeader Unit := ⟨0, (), 0, 0, 1, 0, 0, 0, 24, 0, 0⟩

theorem openRegistrations_free :
    MarkersCollisionFree openCommitment {openRegistration 1, openRegistration 2} := by
  have different : (openRegistration 1).marker openCommitment ≠
      (openRegistration 2).marker openCommitment := by decide
  rintro left (rfl | rfl) right (rfl | rfl) same
  · rfl
  · exact absurd same different
  · exact absurd same.symm different
  · rfl

theorem client_objects_determined_marker :
    (validateBlockClientObjectsWith openHashes openRules noBatch
        ⟨markerHeader, [emptyCoinbase, markerPage], [openRegistration 1]⟩ [openRegistration 1]
        markerHeader ⟨[]⟩).isOk = true ∧
      ∀ effect, validateBlockClientObjectsWith openHashes openRules noBatch
        ⟨markerHeader, [emptyCoinbase, markerPage], [openRegistration 2]⟩ [openRegistration 2]
        markerHeader ⟨[]⟩ ≠ .ok effect := by
  have passes : (validateBlockClientObjectsWith openHashes openRules noBatch
      ⟨markerHeader, [emptyCoinbase, markerPage], [openRegistration 1]⟩ [openRegistration 1]
      markerHeader ⟨[]⟩).isOk = true := by decide +kernel
  refine ⟨passes, fun effect accepted => ?_⟩
  obtain ⟨genuine, judged⟩ := isOk_eq_true.mp passes
  have same := (client_objects_determined openHashes openRules noBatch markerHeader markerHeader
    [emptyCoinbase, markerPage] ⟨[]⟩ _ openRegistrations_free [openRegistration 1]
    [openRegistration 2] (by simp)).1 genuine effect judged accepted
  exact absurd same (by decide)

end Sample

end Jetsam
