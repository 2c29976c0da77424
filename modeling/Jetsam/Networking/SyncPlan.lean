import Jetsam.Consensus.Generations
import Jetsam.Networking.Types

/-!
# Synchronization plans

A suffix plan freezes the objects that carry a node from a base to a target: the bodies of all
blocks, the terminal of the target and, when the base lies below the root of the target's relation,
the terminal of that root. The required terminals prove every block of the suffix.
-/

namespace Jetsam

open Control List Option

inductive SyncPlanKind where
  | liveSuffix
  | reorg
  | snapshot
  deriving DecidableEq

inductive SyncPlanError where
  | emptySuffix
  | firstHeaderDoesNotExtendBase
  | brokenSuffix
  | headerHashMismatch
  | invalidReorgBase
  | snapshotTerminalHeightMismatch
  | snapshotSegmentMismatch
  | snapshotSegmentsNotCanonical
  | missingRelationRootTerminal
  | spansTwoRelationRoots
  deriving DecidableEq

structure PlanContent (D : Type) where
  kind : SyncPlanKind
  base : ChainPoint
  oldTip : Option ChainPoint
  target : ChainPoint
  targetWork : Option (BitVec 256)
  snapshot : Option SnapshotId
  headers : List (ValidatedHeader D)
  requiredObjects : List ObjectClaimId

structure SyncPlan (D : Type) extends PlanContent D where
  id : Digest
  relationRootTerminal : Option TerminalClaimId

/-- The deployment a planner works for: its hashes, its clocks and the derivation of plan
identifiers. -/
structure PlanRules (D : Type) extends NetworkRules D where
  schedule : ActivationSchedule
  derivePlanId : PlanContent D → Digest

/-- Position of the block whose own terminal a suffix from `base` must bring, if it starts below the
relation root. -/
def suffixRelationRoot {D : Type} (schedule : ActivationSchedule) (base : ChainPoint)
    (headers : List (ValidatedHeader D)) : Option Nat := do
  let last ← headers.getLast?
  let root := historyStepRelationRootHeight schedule last.header.height
  (if base.height < root then some (root - base.height - 1) else none).filter
    fun index => index < headers.length

namespace SyncPlan

variable {D : Type} (rules : PlanRules D)

/-- Each header of a suffix after the first extends the one before it. -/
def requireLinked : ValidatedHeader D → List (ValidatedHeader D) → Except SyncPlanError Unit
  | _, [] => pure ()
  | previous, next :: rest => do
    require (next.hash = rules.blockId next.header) .headerHashMismatch
    require (next.header.height = satAdd previous.header.height 1 ∧
      next.header.prevBlockHash = previous.hash) .brokenSuffix
    requireLinked next rest

def terminalOf (node : ValidatedHeader D) (proofClass : BitVec 8) : TerminalClaimId :=
  ⟨node.header.height, rules.semanticHeaderId node.header, proofClass⟩

def bodyOf (node : ValidatedHeader D) : ObjectClaimId :=
  .blockBody ⟨node.header.height, node.hash⟩

/-- The root terminal a suffix needs, checked against the header it belongs to. -/
def requiredRootTerminal (base : ChainPoint) (headers : List (ValidatedHeader D))
    (relationRootTerminal : Option TerminalClaimId) :
    Except SyncPlanError (Option TerminalClaimId) :=
  match (suffixRelationRoot rules.schedule base headers).bind fun index => headers[index]? with
  | none => pure none
  | some root => do
    let claim ← okOr (relationRootTerminal.filter fun claim =>
      claim.height = root.header.height &&
        claim.semanticHeaderId = rules.semanticHeaderId root.header)
      .missingRelationRootTerminal
    require (historyStepRelationRootHeight rules.schedule root.header.height ≤ base.height)
      .spansTwoRelationRoots
    pure (some claim)

def frozen (kind : SyncPlanKind) (oldTip : Option ChainPoint) (base : ChainPoint)
    (headers : List (ValidatedHeader D)) (last : ValidatedHeader D) (proofClass : BitVec 8)
    (rootTerminal : Option TerminalClaimId) : SyncPlan D :=
  let content : PlanContent D :=
    { kind, base, oldTip, target := last.point, targetWork := some last.cumulativeWork
      snapshot := none, headers
      requiredObjects := headers.map bodyOf ++ rootTerminal.toList.map .terminal ++
        [.terminal (terminalOf rules last proofClass)] }
  { content with id := rules.derivePlanId content, relationRootTerminal := rootTerminal }

def suffix (kind : SyncPlanKind) (oldTip : Option ChainPoint) (base : ChainPoint)
    (headers : List (ValidatedHeader D)) (proofClass : BitVec 8)
    (relationRootTerminal : Option TerminalClaimId) : Except SyncPlanError (SyncPlan D) := do
  let first ← okOr headers.head? .emptySuffix
  require (first.hash = rules.blockId first.header) .headerHashMismatch
  require (first.header.height = satAdd base.height 1 ∧
    first.header.prevBlockHash = base.hash) .firstHeaderDoesNotExtendBase
  requireLinked rules first headers.tail
  let rootTerminal ← requiredRootTerminal rules base headers relationRootTerminal
  pure (frozen rules kind oldTip base headers (headers.getLastD first) proofClass rootTerminal)

/-- A plan that extends the canonical tip. -/
def liveSuffixWithRoot (base : ChainPoint) (headers : List (ValidatedHeader D))
    (proofClass : BitVec 8) (relationRootTerminal : Option TerminalClaimId) :
    Except SyncPlanError (SyncPlan D) :=
  suffix rules .liveSuffix none base headers proofClass relationRootTerminal

/-- A plan that replaces blocks of the canonical chain. -/
def reorgWithRoot (oldTip ancestor : ChainPoint) (headers : List (ValidatedHeader D))
    (proofClass : BitVec 8) (relationRootTerminal : Option TerminalClaimId) :
    Except SyncPlanError (SyncPlan D) := do
  require (ancestor.height ≤ oldTip.height) .invalidReorgBase
  suffix rules .reorg (some oldTip) ancestor headers proofClass relationRootTerminal

/-- Headers that extend a point one after another, under their own hashes. -/
def Extends (base : ChainPoint) : List (ValidatedHeader D) → Prop
  | [] => True
  | node :: rest =>
    node.hash = rules.blockId node.header ∧
      (node.header.height = satAdd base.height 1 ∧ node.header.prevBlockHash = base.hash) ∧
        Extends node.point rest

variable {rules}

theorem requireLinked_eq_ok {previous : ValidatedHeader D} {rest : List (ValidatedHeader D)}
    {done : Unit} :
    requireLinked rules previous rest = .ok done ↔ Extends rules previous.point rest := by
  induction rest generalizing previous with
  | nil => exact ⟨fun _ => trivial, fun _ => rfl⟩
  | cons next rest ih =>
    simp only [requireLinked, bind_eq_ok, require_eq_ok, exists_const, ih, Extends,
      ValidatedHeader.point]

variable {base : ChainPoint} {headers : List (ValidatedHeader D)}
  {relationRootTerminal : Option TerminalClaimId}

variable {kind : SyncPlanKind} {oldTip : Option ChainPoint} {proofClass : BitVec 8}
  {plan : SyncPlan D}

theorem suffix_eq_ok :
    suffix rules kind oldTip base headers proofClass relationRootTerminal = .ok plan ↔
      Extends rules base headers ∧ ∃ last ∈ headers.getLast?, ∃ rootTerminal,
        requiredRootTerminal rules base headers relationRootTerminal = .ok rootTerminal ∧
          frozen rules kind oldTip base headers last proofClass rootTerminal = plan := by
  simp only [suffix, bind_eq_ok, okOr_eq_ok, require_eq_ok, requireLinked_eq_ok, exists_const,
    pure_eq_ok]
  cases headers with
  | nil => simp
  | cons first rest =>
    simp only [head?_cons, tail_cons, Option.some.injEq, exists_eq_left', Extends,
      and_assoc, mem_def, getLast?_cons, getLastD_eq_getLast?, getD_some]

theorem Extends.height (linked : Extends rules base headers) {index : Nat}
    {node : ValidatedHeader D} (found : headers[index]? = some node) :
    node.header.height = min (base.height + index + 1) u64Max := by
  induction headers generalizing base index with
  | nil => cases found
  | cons first rest ih =>
    obtain ⟨-, ⟨height, -⟩, later⟩ := linked
    rw [satAdd] at height
    cases index with
    | zero =>
      obtain rfl := Option.some.inj found
      exact height
    | succ index =>
      have next := ih later found
      simp only [ValidatedHeader.point, height] at next
      omega

variable {last : ValidatedHeader D}

theorem Extends.height_last (linked : Extends rules base headers) (ends : last ∈ headers.getLast?) :
    last.header.height = min (base.height + headers.length) u64Max := by
  rw [mem_def, getLast?_eq_getElem?] at ends
  have bound : 0 < headers.length := by
    cases headers with
    | nil => cases ends
    | cons first rest => exact Nat.succ_pos _
  have height := linked.height ends
  rwa [Nat.add_assoc, Nat.sub_add_cancel bound] at height

/-- A suffix that starts below the root of its tip's relation contains that root. -/
theorem exists_root (linked : Extends rules base headers) (ends : last ∈ headers.getLast?)
    (below : base.height < historyStepRelationRootHeight rules.schedule last.header.height) :
    ∃ root ∈ headers,
      root.header.height = historyStepRelationRootHeight rules.schedule last.header.height ∧
        ((suffixRelationRoot rules.schedule base headers).bind fun index => headers[index]?) =
          some root := by
  have lastHeight := linked.height_last ends
  rcases historyStepRelationRootHeight_cases rules.schedule last.header.height with
    zero | ⟨-, under⟩
  · omega
  · generalize rootDef : historyStepRelationRootHeight rules.schedule last.header.height = root at *
    have inside : root - base.height - 1 < headers.length := by omega
    refine ⟨headers[root - base.height - 1], getElem_mem inside, ?_, ?_⟩
    · have height := linked.height (getElem?_eq_getElem inside)
      omega
    · have chosen : suffixRelationRoot rules.schedule base headers =
          some (root - base.height - 1) := by
        simp only [suffixRelationRoot, mem_def.mp ends, bind_eq_bind,
          bind_some, rootDef, below, if_true, filter_some, inside, decide_true]
      rw [chosen, bind_some, getElem?_eq_getElem inside]

theorem suffixRelationRoot_eq_none (ends : last ∈ headers.getLast?)
    (above : historyStepRelationRootHeight rules.schedule last.header.height ≤ base.height) :
    suffixRelationRoot rules.schedule base headers = none := by
  simp only [suffixRelationRoot, mem_def.mp ends, bind_eq_bind, bind_some,
    not_lt.mpr above, if_false, filter_none]

variable (rules) in
/-- A required terminal, bound to a header of the suffix, proves a height. -/
def Proves (plan : SyncPlan D) (height : Nat) : Prop :=
  ∃ claim, .terminal claim ∈ plan.requiredObjects ∧
    (∃ node ∈ plan.headers, node.header.height = claim.height ∧
      rules.semanticHeaderId node.header = claim.semanticHeaderId) ∧
    historyStepRelationRootHeight rules.schedule claim.height < height ∧ height ≤ claim.height

/-- The required terminals prove every block of a frozen suffix. -/
theorem proves_of_suffix
    (built : suffix rules kind oldTip base headers proofClass relationRootTerminal = .ok plan)
    {height : Nat} (above : base.height < height) (below : height ≤ plan.target.height) :
    Proves rules plan height := by
  obtain ⟨linked, last, ends, rootTerminal, required, rfl⟩ := suffix_eq_ok.mp built
  by_cases reached : historyStepRelationRootHeight rules.schedule last.header.height < height
  · refine ⟨terminalOf rules last proofClass, ?_, ⟨last, ?_, rfl, rfl⟩, reached, below⟩
    · exact mem_append_right _ (mem_singleton_self _)
    · exact mem_of_mem_getLast? ends
  · -- Up to the root of the tip's relation the terminal of the root block does the work.
    obtain ⟨root, mem, rootHeight, found⟩ := exists_root linked ends (by omega)
    simp only [requiredRootTerminal, found, bind_eq_ok, okOr_eq_ok, require_eq_ok, exists_const,
      pure_eq_ok, filter_eq_some_iff, Bool.and_eq_true, decide_eq_true_eq] at required
    obtain ⟨claim, ⟨-, claimHeight, bound⟩, once, rfl⟩ := required
    refine ⟨claim, ?_, ⟨root, mem, claimHeight.symm, bound.symm⟩, ?_, ?_⟩
    · exact mem_append_left _ (mem_append_right _ (mem_singleton_self _))
    · rw [claimHeight]
      omega
    · omega

theorem suffix_isOk (kind : SyncPlanKind) (oldTip : Option ChainPoint) (proofClass : BitVec 8)
    (linked : Extends rules base headers) (ends : last ∈ headers.getLast?)
    (single : ∀ left ∈ rules.schedule.roots, ∀ right ∈ rules.schedule.roots,
      base.height < left → left < last.header.height →
      base.height < right → right < last.header.height → left = right)
    (given : ∀ root ∈ headers, root.header.height ∈ rules.schedule.roots →
      root.header.height < last.header.height →
      ∃ claim ∈ relationRootTerminal, claim.height = root.header.height ∧
        claim.semanticHeaderId = rules.semanticHeaderId root.header) :
    ∃ plan, suffix rules kind oldTip base headers proofClass relationRootTerminal = .ok plan := by
  have required : ∃ rootTerminal,
      requiredRootTerminal rules base headers relationRootTerminal = .ok rootTerminal := by
    rcases lt_or_ge base.height
        (historyStepRelationRootHeight rules.schedule last.header.height) with below | above
    · obtain ⟨root, mem, rootHeight, found⟩ := exists_root linked ends below
      rcases historyStepRelationRootHeight_cases rules.schedule last.header.height with
        zero | ⟨known, under⟩
      · omega
      · rw [← rootHeight] at known under below
        obtain ⟨claim, isGiven, claimHeight, bound⟩ := given root mem known under
        refine ⟨some claim, ?_⟩
        simp only [requiredRootTerminal, found, bind_eq_ok, okOr_eq_ok, require_eq_ok,
          exists_const, pure_eq_ok, filter_eq_some_iff, Bool.and_eq_true, decide_eq_true_eq]
        refine ⟨claim, ⟨isGiven, claimHeight, bound⟩, ?_, rfl⟩
        -- A root of the root's own relation above the base would be a second one.
        by_contra second
        rcases historyStepRelationRootHeight_cases rules.schedule root.header.height with
          zero | ⟨alsoKnown, lower⟩
        · omega
        · have same := single _ known _ alsoKnown below under (by omega) (by omega)
          omega
    · refine ⟨none, ?_⟩
      rw [requiredRootTerminal, suffixRelationRoot_eq_none ends above]
      rfl
  obtain ⟨rootTerminal, required⟩ := required
  exact ⟨_, suffix_eq_ok.mpr ⟨linked, last, ends, rootTerminal, required, rfl⟩⟩

/-- The terminals of a plan prove all its blocks, and every suffix that crosses at most one relation
root has such plans. -/
theorem suffix_plans_cover (rules : PlanRules D) (base : ChainPoint)
    (headers : List (ValidatedHeader D)) (proofClass : BitVec 8)
    (relationRootTerminal : Option TerminalClaimId) :
    (∀ plan,
      (liveSuffixWithRoot rules base headers proofClass relationRootTerminal = .ok plan ∨
        ∃ oldTip, reorgWithRoot rules oldTip base headers proofClass relationRootTerminal =
          .ok plan) →
      ∀ height, base.height < height → height ≤ plan.target.height → Proves rules plan height) ∧
    ∀ last ∈ headers.getLast?, Extends rules base headers →
      (∀ left ∈ rules.schedule.roots, ∀ right ∈ rules.schedule.roots,
        base.height < left → left < last.header.height →
        base.height < right → right < last.header.height → left = right) →
      (∀ root ∈ headers, root.header.height ∈ rules.schedule.roots →
        root.header.height < last.header.height →
        ∃ claim ∈ relationRootTerminal, claim.height = root.header.height ∧
          claim.semanticHeaderId = rules.semanticHeaderId root.header) →
      (∃ plan, liveSuffixWithRoot rules base headers proofClass relationRootTerminal =
        .ok plan) ∧
        ∀ oldTip, base.height ≤ oldTip.height →
          ∃ plan, reorgWithRoot rules oldTip base headers proofClass relationRootTerminal =
            .ok plan := by
  constructor
  · intro plan built height above below
    rcases built with live | ⟨oldTip, reorg⟩
    · exact proves_of_suffix live above below
    · simp only [reorgWithRoot, bind_eq_ok, require_eq_ok, exists_const] at reorg
      exact proves_of_suffix reorg.2 above below
  · intro last ends linked single given
    refine ⟨suffix_isOk _ _ proofClass linked ends single given, fun oldTip known => ?_⟩
    exact require_bind_isOk known (suffix_isOk _ _ proofClass linked ends single given)

end SyncPlan

/-- A deployment with activations at heights 3 and 6 that hashes headers by their height. -/
def steppedRules : PlanRules Digest where
  blockId header := BitVec.ofNat 256 header.height
  semanticHeaderId header := BitVec.ofNat 256 (header.height + 100)
  bodyDigest bytes := BitVec.ofNat 256 bytes.length
  terminalDigest bytes := BitVec.ofNat 256 bytes.length
  maxBlockBytes := 100
  terminalBytesLimit _ := 100
  historyStepClassCount := 2
  maxObjectsPerRequest := 8
  maxObjectResponsePayloadBytes := 100
  schedule := ⟨some 3, some 6, none⟩
  derivePlanId content := BitVec.ofNat 256 content.requiredObjects.length

def steppedHeader (height : Nat) : ValidatedHeader Digest where
  header := ⟨BitVec.ofNat 256 (height - 1), 0, 0, 0, height, 0, 0, 1, 3, 0, 0⟩
  hash := BitVec.ofNat 256 height
  cumulativeWork := BitVec.ofNat 256 height

theorem suffix_plans_cover_activation :
    ∃ plan, SyncPlan.liveSuffixWithRoot steppedRules ⟨1, 1⟩ ([2, 3, 4].map steppedHeader) 0
        (some ⟨2, 102, 0⟩) = .ok plan ∧
      SyncPlan.Proves steppedRules plan 2 ∧ SyncPlan.Proves steppedRules plan 4 := by
  obtain ⟨covers, accepted⟩ := SyncPlan.suffix_plans_cover steppedRules ⟨1, 1⟩
    ([2, 3, 4].map steppedHeader) 0 (some ⟨2, 102, 0⟩)
  have linked : SyncPlan.Extends steppedRules ⟨1, 1⟩ ([2, 3, 4].map steppedHeader) :=
    ⟨rfl, ⟨rfl, rfl⟩, rfl, ⟨rfl, rfl⟩, rfl, ⟨rfl, rfl⟩, trivial⟩
  obtain ⟨⟨plan, built⟩, -⟩ := accepted (steppedHeader 4) rfl linked (by decide) (by decide)
  have target : plan.target.height = 4 := by
    obtain ⟨-, last, ends, -, -, rfl⟩ := SyncPlan.suffix_eq_ok.mp built
    obtain rfl := Option.some.inj ends
    rfl
  exact ⟨plan, built, covers plan (.inl built) 2 (by decide) (by omega),
    covers plan (.inl built) 4 (by decide) (by omega)⟩

end Jetsam
