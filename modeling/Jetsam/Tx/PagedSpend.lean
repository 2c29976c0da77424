import Mathlib.Tactic
import Jetsam.Tx.PublicLogic
import Jetsam.Tx.Sponge

/-!
# Page groups

A logical spend is a `START..END` group of physical pages. The validator checks each page's
representation, continuity of owner, epoch and fee, density of the live entries, minimality of the
page count, and one balance.
-/

namespace Jetsam

open Control List

def pagedSpendStartBit : BitVec 16 := 1 <<< 10

def pagedSpendEndBit : BitVec 16 := 1 <<< 11

def pagedSpendValidityMask : BitVec 16 := 0x0fff

def maxPagedSpendPages : Nat := 128

def maxPagedSpendInputs : Nat := 1020

def maxPagedSpendOutputs : Nat := 256

def TxBody.isStart (page : TxBody) : Bool := page.validityBitmap.getLsbD 10

def TxBody.isEnd (page : TxBody) : Bool := page.validityBitmap.getLsbD 11

/-- Refusals of the group validator, with page and position. -/
inductive PagedSpendError where
  | pageCount (actual : Nat)
  | reservedBitmapBits (page : Nat) (bitmap : BitVec 16)
  | coinbasePage (page : Nat)
  | deadInputNotZero (page slot : Nat)
  | deadOutputNotZero (page slot : Nat)
  | missingStart
  | unexpectedStart (page : Nat)
  | missingEnd
  | unexpectedEnd (page : Nat)
  | ownerMismatch (page : Nat)
  | epochMismatch (page : Nat)
  | continuationFee (page : Nat)
  | sparseInputs (page slot : Nat)
  | sparseOutputs (page slot : Nat)
  | noLiveInputs
  | tooManyInputs (actual : Nat)
  | tooManyOutputs (actual : Nat)
  | nonMinimalPageCount (actual required : Nat)
  | duplicateInputSlot (slot : BitVec 32)
  | duplicateOutputSlot (slot : BitVec 32)
  | inputOutputSlotOverlap (slot : BitVec 32)
  | inputSumOverflow
  | outputSumOverflow
  | outputPlusFeeOverflow
  | balanceMismatch (inputSum outputSum : Nat) (fee : BitVec 64)
  deriving DecidableEq

structure PagedSpendFacts where
  logicalTxid : Digest
  inputOwner : Address
  epochAnchor : Digest
  fee : BitVec 64
  liveInputs : Nat
  liveOutputs : Nat
  inputSum : Nat
  outputSum : Nat
  deriving DecidableEq

/-- The two group rules that can be switched off: production runs both. -/
structure PagedSpendChecks where
  /-- Refuse a slot that two live entries of the group name. -/
  slotDistinctness : Bool
  /-- Refuse a group with more live inputs than this. -/
  inputCap : Option Nat

def PagedSpendChecks.production : PagedSpendChecks := ⟨true, some maxPagedSpendInputs⟩

/-- Running facts about the inputs, or about the outputs, of the pages scanned so far. -/
structure SideScan where
  slots : List (BitVec 32)
  live : Nat
  sum : Nat
  gap : Bool
  deriving DecidableEq

/-- What one side of the scan refuses, and with which errors. -/
structure SideRule where
  cap : Option Nat
  distinct : Bool
  sparse : Nat → Nat → PagedSpendError
  tooMany : Nat → PagedSpendError
  duplicate : BitVec 32 → PagedSpendError
  overflow : PagedSpendError

/-- One physical position of one page, on either side. -/
structure SideEntry where
  page : Nat
  position : Nat
  live : Bool
  slot : BitVec 32
  amount : Nat

def scanEntry (rule : SideRule) (scan : SideScan) (entry : SideEntry) :
    Except PagedSpendError SideScan :=
  if entry.live then do
    require (scan.gap = false) (rule.sparse entry.page entry.position)
    require (∀ cap ∈ rule.cap, scan.live + 1 ≤ cap) (rule.tooMany (scan.live + 1))
    require (rule.distinct = true → entry.slot ∉ scan.slots) (rule.duplicate entry.slot)
    let sum ← okOr (checkedAdd u128Bound scan.sum entry.amount) rule.overflow
    pure { scan with slots := entry.slot :: scan.slots, live := scan.live + 1, sum }
  else
    pure { scan with gap := true }

namespace SideScan

def start : SideScan := ⟨[], 0, 0, false⟩

end SideScan

/-- Slots of the live entries, in scan order. -/
def liveSlots (entries : List SideEntry) : List (BitVec 32) :=
  (entries.filter SideEntry.live).map SideEntry.slot

def liveCount (entries : List SideEntry) : Nat := (entries.filter SideEntry.live).length

def liveSum (entries : List SideEntry) : Nat :=
  ((entries.filter SideEntry.live).map SideEntry.amount).sum

/-- No live entry after a dead one. -/
def DenseEntries (entries : List SideEntry) : Prop :=
  entries.Pairwise fun earlier later => later.live = true → earlier.live = true

instance (entries : List SideEntry) : Decidable (DenseEntries entries) :=
  inferInstanceAs (Decidable (entries.Pairwise _))

/-- The scan after a run of accepted entries. -/
def SideScan.after (scan : SideScan) (entries : List SideEntry) : SideScan where
  slots := (liveSlots entries).reverse ++ scan.slots
  live := scan.live + liveCount entries
  sum := scan.sum + liveSum entries
  gap := scan.gap || entries.any fun entry => !entry.live

/-- What a run of entries has to satisfy to be accepted from `scan`. -/
structure SideAccepted (rule : SideRule) (scan : SideScan) (entries : List SideEntry) : Prop where
  afterGap : scan.gap = true → ∀ entry ∈ entries, entry.live = false
  dense : DenseEntries entries
  capped : ∀ cap ∈ rule.cap, scan.live + liveCount entries ≤ cap
  distinct : rule.distinct = true →
    (liveSlots entries).Nodup ∧ ∀ slot ∈ liveSlots entries, slot ∉ scan.slots
  bounded : scan.sum + liveSum entries < u128Bound

variable {rule : SideRule} {scan : SideScan}

variable {final : SideScan} {entry : SideEntry}

theorem scanEntry_live_eq_ok (live : entry.live = true) :
    scanEntry rule scan entry = .ok final ↔
      scan.gap = false ∧ (∀ cap ∈ rule.cap, scan.live + 1 ≤ cap) ∧
        (rule.distinct = true → entry.slot ∉ scan.slots) ∧
        scan.sum + entry.amount < u128Bound ∧
        final = ⟨entry.slot :: scan.slots, scan.live + 1, scan.sum + entry.amount, scan.gap⟩ := by
  simp only [scanEntry, live, if_true, bind_eq_ok, require_eq_ok, exists_const, okOr_eq_ok,
    checkedAdd_eq_some, pure_eq_ok]
  constructor
  · rintro ⟨gap, cap, distinct, sum, ⟨small, rfl⟩, rfl⟩
    exact ⟨gap, cap, distinct, small, rfl⟩
  · rintro ⟨gap, cap, distinct, small, rfl⟩
    exact ⟨gap, cap, distinct, _, ⟨small, rfl⟩, rfl⟩

theorem scanEntry_dead (dead : entry.live = false) :
    scanEntry rule scan entry = .ok { scan with gap := true } := by
  simp [scanEntry, dead, pure, Except.pure]

theorem scanEntries_eq_ok {entries : List SideEntry} (capped : ∀ cap ∈ rule.cap, scan.live ≤ cap)
    (bounded : scan.sum < u128Bound) :
    entries.foldlM (scanEntry rule) scan = .ok final ↔
      SideAccepted rule scan entries ∧ scan.after entries = final := by
  induction entries generalizing scan with
  | nil =>
    rw [foldlM_nil_eq_ok]
    constructor
    · rintro rfl
      refine ⟨⟨by simp, List.Pairwise.nil, ?_, by simp [liveSlots], ?_⟩, ?_⟩
      · simpa [liveCount] using capped
      · simpa [liveSum] using bounded
      · simp [SideScan.after, liveSlots, liveCount, liveSum]
    · rintro ⟨-, rfl⟩
      simp [SideScan.after, liveSlots, liveCount, liveSum]
  | cons entry entries ih =>
    rw [foldlM_cons_eq_ok]
    cases live : entry.live with
    | true =>
      have count_cons : liveCount (entry :: entries) = liveCount entries + 1 := by
        simp [liveCount, live]
      have sum_cons : liveSum (entry :: entries) = entry.amount + liveSum entries := by
        simp [liveSum, live]
      have slots_cons : liveSlots (entry :: entries) = entry.slot :: liveSlots entries := by
        simp [liveSlots, live]
      have after_cons (gap : scan.gap = false) : scan.after (entry :: entries) =
          SideScan.after
            ⟨entry.slot :: scan.slots, scan.live + 1, scan.sum + entry.amount, scan.gap⟩
            entries := by
        simp [SideScan.after, count_cons, sum_cons, slots_cons, live, gap]
        omega
      constructor
      · rintro ⟨middle, stepped, rest⟩
        obtain ⟨gap, cap, distinct, small, rfl⟩ := (scanEntry_live_eq_ok live).mp stepped
        obtain ⟨accepted, rfl⟩ := (ih cap small).mp rest
        refine ⟨⟨by simp [gap], ?_, ?_, ?_, ?_⟩, after_cons gap⟩
        · exact pairwise_cons.mpr ⟨fun _ _ _ => live, accepted.dense⟩
        · intro bound mem
          have := accepted.capped bound mem
          simp only at this
          omega
        · intro distinctRule
          obtain ⟨nodup, fresh⟩ := accepted.distinct distinctRule
          rw [slots_cons, nodup_cons]
          refine ⟨⟨fun mem => fresh _ mem mem_cons_self, nodup⟩, ?_⟩
          simp only [mem_cons, forall_eq_or_imp]
          exact ⟨distinct distinctRule,
            fun slot mem inSlots => fresh slot mem (mem_cons_of_mem _ inSlots)⟩
        · have := accepted.bounded
          simp only at this
          omega
      · rintro ⟨accepted, rfl⟩
        have gap : scan.gap = false := by
          by_contra gap
          have := accepted.afterGap (by simpa using gap) entry mem_cons_self
          simp [live] at this
        have cap : ∀ cap ∈ rule.cap, scan.live + 1 ≤ cap := by
          intro bound mem
          have := accepted.capped bound mem
          omega
        have small : scan.sum + entry.amount < u128Bound := by
          have := accepted.bounded
          omega
        refine ⟨_, (scanEntry_live_eq_ok live).mpr ⟨gap, cap, ?_, small, rfl⟩,
          (ih cap small).mpr ⟨⟨by simp [gap], ?_, ?_, ?_, ?_⟩, (after_cons gap).symm⟩⟩
        · intro distinctRule
          have fresh := (accepted.distinct distinctRule).2
          rw [slots_cons] at fresh
          exact fresh entry.slot mem_cons_self
        · exact (pairwise_cons.mp accepted.dense).2
        · intro bound mem
          have := accepted.capped bound mem
          simp only
          omega
        · intro distinctRule
          obtain ⟨nodup, fresh⟩ := accepted.distinct distinctRule
          rw [slots_cons] at nodup fresh
          obtain ⟨notMember, nodup⟩ := nodup_cons.mp nodup
          refine ⟨nodup, fun slot mem => ?_⟩
          simp only [mem_cons, not_or]
          exact ⟨fun equal => notMember (equal ▸ mem),
            fresh slot (mem_cons_of_mem _ mem)⟩
        · have := accepted.bounded
          simp only
          omega
    | false =>
      have count_cons : liveCount (entry :: entries) = liveCount entries := by
        simp [liveCount, live]
      have sum_cons : liveSum (entry :: entries) = liveSum entries := by
        simp [liveSum, live]
      have slots_cons : liveSlots (entry :: entries) = liveSlots entries := by
        simp [liveSlots, live]
      have after_cons : scan.after (entry :: entries) =
          SideScan.after { scan with gap := true } entries := by
        simp [SideScan.after, count_cons, sum_cons, slots_cons, live]
      rw [scanEntry_dead live]
      constructor
      · rintro ⟨middle, stepped, rest⟩
        obtain rfl := Except.ok.inj stepped
        obtain ⟨accepted, rfl⟩ :=
          (@ih { scan with gap := true } capped bounded).mp rest
        have allDead := accepted.afterGap rfl
        refine ⟨⟨?_, ?_, ?_, ?_, ?_⟩, after_cons⟩
        · intro _ other mem
          rcases mem_cons.mp mem with rfl | mem
          · exact live
          · exact allDead other mem
        · refine pairwise_cons.mpr ⟨fun other mem otherLive => ?_, accepted.dense⟩
          simp [allDead other mem] at otherLive
        · simpa only [count_cons] using accepted.capped
        · simpa only [slots_cons] using accepted.distinct
        · simpa only [sum_cons] using accepted.bounded
      · rintro ⟨accepted, rfl⟩
        refine ⟨_, rfl, (@ih { scan with gap := true } capped bounded).mpr
          ⟨⟨?_, ?_, ?_, ?_, ?_⟩, after_cons.symm⟩⟩
        · intro _ other mem
          by_contra otherLive
          have := (pairwise_cons.mp accepted.dense).1 other mem (by simpa using otherLive)
          simp [live] at this
        · exact (pairwise_cons.mp accepted.dense).2
        · simpa only [count_cons] using accepted.capped
        · simpa only [slots_cons] using accepted.distinct
        · simpa only [sum_cons] using accepted.bounded

def inputEntries (pageIndex : Nat) (page : TxBody) : List SideEntry :=
  (List.finRange 8).map fun slot : Fin 8 =>
    ⟨pageIndex, slot, page.inputIsLive slot, (page.inputs slot).slotIndex,
      (page.inputs slot).amount.toNat⟩

def outputEntries (pageIndex : Nat) (page : TxBody) : List SideEntry :=
  (List.finRange 2).map fun slot : Fin 2 =>
    ⟨pageIndex, slot, page.outputIsLive slot, (page.outputs slot).slotIndex,
      (page.outputs slot).amount.toNat⟩

def inputRule (checks : PagedSpendChecks) : SideRule where
  cap := checks.inputCap
  distinct := checks.slotDistinctness
  sparse := .sparseInputs
  tooMany := .tooManyInputs
  duplicate := .duplicateInputSlot
  overflow := .inputSumOverflow

def outputRule (checks : PagedSpendChecks) : SideRule where
  cap := some maxPagedSpendOutputs
  distinct := checks.slotDistinctness
  sparse := .sparseOutputs
  tooMany := .tooManyOutputs
  duplicate := .duplicateOutputSlot
  overflow := .outputSumOverflow

/-- Scan the pages in order: the inputs of a page, then its outputs. -/
def scanPages (checks : PagedSpendChecks) :
    Nat → List TxBody → SideScan × SideScan → Except PagedSpendError (SideScan × SideScan)
  | _, [], scans => .ok scans
  | pageIndex, page :: pages, scans => do
    let inputs ← (inputEntries pageIndex page).foldlM (scanEntry (inputRule checks)) scans.1
    let outputs ← (outputEntries pageIndex page).foldlM (scanEntry (outputRule checks)) scans.2
    scanPages checks (pageIndex + 1) pages (inputs, outputs)

def validatePageShape (page : TxBody) (pageIndex : Nat) : Except PagedSpendError Unit := do
  require (page.validityBitmap &&& ~~~pagedSpendValidityMask = 0)
    (.reservedBitmapBits pageIndex page.validityBitmap)
  require (page.isCoinbase = false) (.coinbasePage pageIndex)
  requireNone page.dirtyDeadInput fun slot => .deadInputNotZero pageIndex slot
  requireNone page.dirtyDeadOutput fun slot => .deadOutputNotZero pageIndex slot

def validatePageShapes : Nat → List TxBody → Except PagedSpendError Unit
  | _, [] => .ok ()
  | pageIndex, page :: pages => do
    validatePageShape page pageIndex
    validatePageShapes (pageIndex + 1) pages

/-- Continuity of the pages with the first page of their group. -/
def validateContinuity (first : TxBody) :
    Nat → List TxBody → Except PagedSpendError Unit
  | _, [] => .ok ()
  | pageIndex, page :: pages => do
    require (pageIndex ≠ 0 → page.isStart = false) (.unexpectedStart pageIndex)
    require (pages ≠ [] → page.isEnd = false) (.unexpectedEnd pageIndex)
    require (page.inputOwner = first.inputOwner) (.ownerMismatch pageIndex)
    require (page.epochAnchor = first.epochAnchor) (.epochMismatch pageIndex)
    require (pageIndex ≠ 0 → page.fee = 0) (.continuationFee pageIndex)
    validateContinuity first (pageIndex + 1) pages

/-- Quotient rounded up, as the page counts use it. -/
def divCeil (amount divisor : Nat) : Nat := (amount + divisor - 1) / divisor

/-- The least page count that holds the live entries. -/
def requiredPages (liveInputs liveOutputs : Nat) : Nat :=
  max (max 1 (divCeil liveInputs txInputs)) (divCeil liveOutputs txOutputs)

/-- The group validator with the two switchable rules given. -/
def validatePagedSpendWith (checks : PagedSpendChecks) (hasher : TxHasher) :
    List TxBody → Except PagedSpendError PagedSpendFacts
  | [] => .error (.pageCount 0)
  | first :: rest => do
    let pages := first :: rest
    require (pages.length ≤ maxPagedSpendPages) (.pageCount pages.length)
    validatePageShapes 0 pages
    require (first.isStart = true) .missingStart
    require ((pages.getLastD first).isEnd = true) .missingEnd
    validateContinuity first 0 pages
    let (inputs, outputs) ← scanPages checks 0 pages (.start, .start)
    require (inputs.live ≠ 0) .noLiveInputs
    requireNone
      (if checks.slotDistinctness then inputs.slots.find? (· ∈ outputs.slots) else none)
      .inputOutputSlotOverlap
    require (pages.length = requiredPages inputs.live outputs.live)
      (.nonMinimalPageCount pages.length (requiredPages inputs.live outputs.live))
    let expected ← okOr (checkedAdd u128Bound outputs.sum first.fee.toNat) .outputPlusFeeOverflow
    require (inputs.sum = expected) (.balanceMismatch inputs.sum outputs.sum first.fee)
    pure
      { logicalTxid := hashPagedSpendUnchecked hasher pages
        inputOwner := first.inputOwner
        epochAnchor := first.epochAnchor
        fee := first.fee
        liveInputs := inputs.live
        liveOutputs := outputs.live
        inputSum := inputs.sum
        outputSum := outputs.sum }

def validatePagedSpend (hasher : TxHasher) :
    List TxBody → Except PagedSpendError PagedSpendFacts :=
  validatePagedSpendWith .production hasher

def groupInputs : Nat → List TxBody → List SideEntry
  | _, [] => []
  | pageIndex, page :: pages => inputEntries pageIndex page ++ groupInputs (pageIndex + 1) pages

def groupOutputs : Nat → List TxBody → List SideEntry
  | _, [] => []
  | pageIndex, page :: pages => outputEntries pageIndex page ++ groupOutputs (pageIndex + 1) pages

def groupLiveInputs (pages : List TxBody) : Nat := (pages.map TxBody.liveInputCount).sum

def groupLiveOutputs (pages : List TxBody) : Nat := (pages.map TxBody.liveOutputCount).sum

def groupInputSum (pages : List TxBody) : Nat := (pages.map TxBody.inputSum).sum

def groupOutputSum (pages : List TxBody) : Nat := (pages.map TxBody.outputSum).sum

def groupInputSlots (pages : List TxBody) : List (BitVec 32) := pages.flatMap TxBody.inputSlots

def groupOutputSlots (pages : List TxBody) : List (BitVec 32) := pages.flatMap TxBody.outputSlots

section Entries

variable (pageIndex : Nat) (page : TxBody) (pages : List TxBody)

theorem filter_inputEntries :
    (inputEntries pageIndex page).filter SideEntry.live =
      ((List.finRange 8).filter fun slot : Fin 8 => page.inputIsLive slot).map fun slot : Fin 8 =>
        ⟨pageIndex, slot, page.inputIsLive slot, (page.inputs slot).slotIndex,
          (page.inputs slot).amount.toNat⟩ := by
  rw [inputEntries, filter_map]
  rfl

theorem filter_outputEntries :
    (outputEntries pageIndex page).filter SideEntry.live =
      ((List.finRange 2).filter fun slot : Fin 2 => page.outputIsLive slot).map fun slot : Fin 2 =>
        ⟨pageIndex, slot, page.outputIsLive slot, (page.outputs slot).slotIndex,
          (page.outputs slot).amount.toNat⟩ := by
  rw [outputEntries, filter_map]
  rfl

theorem liveCount_groupInputs :
    liveCount (groupInputs pageIndex pages) = groupLiveInputs pages := by
  induction pages generalizing pageIndex with
  | nil => rfl
  | cons page pages ih =>
    have tail := ih (pageIndex + 1)
    simp only [liveCount, groupLiveInputs] at tail
    simp only [groupInputs, liveCount, groupLiveInputs, filter_append, length_append,
      filter_inputEntries, length_map, tail, map_cons, sum_cons,
      TxBody.liveInputCount_eq, TxBody.liveInputs]

theorem liveCount_groupOutputs :
    liveCount (groupOutputs pageIndex pages) = groupLiveOutputs pages := by
  induction pages generalizing pageIndex with
  | nil => rfl
  | cons page pages ih =>
    have tail := ih (pageIndex + 1)
    simp only [liveCount, groupLiveOutputs] at tail
    simp only [groupOutputs, liveCount, groupLiveOutputs, filter_append, length_append,
      filter_outputEntries, length_map, tail, map_cons, sum_cons,
      TxBody.liveOutputCount_eq, TxBody.liveOutputs]

theorem liveSum_groupInputs : liveSum (groupInputs pageIndex pages) = groupInputSum pages := by
  induction pages generalizing pageIndex with
  | nil => rfl
  | cons page pages ih =>
    have tail := ih (pageIndex + 1)
    simp only [liveSum, groupInputSum] at tail
    simp only [groupInputs, liveSum, groupInputSum, filter_append, map_append, sum_append,
      filter_inputEntries, map_map, tail, map_cons, sum_cons, TxBody.inputSum, TxBody.liveInputs]
    rfl

theorem liveSum_groupOutputs : liveSum (groupOutputs pageIndex pages) = groupOutputSum pages := by
  induction pages generalizing pageIndex with
  | nil => rfl
  | cons page pages ih =>
    have tail := ih (pageIndex + 1)
    simp only [liveSum, groupOutputSum] at tail
    simp only [groupOutputs, liveSum, groupOutputSum, filter_append, map_append, sum_append,
      filter_outputEntries, map_map, tail, map_cons, sum_cons, TxBody.outputSum, TxBody.liveOutputs]
    rfl

theorem liveSlots_groupInputs :
    liveSlots (groupInputs pageIndex pages) = groupInputSlots pages := by
  induction pages generalizing pageIndex with
  | nil => rfl
  | cons page pages ih =>
    have tail := ih (pageIndex + 1)
    simp only [liveSlots, groupInputSlots] at tail
    simp only [groupInputs, liveSlots, groupInputSlots, filter_append, map_append,
      filter_inputEntries, map_map, tail, flatMap_cons, TxBody.inputSlots, TxBody.liveInputs]
    rfl

theorem liveSlots_groupOutputs :
    liveSlots (groupOutputs pageIndex pages) = groupOutputSlots pages := by
  induction pages generalizing pageIndex with
  | nil => rfl
  | cons page pages ih =>
    have tail := ih (pageIndex + 1)
    simp only [liveSlots, groupOutputSlots] at tail
    simp only [groupOutputs, liveSlots, groupOutputSlots, filter_append, map_append,
      filter_outputEntries, map_map, tail, flatMap_cons, TxBody.outputSlots, TxBody.liveOutputs]
    rfl

end Entries

variable {pageIndex : Nat} {pages : List TxBody}

variable {checks : PagedSpendChecks}

theorem scanPages_eq_ok {scans finals : SideScan × SideScan} :
    scanPages checks pageIndex pages scans = .ok finals ↔
      (groupInputs pageIndex pages).foldlM (scanEntry (inputRule checks)) scans.1 =
          .ok finals.1 ∧
        (groupOutputs pageIndex pages).foldlM (scanEntry (outputRule checks)) scans.2 =
          .ok finals.2 := by
  induction pages generalizing pageIndex scans with
  | nil =>
    simp only [scanPages, groupInputs, groupOutputs, foldlM_nil_eq_ok, Except.ok.injEq,
      Prod.ext_iff]
  | cons page pages ih =>
    simp only [scanPages, groupInputs, groupOutputs, bind_eq_ok, foldlM_append_eq_ok, ih]
    constructor
    · rintro ⟨inputs, inputsRun, outputs, outputsRun, restInputs, restOutputs⟩
      exact ⟨⟨inputs, inputsRun, restInputs⟩, outputs, outputsRun, restOutputs⟩
    · rintro ⟨⟨inputs, inputsRun, restInputs⟩, outputs, outputsRun, restOutputs⟩
      exact ⟨inputs, inputsRun, outputs, outputsRun, restInputs, restOutputs⟩

structure PageShape (page : TxBody) : Prop where
  bitmap : page.validityBitmap &&& ~~~pagedSpendValidityMask = 0
  user : page.isCoinbase = false
  deadInputs : ∀ slot : Fin 8, page.inputIsLive slot = false → page.inputs slot = TxInput.dummy
  deadOutputs : ∀ slot : Fin 2, page.outputIsLive slot = false →
    page.outputs slot = TxOutput.dummy

variable {done : Unit}

theorem validatePageShape_eq_ok {page : TxBody} :
    validatePageShape page pageIndex = .ok done ↔ PageShape page := by
  simp only [validatePageShape, bind_eq_ok, require_eq_ok, requireNone_eq_ok, exists_const,
    TxBody.dirtyDeadInput_eq_none, TxBody.dirtyDeadOutput_eq_none]
  constructor
  · rintro ⟨bitmap, user, inputs, outputs⟩
    exact ⟨bitmap, user, inputs, outputs⟩
  · exact fun shape => ⟨shape.bitmap, shape.user, shape.deadInputs, shape.deadOutputs⟩

theorem validatePageShapes_eq_ok :
    validatePageShapes pageIndex pages = .ok done ↔ ∀ page ∈ pages, PageShape page := by
  induction pages generalizing pageIndex with
  | nil => simp [validatePageShapes]
  | cons page pages ih =>
    simp only [validatePageShapes, bind_eq_ok, validatePageShape_eq_ok, exists_const, ih,
      forall_mem_cons]

/-- Markers, owner, epoch and fee of the pages after the first one. -/
structure Continuation (first page : TxBody) : Prop where
  notStart : page.isStart = false
  owner : page.inputOwner = first.inputOwner
  epoch : page.epochAnchor = first.epochAnchor
  fee : page.fee = 0

variable {first : TxBody}

theorem validateContinuity_succ_eq_ok :
    validateContinuity first (pageIndex + 1) pages = .ok done ↔
      (∀ page ∈ pages, Continuation first page) ∧ ∀ page ∈ pages.dropLast, page.isEnd = false := by
  induction pages generalizing pageIndex with
  | nil => simp [validateContinuity]
  | cons page pages ih =>
    simp only [validateContinuity, bind_eq_ok, require_eq_ok, exists_const, ih, ne_eq,
      Nat.add_eq_zero_iff, one_ne_zero, and_false, not_false_eq_true, forall_const, forall_mem_cons]
    cases pages with
    | nil =>
      simp only [not_true_eq_false, false_implies, true_and, dropLast_nil,
        dropLast_singleton, not_mem_nil, implies_true, and_true]
      constructor
      · rintro ⟨start, owner, epoch, fee⟩
        exact ⟨start, owner, epoch, fee⟩
      · exact fun rest => ⟨rest.notStart, rest.owner, rest.epoch, rest.fee⟩
    | cons next pages =>
      simp only [reduceCtorEq, not_false_eq_true, forall_const, dropLast_cons_cons, forall_mem_cons]
      constructor
      · rintro ⟨start, ends, owner, epoch, fee, rest, interior⟩
        exact ⟨⟨⟨start, owner, epoch, fee⟩, rest⟩, ends, interior⟩
      · rintro ⟨⟨page, rest⟩, ends, interior⟩
        exact ⟨page.notStart, ends, page.owner, page.epoch, page.fee, rest, interior⟩

variable {rest : List TxBody}

theorem validateContinuity_first_eq_ok :
    validateContinuity first 0 (first :: rest) = .ok done ↔
      (∀ page ∈ rest, Continuation first page) ∧
        ∀ page ∈ (first :: rest).dropLast, page.isEnd = false := by
  simp only [validateContinuity, bind_eq_ok, require_eq_ok, exists_const,
    validateContinuity_succ_eq_ok]
  cases rest with
  | nil => simp
  | cons next rest =>
    simp only [ne_eq, not_true_eq_false, false_implies, true_and, reduceCtorEq,
      not_false_eq_true, forall_const, dropLast_cons_cons, forall_mem_cons]
    tauto

/-- The group rules, stated on the whole group. -/
structure PagedSpendAccepted (checks : PagedSpendChecks) (first : TxBody) (rest : List TxBody) :
    Prop where
  pageCount : (first :: rest).length ≤ maxPagedSpendPages
  shape : ∀ page ∈ first :: rest, PageShape page
  start : first.isStart = true
  ending : ((first :: rest).getLastD first).isEnd = true
  interior : ∀ page ∈ (first :: rest).dropLast, page.isEnd = false
  continuation : ∀ page ∈ rest, Continuation first page
  denseInputs : DenseEntries (groupInputs 0 (first :: rest))
  denseOutputs : DenseEntries (groupOutputs 0 (first :: rest))
  inputCap : ∀ cap ∈ checks.inputCap, groupLiveInputs (first :: rest) ≤ cap
  outputCap : groupLiveOutputs (first :: rest) ≤ maxPagedSpendOutputs
  distinct : checks.slotDistinctness = true →
    (groupInputSlots (first :: rest)).Nodup ∧ (groupOutputSlots (first :: rest)).Nodup ∧
      ∀ slot ∈ groupInputSlots (first :: rest), slot ∉ groupOutputSlots (first :: rest)
  live : groupLiveInputs (first :: rest) ≠ 0
  minimal : (first :: rest).length =
    requiredPages (groupLiveInputs (first :: rest)) (groupLiveOutputs (first :: rest))
  balance : groupInputSum (first :: rest) =
    groupOutputSum (first :: rest) + first.fee.toNat

def pagedSpendFacts (hasher : TxHasher) (first : TxBody) (rest : List TxBody) :
    PagedSpendFacts where
  logicalTxid := hashPagedSpendUnchecked hasher (first :: rest)
  inputOwner := first.inputOwner
  epochAnchor := first.epochAnchor
  fee := first.fee
  liveInputs := groupLiveInputs (first :: rest)
  liveOutputs := groupLiveOutputs (first :: rest)
  inputSum := groupInputSum (first :: rest)
  outputSum := groupOutputSum (first :: rest)

theorem TxBody.inputSum_le (body : TxBody) : body.inputSum ≤ 8 * 2 ^ 64 := by
  have each : ∀ amount ∈ body.liveInputs.map (fun live => live.2.amount.toNat),
      amount ≤ 2 ^ 64 := by
    intro amount mem
    obtain ⟨live, -, rfl⟩ := mem_map.mp mem
    exact live.2.amount.isLt.le
  have total := sum_le_card_nsmul _ _ each
  have count : body.liveInputs.length ≤ 8 := by
    rw [← body.liveInputCount_eq]
    exact countP_le_length.trans (by simp)
  rw [length_map, smul_eq_mul] at total
  exact total.trans (Nat.mul_le_mul_right _ count)

theorem groupInputSum_lt (count : pages.length ≤ maxPagedSpendPages) :
    groupInputSum pages < u128Bound := by
  have total := sum_le_card_nsmul (pages.map TxBody.inputSum) (8 * 2 ^ 64) (by
    intro amount mem
    obtain ⟨page, -, rfl⟩ := mem_map.mp mem
    exact page.inputSum_le)
  rw [length_map, smul_eq_mul] at total
  have bound : pages.length * (8 * 2 ^ 64) ≤ 128 * (8 * 2 ^ 64) :=
    Nat.mul_le_mul_right _ count
  unfold groupInputSum u128Bound
  omega

theorem validatePagedSpendWith_eq_ok {hasher : TxHasher} {facts : PagedSpendFacts} :
    validatePagedSpendWith checks hasher (first :: rest) = .ok facts ↔
      PagedSpendAccepted checks first rest ∧ facts = pagedSpendFacts hasher first rest := by
  have scans : ∀ finals : SideScan × SideScan,
      scanPages checks 0 (first :: rest) (.start, .start) = .ok finals ↔
        (SideAccepted (inputRule checks) .start (groupInputs 0 (first :: rest)) ∧
          SideScan.after .start (groupInputs 0 (first :: rest)) = finals.1) ∧
        SideAccepted (outputRule checks) .start (groupOutputs 0 (first :: rest)) ∧
          SideScan.after .start (groupOutputs 0 (first :: rest)) = finals.2 := by
    intro finals
    rw [scanPages_eq_ok, scanEntries_eq_ok (by simp [SideScan.start])
      (by simp [SideScan.start, u128Bound]), scanEntries_eq_ok (by simp [SideScan.start])
      (by simp [SideScan.start, u128Bound])]
  simp only [validatePagedSpendWith, bind_eq_ok, require_eq_ok, requireNone_eq_ok, exists_const,
    validatePageShapes_eq_ok, validateContinuity_first_eq_ok, okOr_eq_ok, checkedAdd_eq_some,
    pure_eq_ok, scans, Prod.exists]
  constructor
  · rintro ⟨count, shape, start, ending, ⟨continuation, interior⟩, inputs, outputs,
      ⟨⟨inputsOk, rfl⟩, outputsOk, rfl⟩, live, overlap, minimal, expected, ⟨-, rfl⟩, balance, rfl⟩
    simp only [SideScan.after, SideScan.start, zero_add, liveCount_groupInputs,
      liveCount_groupOutputs, liveSum_groupInputs, liveSum_groupOutputs, liveSlots_groupInputs,
      liveSlots_groupOutputs, append_nil] at live overlap minimal balance
    have inputCap := inputsOk.capped
    have outputCap := outputsOk.capped
    have inputDistinct := inputsOk.distinct
    have outputDistinct := outputsOk.distinct
    simp only [SideScan.start, zero_add, liveCount_groupInputs, liveCount_groupOutputs,
      liveSlots_groupInputs, liveSlots_groupOutputs, inputRule, outputRule, Option.mem_def,
      Option.some.injEq, forall_eq'] at inputCap outputCap inputDistinct outputDistinct
    refine ⟨⟨count, shape, start, ending, interior, continuation, inputsOk.dense,
      outputsOk.dense, inputCap, outputCap, ?_, live, minimal, balance⟩, ?_⟩
    · intro distinct
      refine ⟨(inputDistinct distinct).1, (outputDistinct distinct).1, ?_⟩
      simpa [distinct, find?_eq_none] using overlap
    · simp [pagedSpendFacts, SideScan.after, SideScan.start, liveCount_groupInputs,
        liveCount_groupOutputs, liveSum_groupInputs, liveSum_groupOutputs]
  · rintro ⟨accepted, rfl⟩
    have inputBound := groupInputSum_lt accepted.pageCount
    have balance := accepted.balance
    refine ⟨accepted.pageCount, accepted.shape, accepted.start, accepted.ending,
      ⟨accepted.continuation, accepted.interior⟩, _, _,
      ⟨⟨⟨by simp [SideScan.start], accepted.denseInputs, ?_, ?_, ?_⟩, rfl⟩,
        ⟨by simp [SideScan.start], accepted.denseOutputs, ?_, ?_, ?_⟩, rfl⟩, ?_⟩
    · simpa [SideScan.start, liveCount_groupInputs, inputRule] using accepted.inputCap
    · intro distinct
      simpa [SideScan.start, liveSlots_groupInputs] using (accepted.distinct distinct).1
    · simpa [SideScan.start, liveSum_groupInputs] using inputBound
    · simpa [SideScan.start, liveCount_groupOutputs, outputRule] using accepted.outputCap
    · intro distinct
      simpa [SideScan.start, liveSlots_groupOutputs] using (accepted.distinct distinct).2.1
    · simp only [SideScan.start, liveSum_groupOutputs, zero_add]
      omega
    · simp only [SideScan.after, SideScan.start, zero_add, liveCount_groupInputs,
        liveCount_groupOutputs, liveSum_groupInputs, liveSum_groupOutputs, liveSlots_groupInputs,
        liveSlots_groupOutputs, append_nil]
      refine ⟨accepted.live, ?_, accepted.minimal, _, ⟨by omega, rfl⟩, balance, rfl⟩
      cases distinct : checks.slotDistinctness with
      | false => simp
      | true => simpa [find?_eq_none] using (accepted.distinct distinct).2.2

end Jetsam
