import Jetsam.Consensus.Params
import Jetsam.Control.Delimited
import Jetsam.Tx.PagedSpend

/-!
# The page stream of a block

A block's user pages are split at the END markers into groups, under the capacities of the block's
proof class.
-/

namespace Jetsam

open Control List

inductive BlockProofClass where
  | b25
  | b255
  deriving DecidableEq

variable {generation : HistoryStepPackGeneration}

namespace BlockProofClass

/-- The smallest class of a generation that holds `pageCount` pages. -/
def forPageCountInGeneration (pageCount : Nat) (generation : HistoryStepPackGeneration) :
    Option BlockProofClass :=
  if pageCount ≤ generation.tiers.1 then some b25
  else if pageCount ≤ generation.tiers.2 then some b255
  else none

def pageCapacityInGeneration (generation : HistoryStepPackGeneration) : BlockProofClass → Nat
  | b25 => generation.tiers.1
  | b255 => generation.tiers.2

def inputCapacityInGeneration (generation : HistoryStepPackGeneration) : BlockProofClass → Nat
  | b25 => generation.tiers.1 * txInputs
  | b255 => blockMaxLiveInputs

def outputCapacityInGeneration (generation : HistoryStepPackGeneration) : BlockProofClass → Nat
  | b25 => generation.tiers.1 * txOutputs
  | b255 => blockMaxUserOutputs

theorem forPageCountInGeneration_eq_some {count : Nat} {proofClass : BlockProofClass} :
    forPageCountInGeneration count generation = some proofClass ↔
      count ≤ blockMaxUserPages ∧
        proofClass = if count ≤ generation.tiers.1 then .b25 else .b255 := by
  have tiers : generation.tiers.1 ≤ 25 ∧ generation.tiers.2 = 255 := by
    cases generation <;> decide
  unfold forPageCountInGeneration blockMaxUserPages blockMaxTxs
  split
  · simp only [Option.some.injEq]
    exact ⟨fun equal => ⟨by omega, equal.symm⟩, fun both => both.2.symm⟩
  · split
    · simp only [Option.some.injEq]
      exact ⟨fun equal => ⟨by omega, equal.symm⟩, fun both => both.2.symm⟩
    · simp only [reduceCtorEq, false_iff, not_and]
      omega

end BlockProofClass

/-- One group of the stream with its place among the physical pages. -/
structure PagedSpendGroupFacts where
  startPage : Nat
  pageCount : Nat
  spend : PagedSpendFacts
  deriving DecidableEq

structure PagedSpendStreamFacts where
  proofClass : BlockProofClass
  groups : List PagedSpendGroupFacts
  pageCount : Nat
  logicalCount : Nat
  liveInputs : Nat
  liveOutputs : Nat
  deriving DecidableEq

inductive PagedSpendStreamError where
  | group (error : PagedSpendError)
  | blockPageLimit (actual capacity : Nat)
  | proofClassMismatch (expected actual : BlockProofClass)
  | unterminatedGroup (startPage : Nat)
  | tooManyGroups (actual capacity : Nat)
  | blockInputLimit (actual capacity : Nat)
  | blockOutputLimit (actual capacity : Nat)
  | duplicateInputSlot (slot : BitVec 32)
  | duplicateOutputSlot (slot : BitVec 32)
  | inputOutputSlotOverlap (slot : BitVec 32)
  deriving DecidableEq

/-- Cut the pages at their END markers and validate each group; `pending` holds the open group. -/
def validateGroups (hasher : TxHasher) (capacity : Nat) :
    (start found : Nat) → (pending pages : List TxBody) →
      Except PagedSpendStreamError (List PagedSpendGroupFacts)
  | start, _, pending, [] => do
    require (pending = []) (.unterminatedGroup start)
    pure []
  | start, found, pending, page :: pages =>
    let group := pending ++ [page]
    if page.isEnd then do
      let spend ← mapError .group (validatePagedSpend hasher group)
      require (found + 1 ≤ capacity) (.tooManyGroups (found + 1) capacity)
      let rest ← validateGroups hasher capacity (start + group.length) (found + 1) [] pages
      pure (⟨start, group.length, spend⟩ :: rest)
    else validateGroups hasher capacity start found group pages

/-- Insert the slots of the pages one by one, spent and minted slots apart. -/
def requireStreamSlots : (spent minted : List (BitVec 32)) → List TxBody →
    Except PagedSpendStreamError Unit
  | spent, minted, [] =>
    requireNone (spent.find? (· ∈ minted)) .inputOutputSlotOverlap
  | spent, minted, page :: pages => do
    requireNone (firstRepeat spent page.inputSlots) .duplicateInputSlot
    requireNone (firstRepeat minted page.outputSlots) .duplicateOutputSlot
    requireStreamSlots (spent ++ page.inputSlots) (minted ++ page.outputSlots) pages

def validateStreamForClassIn (hasher : TxHasher) (pages : List TxBody)
    (proofClass : BlockProofClass) (generation : HistoryStepPackGeneration) :
    Except PagedSpendStreamError PagedSpendStreamFacts := do
  let capacity := proofClass.pageCapacityInGeneration generation
  require (pages.length ≤ capacity) (.blockPageLimit pages.length capacity)
  let expected ← okOr (BlockProofClass.forPageCountInGeneration pages.length generation)
    (.blockPageLimit pages.length blockMaxUserPages)
  require (expected = proofClass) (.proofClassMismatch expected proofClass)
  let groups ← validateGroups hasher capacity 0 0 [] pages
  let inputCapacity := proofClass.inputCapacityInGeneration generation
  let liveInputs ← okOr (checkedSum u64Bound 0 (groups.map fun group => group.spend.liveInputs))
    (.blockInputLimit u64Max inputCapacity)
  require (liveInputs ≤ inputCapacity) (.blockInputLimit liveInputs inputCapacity)
  let outputCapacity := proofClass.outputCapacityInGeneration generation
  let liveOutputs ← okOr (checkedSum u64Bound 0 (groups.map fun group => group.spend.liveOutputs))
    (.blockOutputLimit u64Max outputCapacity)
  require (liveOutputs ≤ outputCapacity) (.blockOutputLimit liveOutputs outputCapacity)
  requireStreamSlots [] [] pages
  pure
    { proofClass, groups
      pageCount := pages.length
      logicalCount := groups.length
      liveInputs, liveOutputs }

/-- The stream validator under the smallest class that holds the pages. -/
def validatePagedSpendTransactionStreamIn (hasher : TxHasher) (pages : List TxBody)
    (generation : HistoryStepPackGeneration) :
    Except PagedSpendStreamError PagedSpendStreamFacts := do
  let proofClass ← okOr (BlockProofClass.forPageCountInGeneration pages.length generation)
    (.blockPageLimit pages.length blockMaxUserPages)
  validateStreamForClassIn hasher pages proofClass generation

abbrev PageGroup := TxBody × List TxBody

def PageGroup.pages (group : PageGroup) : List TxBody := group.1 :: group.2

def PageGroup.Accepted (group : PageGroup) : Prop :=
  PagedSpendAccepted .production group.1 group.2

/-- Facts of consecutive groups, the first of them at page `start`. -/
def groupFacts (hasher : TxHasher) : Nat → List PageGroup → List PagedSpendGroupFacts
  | _, [] => []
  | start, group :: groups =>
    ⟨start, group.pages.length, pagedSpendFacts hasher group.1 group.2⟩ ::
      groupFacts hasher (start + group.pages.length) groups

@[simp]
theorem length_groupFacts (hasher : TxHasher) (start : Nat) (groups : List PageGroup) :
    (groupFacts hasher start groups).length = groups.length := by
  induction groups generalizing start with
  | nil => rfl
  | cons group groups ih => simp [groupFacts, ih]

theorem map_spend_groupFacts (hasher : TxHasher) (start : Nat) (groups : List PageGroup) :
    (groupFacts hasher start groups).map PagedSpendGroupFacts.spend =
      groups.map fun group => pagedSpendFacts hasher group.1 group.2 := by
  induction groups generalizing start with
  | nil => rfl
  | cons group groups ih => simp [groupFacts, ih]

theorem map_groupFacts {β : Type} (hasher : TxHasher) (start : Nat) (groups : List PageGroup)
    (read : PagedSpendFacts → β) :
    ((groupFacts hasher start groups).map fun group => read group.spend) =
      groups.map fun group => read (pagedSpendFacts hasher group.1 group.2) := by
  have spends := congrArg (List.map read) (map_spend_groupFacts hasher start groups)
  simpa only [map_map, Function.comp_def] using spends

theorem PageGroup.Accepted.split {group : PageGroup} (accepted : group.Accepted) :
    ∃ body last, group.pages = body ++ [last] ∧ (∀ page ∈ body, page.isEnd = false) ∧
      last.isEnd = true := by
  refine ⟨group.pages.dropLast, group.pages.getLastD group.1, ?_, accepted.interior,
    accepted.ending⟩
  have nonempty : group.pages ≠ [] := cons_ne_nil _ _
  rw [getLastD_eq_getLast?, getLast?_eq_getLast_of_ne_nil nonempty, Option.getD_some,
    dropLast_append_getLast]

variable {hasher : TxHasher} {pages : List TxBody}

theorem validatePagedSpend_pages {facts : PagedSpendFacts} :
    validatePagedSpend hasher pages = .ok facts ↔
      ∃ group : PageGroup, pages = group.pages ∧ group.Accepted ∧
        facts = pagedSpendFacts hasher group.1 group.2 := by
  cases pages with
  | nil => simp [validatePagedSpend, validatePagedSpendWith, PageGroup.pages]
  | cons first rest =>
    rw [validatePagedSpend, validatePagedSpendWith_eq_ok]
    constructor
    · rintro ⟨accepted, rfl⟩
      exact ⟨(first, rest), rfl, accepted, rfl⟩
    · rintro ⟨⟨first', rest'⟩, equal, accepted, rfl⟩
      obtain ⟨rfl, rfl⟩ := List.cons.inj equal
      exact ⟨accepted, rfl⟩

theorem validateGroups_eq_ok {capacity start found : Nat} {pending : List TxBody}
    {facts : List PagedSpendGroupFacts} (isOpen : ∀ page ∈ pending, page.isEnd = false) :
    validateGroups hasher capacity start found pending pages = .ok facts ↔
      ∃ groups : List PageGroup, pending ++ pages = groups.flatMap PageGroup.pages ∧
        (∀ group ∈ groups, group.Accepted) ∧
        (groups ≠ [] → found + groups.length ≤ capacity) ∧
        facts = groupFacts hasher start groups := by
  induction pages generalizing start found pending facts with
  | nil =>
    simp only [validateGroups, bind_eq_ok, require_eq_ok, exists_const, pure_eq_ok, append_nil]
    constructor
    · rintro ⟨rfl, rfl⟩
      exact ⟨[], by simp [groupFacts]⟩
    · rintro ⟨groups, equal, accepted, -, rfl⟩
      cases groups with
      | nil => exact ⟨equal, rfl⟩
      | cons group groups =>
        obtain ⟨body, last, pagesEq, -, ends⟩ := (accepted group mem_cons_self).split
        have mem : last ∈ pending := by
          rw [equal]
          simp [pagesEq]
        simp [isOpen last mem] at ends
  | cons page pages ih =>
    by_cases ends : page.isEnd = true
    · have noneOpen : ∀ page ∈ ([] : List TxBody), page.isEnd = false := by simp
      simp only [validateGroups, ends, if_true, bind_eq_ok, require_eq_ok, exists_const,
        pure_eq_ok, mapError_eq_ok, ih noneOpen, nil_append]
      constructor
      · rintro ⟨spend, valid, capped, rest, ⟨groups, rfl, accepted, bound, rfl⟩, rfl⟩
        obtain ⟨group, pagesEq, groupAccepted, rfl⟩ := validatePagedSpend_pages.mp valid
        refine ⟨group :: groups, ?_, ?_, fun _ => ?_, ?_⟩
        · simp [← pagesEq]
        · exact forall_mem_cons.mpr ⟨groupAccepted, accepted⟩
        · cases groups with
          | nil => simpa using capped
          | cons next groups =>
            have := bound (cons_ne_nil _ _)
            simp only [length_cons] at this ⊢
            omega
        · rw [groupFacts, pagesEq]
      · rintro ⟨groups, equal, accepted, bound, rfl⟩
        cases groups with
        | nil => simp at equal
        | cons group groups =>
          have groupAccepted := accepted group mem_cons_self
          obtain ⟨body, last, pagesEq, interior, lastEnds⟩ := groupAccepted.split
          have cut : pending ++ page :: pages =
              body ++ last :: groups.flatMap PageGroup.pages := by
            rw [equal, flatMap_cons, pagesEq, append_assoc, singleton_append]
          obtain ⟨rfl, rfl, rfl⟩ :=
            first_marked_unique isOpen ends interior lastEnds cut
          have capped := bound (cons_ne_nil _ _)
          simp only [length_cons] at capped
          refine ⟨_, validatePagedSpend_pages.mpr ⟨group, pagesEq.symm, groupAccepted, rfl⟩,
            by omega, _, ⟨groups, rfl, fun other mem =>
              accepted other (mem_cons_of_mem _ mem), fun _ => by omega, rfl⟩, ?_⟩
          rw [groupFacts, pagesEq]
    · simp only [validateGroups, ends]
      have stillOpen : ∀ other ∈ pending ++ [page], other.isEnd = false := by
        intro other mem
        rcases mem_append.mp mem with mem | mem
        · exact isOpen other mem
        · simpa [mem_singleton.mp mem] using ends
      simpa using ih stillOpen

theorem requireStreamSlots_eq_ok {spent minted : List (BitVec 32)} {done : Unit}
    (spentOnce : spent.Nodup) (mintedOnce : minted.Nodup) :
    requireStreamSlots spent minted pages = .ok done ↔
      (spent ++ groupInputSlots pages).Nodup ∧ (minted ++ groupOutputSlots pages).Nodup ∧
        ∀ slot ∈ spent ++ groupInputSlots pages, slot ∉ minted ++ groupOutputSlots pages := by
  induction pages generalizing spent minted with
  | nil =>
    simp [requireStreamSlots, groupInputSlots, groupOutputSlots, find?_eq_none, spentOnce,
      mintedOnce]
  | cons page pages ih =>
    simp only [requireStreamSlots, bind_eq_ok, requireNone_eq_ok, exists_const, firstRepeat_eq_none,
      groupInputSlots, groupOutputSlots, flatMap_cons, ← append_assoc]
    have join {seen items : List (BitVec 32)} (seenOnce : seen.Nodup) :
        (items.Nodup ∧ ∀ item ∈ items, item ∉ seen) ↔ (seen ++ items).Nodup := by
      rw [nodup_append']
      simp only [seenOnce, true_and, disjoint_left]
      exact and_congr_right fun _ => ⟨fun fresh item inSeen inItems => fresh item inItems inSeen,
        fun fresh item inItems inSeen => fresh inSeen inItems⟩
    rw [join spentOnce, join mintedOnce]
    constructor
    · rintro ⟨spentNow, mintedNow, rest⟩
      exact (ih spentNow mintedNow).mp rest
    · intro whole
      have spentNow := whole.1.sublist (sublist_append_left _ _)
      have mintedNow := whole.2.1.sublist (sublist_append_left _ _)
      exact ⟨spentNow, mintedNow, (ih spentNow mintedNow).mpr whole⟩

theorem sum_flatMap_pages (weight : TxBody → Nat) (groups : List PageGroup) :
    (groups.map fun group => (group.pages.map weight).sum).sum =
      ((groups.flatMap PageGroup.pages).map weight).sum := by
  induction groups with
  | nil => rfl
  | cons group groups ih => simp [ih]

theorem TxBody.liveInputCount_le (body : TxBody) : body.liveInputCount ≤ txInputs :=
  countP_le_length.trans (by simp [txInputs])

theorem TxBody.liveOutputCount_le (body : TxBody) : body.liveOutputCount ≤ txOutputs :=
  countP_le_length.trans (by simp [txOutputs])

theorem groupLiveInputs_le (pages : List TxBody) :
    groupLiveInputs pages ≤ pages.length * txInputs := by
  have total := sum_le_card_nsmul (pages.map TxBody.liveInputCount) txInputs (by
    intro count mem
    obtain ⟨page, -, rfl⟩ := mem_map.mp mem
    exact page.liveInputCount_le)
  simpa [groupLiveInputs] using total

theorem groupLiveOutputs_le (pages : List TxBody) :
    groupLiveOutputs pages ≤ pages.length * txOutputs := by
  have total := sum_le_card_nsmul (pages.map TxBody.liveOutputCount) txOutputs (by
    intro count mem
    obtain ⟨page, -, rfl⟩ := mem_map.mp mem
    exact page.liveOutputCount_le)
  simpa [groupLiveOutputs] using total

/-- The stream rules, on the groups the pages split into. -/
structure StreamAccepted (pages : List TxBody) (groups : List PageGroup) : Prop where
  split : pages = groups.flatMap PageGroup.pages
  accepted : ∀ group ∈ groups, group.Accepted
  pageLimit : pages.length ≤ blockMaxUserPages
  inputLimit : groupLiveInputs pages ≤ blockMaxLiveInputs
  spentOnce : (groupInputSlots pages).Nodup
  mintedOnce : (groupOutputSlots pages).Nodup
  apart : ∀ slot ∈ groupInputSlots pages, slot ∉ groupOutputSlots pages

def streamFacts (hasher : TxHasher) (generation : HistoryStepPackGeneration) (pages : List TxBody)
    (groups : List PageGroup) : PagedSpendStreamFacts where
  proofClass := if pages.length ≤ generation.tiers.1 then .b25 else .b255
  groups := groupFacts hasher 0 groups
  pageCount := pages.length
  logicalCount := groups.length
  liveInputs := groupLiveInputs pages
  liveOutputs := groupLiveOutputs pages

theorem length_le_flatMap_pages (groups : List PageGroup) :
    groups.length ≤ (groups.flatMap PageGroup.pages).length := by
  induction groups with
  | nil => simp
  | cons group groups ih =>
    simp only [flatMap_cons, length_append, length_cons, PageGroup.pages] at ih ⊢
    omega

/-- The stream validator accepts exactly the streams that satisfy the stream rules. -/
theorem validatePagedSpendTransactionStreamIn_eq_ok {facts : PagedSpendStreamFacts} :
    validatePagedSpendTransactionStreamIn hasher pages generation = .ok facts ↔
      ∃ groups, StreamAccepted pages groups ∧
        facts = streamFacts hasher generation pages groups := by
  have tiers : 24 ≤ generation.tiers.1 ∧ generation.tiers.1 ≤ 25 ∧ generation.tiers.2 = 255 := by
    cases generation <;> decide
  have inputs := groupLiveInputs_le pages
  have outputs := groupLiveOutputs_le pages
  simp only [txInputs, txOutputs] at inputs outputs
  have noneOpen : ∀ page ∈ ([] : List TxBody), page.isEnd = false := by simp
  simp only [validatePagedSpendTransactionStreamIn, validateStreamForClassIn, bind_eq_ok,
    okOr_eq_ok, require_eq_ok, exists_const, pure_eq_ok,
    BlockProofClass.forPageCountInGeneration_eq_some, validateGroups_eq_ok noneOpen,
    requireStreamSlots_eq_ok nodup_nil nodup_nil, nil_append,
    checkedSum_eq_some (show 0 < u64Bound by decide), Nat.zero_add]
  constructor
  · rintro ⟨_, ⟨limit, rfl⟩, -, _, ⟨-, rfl⟩, -, _, ⟨groups, split, accepted, -, rfl⟩, _,
      ⟨-, rfl⟩, inputLimit, _, ⟨-, rfl⟩, outputLimit, ⟨spentOnce, mintedOnce, apart⟩, rfl⟩
    simp only [map_groupFacts hasher 0 groups PagedSpendFacts.liveInputs, pagedSpendFacts,
      map_groupFacts hasher 0 groups PagedSpendFacts.liveOutputs] at inputLimit outputLimit ⊢
    have inputSum := sum_flatMap_pages TxBody.liveInputCount groups
    have outputSum := sum_flatMap_pages TxBody.liveOutputCount groups
    rw [← split] at inputSum outputSum
    refine ⟨groups, ⟨split, accepted, limit, ?_, spentOnce, mintedOnce, apart⟩, ?_⟩
    · change _ = groupLiveInputs pages at inputSum
      rw [← inputSum]
      refine inputLimit.trans ?_
      split_ifs <;>
        simp only [BlockProofClass.inputCapacityInGeneration, txInputs, blockMaxLiveInputs] <;>
        omega
    · simp only [streamFacts, length_groupFacts, PagedSpendStreamFacts.mk.injEq, true_and]
      exact ⟨inputSum, outputSum⟩
  · rintro ⟨groups, stream, rfl⟩
    have inputSum := sum_flatMap_pages TxBody.liveInputCount groups
    have outputSum := sum_flatMap_pages TxBody.liveOutputCount groups
    rw [← stream.split] at inputSum outputSum
    have limit := stream.pageLimit
    have inputLimit := stream.inputLimit
    simp only [blockMaxUserPages, blockMaxTxs, blockMaxLiveInputs] at limit inputLimit
    have groupCount := length_le_flatMap_pages groups
    rw [← stream.split] at groupCount
    have capacity : pages.length ≤ BlockProofClass.pageCapacityInGeneration generation
        (if pages.length ≤ generation.tiers.1 then .b25 else .b255) := by
      split_ifs <;> simp only [BlockProofClass.pageCapacityInGeneration] <;> omega
    refine ⟨_, ⟨stream.pageLimit, rfl⟩, capacity, _, ⟨stream.pageLimit, rfl⟩, rfl, _,
      ⟨groups, stream.split, stream.accepted, fun _ => by omega, rfl⟩, groupLiveInputs pages, ?_,
      ?_, groupLiveOutputs pages, ?_, ?_, ⟨stream.spentOnce, stream.mintedOnce, stream.apart⟩, ?_⟩
    · rw [map_groupFacts hasher 0 groups PagedSpendFacts.liveInputs]
      refine ⟨lt_of_eq_of_lt inputSum ?_, inputSum⟩
      change groupLiveInputs pages < u64Bound
      unfold u64Bound
      omega
    · split_ifs <;>
        simp only [BlockProofClass.inputCapacityInGeneration, txInputs, blockMaxLiveInputs] <;>
        omega
    · rw [map_groupFacts hasher 0 groups PagedSpendFacts.liveOutputs]
      refine ⟨lt_of_eq_of_lt outputSum ?_, outputSum⟩
      change groupLiveOutputs pages < u64Bound
      unfold u64Bound
      omega
    · split_ifs <;>
        simp only [BlockProofClass.outputCapacityInGeneration, txOutputs, blockMaxUserOutputs] <;>
        omega
    · simp [streamFacts]

end Jetsam
