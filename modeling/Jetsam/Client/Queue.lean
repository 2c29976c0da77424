import Jetsam.Client.Branch
import Jetsam.Control.StableRanking
import Jetsam.Control.Tables
import Jetsam.Mempool.Admission

/-!
# The miner's queue of client proofs

A node keeps the received client proofs in a bounded queue, and the block template takes the best
one that the next block may carry. Arrival numbers are given to accepted candidates only; the queue
still holds the best of everything ever offered, earlier offers first among equal fees.
-/

namespace Jetsam

open Control List

structure ClientCandidate (T : Type) where
  submission : ClientSubmission
  payment : PagedSpendIntent
  /-- What the miner needs to carry the client. -/
  payload : T

inductive ClientQueueError where
  | malformedPayment
  | notThePayment
  | feeTooLow (minimum paid : Nat)
  | duplicate
  | full
  /-- A full queue without a worst entry. -/
  | panicked

structure Queued (T : Type) where
  candidate : ClientCandidate T
  fee : Nat
  liveInputs : Nat
  liveOutputs : Nat
  anchor : Digest
  arrival : Nat

/-- Higher fees rank higher, and earlier arrivals among equal fees. -/
def Queued.rank {T : Type} (queued : Queued T) : ℕ ×ₗ ℕᵒᵈ :=
  toLex (queued.fee, OrderDual.toDual queued.arrival)

/-- Whether a group pays a submission: its only marker opens it and carries no value. -/
def paysSubmission (commitment : ClientObject → Digest) (pages : List TxBody)
    (submission : ClientSubmission) : Bool :=
  let marker := (ClientObject.submission submission).marker commitment
  match (liveOutputsOf pages).filter fun output => (clientObjectMarkerKind output.owner).isSome with
  | [output] => output.owner = marker ∧ output.amount = 0
  | _ => false

def ClientCandidate.key {T : Type} (candidate : ClientCandidate T) : Digest × Digest :=
  (candidate.submission.matrixDigest, candidate.submission.ioCommitment)

structure ClientSubmissionQueue (T : Type) where
  capacity : Nat
  nextArrival : Nat
  entries : Table (Digest × Digest) (Queued T)

namespace ClientSubmissionQueue

variable {T D : Type}

def new (capacity : Nat) : ClientSubmissionQueue T := ⟨max capacity 1, 0, ∅⟩

section Operations

variable (hashes : ChainHashes D) (rules : ClientObjectRules)

def enqueue (candidate : ClientCandidate T) (spend : PagedSpendFacts) (arrival : Nat) :
    Queued T where
  candidate
  fee := spend.fee.toNat
  liveInputs := spend.liveInputs
  liveOutputs := spend.liveOutputs
  anchor := spend.epochAnchor
  arrival

/-- Place an entry with a new key; a strictly better one displaces the worst of a full queue. -/
def place (queue : ClientSubmissionQueue T) (queued : Queued T) :
    Except ClientQueueError (ClientSubmissionQueue T × Option (ClientCandidate T)) :=
  if queue.entries.entries.length < queue.capacity then
    return ({ queue with
      nextArrival := queue.nextArrival + 1
      entries := queue.entries.insert queued.candidate.key queued }, none)
  else do
    let worst ← okOr (queue.entries.entries.argmin fun entry => entry.2.rank) .panicked
    require (worst.2.rank < queued.rank) .full
    return ({ queue with
      nextArrival := queue.nextArrival + 1
      entries := (queue.entries.erase worst.1).insert queued.candidate.key queued },
      some worst.2.candidate)

def insert (queue : ClientSubmissionQueue T) (candidate : ClientCandidate T) :
    Except ClientQueueError (ClientSubmissionQueue T × Option (ClientCandidate T)) := do
  let spend ← mapError (fun _ => .malformedPayment)
    (validatePagedSpend hashes.tx candidate.payment.pages)
  require (paysSubmission hashes.commitment candidate.payment.pages candidate.submission = true)
    .notThePayment
  require (rules.submissionFeeMicro ≤ spend.fee.toNat)
    (.feeTooLow rules.submissionFeeMicro spend.fee.toNat)
  require ((queue.entries.lookup candidate.key).isNone) .duplicate
  queue.place (enqueue candidate spend queue.nextArrival)

/-- Whether the next block may carry an entry and its payment covers the required fee. -/
def eligible (parent : BlockHeader D) (registry : ClientRegistryState) (anchorOk : Digest → Bool)
    (queued : Queued T) : Bool :=
  (registry.checkCarriable rules (satAdd parent.height 1)
      queued.candidate.submission.matrixDigest).isOk &&
    anchorOk queued.anchor &&
    decide (satAdd (feeBreakdown queued.liveInputs queued.liveOutputs parent.activeSlotCount
      parent.logSlots).requiredTotal rules.submissionFeeMicro ≤ queued.fee)

def best (queue : ClientSubmissionQueue T) (parent : BlockHeader D)
    (registry : ClientRegistryState) (anchorOk : Digest → Bool) : Option (ClientCandidate T) :=
  ((queue.entries.values.filter (eligible rules parent registry anchorOk)).argmax
    Queued.rank).map Queued.candidate

/-- Offer candidates one after the other; refused ones leave the queue as it is. -/
def offer (queue : ClientSubmissionQueue T) (candidates : List (ClientCandidate T)) :
    ClientSubmissionQueue T :=
  candidates.foldl (fun queue candidate =>
    match queue.insert hashes rules candidate with
    | .ok (next, _) => next
    | .error _ => queue) queue

/-- What the payment of a candidate spends, if it passes the payment and fee checks. -/
def passing (candidate : ClientCandidate T) : Option PagedSpendFacts :=
  match validatePagedSpend hashes.tx candidate.payment.pages with
  | .error _ => none
  | .ok spend =>
    if paysSubmission hashes.commitment candidate.payment.pages candidate.submission = true ∧
      rules.submissionFeeMicro ≤ spend.fee.toNat then some spend else none

def feeOf (candidate : ClientCandidate T) : Nat :=
  (passing hashes rules candidate).elim 0 fun spend => spend.fee.toNat

/-- The first candidate pays at least as much as the second. -/
def PaysAsMuch (first second : ClientCandidate T) : Prop :=
  feeOf hashes rules second ≤ feeOf hashes rules first

instance : DecidableRel (PaysAsMuch (T := T) hashes rules) := fun _ _ =>
  inferInstanceAs (Decidable (_ ≤ _))

/-- The candidates that pass, by fee and then in the order of the offers. -/
def ranking (candidates : List (ClientCandidate T)) : List (ClientCandidate T) :=
  (candidates.filter fun candidate => (passing hashes rules candidate).isSome).insertionSort
    (PaysAsMuch hashes rules)

/-- A candidate that the next block may carry and that pays the required fee. -/
def eligibleCandidate (parent : BlockHeader D) (registry : ClientRegistryState)
    (anchorOk : Digest → Bool) (candidate : ClientCandidate T) : Bool :=
  (passing hashes rules candidate).any fun spend =>
    eligible rules parent registry anchorOk (enqueue candidate spend 0)

end Operations

variable {hashes : ChainHashes D} {rules : ClientObjectRules}

theorem rank_lt_iff {left right : Queued T} :
    left.rank < right.rank ↔
      left.fee < right.fee ∨ left.fee = right.fee ∧ right.arrival < left.arrival := by
  rw [Queued.rank, Queued.rank, Prod.Lex.toLex_lt_toLex]
  rfl

instance : Std.Total (PaysAsMuch (T := T) hashes rules) := ⟨fun _ _ => le_total _ _⟩

instance : IsTrans (ClientCandidate T) (PaysAsMuch hashes rules) :=
  ⟨fun _ _ _ first second => le_trans second first⟩

variable {queue : ClientSubmissionQueue T} {candidate : ClientCandidate T}

theorem insert_of_not_passing (fails : passing hashes rules candidate = none) :
    ∃ error, queue.insert hashes rules candidate = .error error := by
  cases outcome : queue.insert hashes rules candidate with
  | error error => exact ⟨error, rfl⟩
  | ok result =>
    obtain ⟨spend, valid, rest⟩ := bind_eq_ok.mp outcome
    obtain ⟨pays, rest⟩ := require_bind_eq_ok.mp rest
    obtain ⟨enough, -⟩ := require_bind_eq_ok.mp rest
    rw [mapError_eq_ok] at valid
    simp [passing, valid, pays, enough] at fails

theorem insert_of_passing {spend : PagedSpendFacts}
    (passes : passing hashes rules candidate = some spend)
    (fresh : queue.entries.lookup candidate.key = none) :
    queue.insert hashes rules candidate =
      queue.place (enqueue candidate spend queue.nextArrival) := by
  rw [passing] at passes
  split at passes
  case h_1 => cases passes
  case h_2 read valid =>
      obtain ⟨⟨pays, enough⟩, same⟩ := Option.ite_none_right_eq_some.mp passes
      obtain rfl := Option.some.inj same
      have isNew : (queue.entries.lookup candidate.key).isNone = true := by
        rw [fresh, Option.isNone_none]
      have through {condition : Prop} [Decidable condition] (holds : condition)
          (error : ClientQueueError) : require condition error = .ok () :=
        require_eq_ok.mpr holds
      rw [insert, bind_of_ok (mapError_eq_ok.mpr valid), bind_of_ok (through pays _),
        bind_of_ok (through enough _), bind_of_ok (through isNew _)]

variable {queued : Queued T}

theorem place_of_full {worst : Σ _ : Digest × Digest, Queued T}
    (full : ¬queue.entries.entries.length < queue.capacity)
    (found : queue.entries.entries.argmin (fun entry => entry.2.rank) = some worst) :
    queue.place queued =
      if worst.2.rank < queued.rank then
        .ok ({ queue with
          nextArrival := queue.nextArrival + 1
          entries := (queue.entries.erase worst.1).insert queued.candidate.key queued },
          some worst.2.candidate)
      else .error .full := by
  rw [place, if_neg full, found, okOr, bind_of_ok rfl, require]
  split <;> rfl

/-- The held entries, best first, are the first ones of the ranking of all offers. -/
structure Holds (hashes : ChainHashes D) (rules : ClientObjectRules)
    (queue : ClientSubmissionQueue T) (offered : List (ClientCandidate T))
    (held : List (Queued T)) : Prop where
  perm : held.Perm queue.entries.values
  ordered : held.Pairwise fun left right => right.rank < left.rank
  early : ∀ queued ∈ held, queued.arrival < queue.nextArrival
  read : ∀ queued ∈ held, ∃ spend, passing hashes rules queued.candidate = some spend ∧
    queued = enqueue queued.candidate spend queued.arrival
  keyed : ∀ key queued, queue.entries.lookup key = some queued → key = queued.candidate.key
  best : held.map Queued.candidate = (ranking hashes rules offered).take queue.capacity
  positive : 0 < queue.capacity

variable {offered : List (ClientCandidate T)} {held : List (Queued T)}

theorem Holds.feeOf (holds : Holds hashes rules queue offered held) (mem : queued ∈ held) :
    feeOf hashes rules queued.candidate = queued.fee := by
  obtain ⟨spend, passes, same⟩ := holds.read queued mem
  rw [ClientSubmissionQueue.feeOf, passes, Option.elim_some, same, enqueue]

theorem holds_new (capacity : Nat) :
    Holds hashes rules (new capacity : ClientSubmissionQueue T) [] [] where
  perm := List.Perm.nil
  ordered := List.Pairwise.nil
  early := by simp
  read := by simp
  keyed := by
    intro key queued found
    cases found
  best := by simp [ranking]
  positive := by simp [new]

theorem ranking_append_of_not_passing (fails : passing hashes rules candidate = none) :
    ranking hashes rules (offered ++ [candidate]) = ranking hashes rules offered := by
  simp [ranking, fails]

theorem take_ranking_append (passes : (passing hashes rules candidate).isSome) (count : Nat) :
    (ranking hashes rules (offered ++ [candidate])).take count =
      (insertBehind (PaysAsMuch hashes rules) candidate
        ((ranking hashes rules offered).take count)).take count := by
  have single : [candidate].filter (fun candidate => (passing hashes rules candidate).isSome) =
      [candidate] := by
    rw [filter_singleton, passes]
    rfl
  rw [ranking, filter_append, single, take_insertionSort_append]
  rfl

theorem mem_of_mem_ranking (mem : candidate ∈ ranking hashes rules offered) :
    candidate ∈ offered := by
  rw [ranking, mem_insertionSort] at mem
  exact (mem_filter.mp mem).1

theorem Holds.fresh (holds : Holds hashes rules queue offered held)
    (new : candidate.key ∉ offered.map ClientCandidate.key) :
    queue.entries.lookup candidate.key = none := by
  rw [Option.eq_none_iff_forall_not_mem]
  intro queued found
  have same := holds.keyed _ _ found
  have mem : queued ∈ held := by
    apply holds.perm.symm.subset
    exact Table.mem_values.mpr ⟨_, found⟩
  have ranked : queued.candidate ∈ (ranking hashes rules offered).take queue.capacity := by
    rw [← holds.best]
    exact mem_map_of_mem mem
  apply new
  rw [same]
  exact mem_map_of_mem (mem_of_mem_ranking (mem_of_mem_take ranked))

/-- The order in which a new entry finds its place. -/
def FeeAsHigh (first second : Queued T) : Prop := second.fee ≤ first.fee

instance : DecidableRel (FeeAsHigh (T := T)) := fun _ _ => inferInstanceAs (Decidable (_ ≤ _))

section Placing

variable {queue : ClientSubmissionQueue T} {offered : List (ClientCandidate T)}
  {held : List (Queued T)} {candidate : ClientCandidate T} {spend : PagedSpendFacts}

theorem Holds.ordered_insertBehind (holds : Holds hashes rules queue offered held)
    (kept : List (Queued T)) (sublist : kept.Sublist held) :
    (insertBehind FeeAsHigh (enqueue candidate spend queue.nextArrival) kept).Pairwise
      fun left right => right.rank < left.rank := by
  apply pairwise_insertBehind
  · intro _ _ _ first second
    exact second.trans first
  · exact holds.ordered.sublist sublist
  · intro other mem waits
    have early := holds.early other (sublist.subset mem)
    rw [rank_lt_iff]
    rcases lt_or_eq_of_le waits with less | equal
    · exact .inl less
    · exact .inr ⟨equal, early⟩
  · intro other _ beats
    rw [rank_lt_iff]
    exact .inl (Nat.lt_of_not_le beats)

theorem Holds.map_insertBehind (holds : Holds hashes rules queue offered held)
    (passes : passing hashes rules candidate = some spend) (kept : List (Queued T))
    (sublist : kept.Sublist held) :
    (insertBehind FeeAsHigh (enqueue candidate spend queue.nextArrival) kept).map
        Queued.candidate =
      insertBehind (PaysAsMuch hashes rules) candidate (kept.map Queued.candidate) := by
  apply Control.map_insertBehind
  intro other mem
  rw [PaysAsMuch, FeeAsHigh, holds.feeOf (sublist.subset mem)]
  simp [ClientSubmissionQueue.feeOf, passes, enqueue]

theorem Holds.enter (holds : Holds hashes rules queue offered held)
    (passes : passing hashes rules candidate = some spend) {kept : List (Queued T)}
    (sublist : kept.Sublist held) {remaining : Table (Digest × Digest) (Queued T)}
    (perm : kept.Perm remaining.values)
    (keyed : ∀ key queued, remaining.lookup key = some queued → key = queued.candidate.key)
    (fresh : remaining.lookup candidate.key = none)
    (best : insertBehind (PaysAsMuch hashes rules) candidate (kept.map Queued.candidate) =
      (ranking hashes rules (offered ++ [candidate])).take queue.capacity) :
    Holds hashes rules
      { queue with
        nextArrival := queue.nextArrival + 1
        entries := remaining.insert candidate.key
          (enqueue candidate spend queue.nextArrival) }
      (offered ++ [candidate])
      (insertBehind FeeAsHigh (enqueue candidate spend queue.nextArrival) kept) := by
  have members := perm_insertBehind FeeAsHigh (enqueue candidate spend queue.nextArrival) kept
  have values : Table.values (remaining.insert candidate.key
      (enqueue candidate spend queue.nextArrival)) =
        enqueue candidate spend queue.nextArrival :: remaining.values := by
    rw [Table.values, AList.entries_insert_of_notMem (AList.lookup_eq_none.mp fresh), map_cons]
    rfl
  constructor
  · rw [values]
    exact members.trans (perm.cons _)
  · exact holds.ordered_insertBehind kept sublist
  · intro queued mem
    rcases mem_cons.mp (members.subset mem) with rfl | mem
    · exact Nat.lt_succ_self _
    · exact (holds.early queued (sublist.subset mem)).trans (Nat.lt_succ_self _)
  · intro queued mem
    rcases mem_cons.mp (members.subset mem) with rfl | mem
    · exact ⟨spend, passes, rfl⟩
    · exact holds.read queued (sublist.subset mem)
  · intro key queued found
    rw [Table.lookup_insert] at found
    split at found
    case isTrue same =>
        obtain rfl := Option.some.inj found
        exact same
    case isFalse => exact keyed key queued found
  · rw [holds.map_insertBehind passes kept sublist, best]
  · exact holds.positive

theorem Holds.length_entries (holds : Holds hashes rules queue offered held) :
    queue.entries.entries.length = held.length := by
  rw [holds.perm.length_eq, Table.values, length_map]

theorem Holds.length_le (holds : Holds hashes rules queue offered held) :
    held.length ≤ queue.capacity := by
  have length := congrArg List.length holds.best
  rw [length_map, length_take] at length
  omega

theorem Holds.place (holds : Holds hashes rules queue offered held)
    (passes : passing hashes rules candidate = some spend)
    (fresh : queue.entries.lookup candidate.key = none) :
    ∃ held', match queue.place (enqueue candidate spend queue.nextArrival) with
      | .ok (next, _) => Holds hashes rules next (offered ++ [candidate]) held'
      | .error _ => Holds hashes rules queue (offered ++ [candidate]) held' := by
  have isPassing : (passing hashes rules candidate).isSome = true := by
    rw [passes, Option.isSome_some]
  have grown : (ranking hashes rules (offered ++ [candidate])).take queue.capacity =
      (insertBehind (PaysAsMuch hashes rules) candidate
        (held.map Queued.candidate)).take queue.capacity := by
    rw [take_ranking_append isPassing, holds.best]
  by_cases room : held.length < queue.capacity
  · rw [ClientSubmissionQueue.place, holds.length_entries, if_pos room]
    refine ⟨_, holds.enter passes (List.Sublist.refl held) holds.perm holds.keyed fresh ?_⟩
    rw [grown, take_of_length_le]
    rw [length_insertBehind, length_map]
    exact room
  · have full : held.length = queue.capacity := by
      have := holds.length_le
      omega
    obtain ⟨init, last, rfl⟩ : ∃ init last, held = init ++ [last] := by
      rcases eq_nil_or_concat held with rfl | ⟨init, last, rfl⟩
      · have := holds.positive
        simp only [length_nil] at full
        omega
      · exact ⟨init, last, concat_eq_append⟩
    obtain ⟨worst, found, inside, rfl⟩ := exists_argmin_eq_last holds.ordered
      (show (init ++ [last]).Perm (queue.entries.entries.map Sigma.snd) from holds.perm)
    rw [length_append, length_singleton] at full
    rw [map_append, map_singleton] at grown
    rw [place_of_full (by rw [holds.length_entries]; exact room) found]
    have lastMember : worst.2 ∈ init ++ [worst.2] := by simp
    have lastFee := holds.feeOf lastMember
    have newFee : ClientSubmissionQueue.feeOf hashes rules candidate = spend.fee.toNat := by
      rw [ClientSubmissionQueue.feeOf, passes, Option.elim_some]
    by_cases better : worst.2.rank < (enqueue candidate spend queue.nextArrival).rank
    · -- The worst entry leaves, and the new one beats it.
      have stored : queue.entries.lookup worst.1 = some worst.2 := AList.mem_lookup_iff.mpr inside
      have beats : ¬PaysAsMuch hashes rules worst.2.candidate candidate := by
        rw [PaysAsMuch, lastFee, newFee]
        rcases rank_lt_iff.mp better with less | ⟨-, late⟩
        · exact not_le.mpr less
        · exact absurd (holds.early _ lastMember) (not_lt.mpr late.le)
      have perm : init.Perm (Table.values (queue.entries.erase worst.1)) := by
        have split := (perm_cons_erase stored).map Sigma.snd
        have moved := perm_append_singleton worst.2 init
        exact (moved.symm.trans (holds.perm.trans split)).cons_inv
      rw [if_pos better]
      refine ⟨_, holds.enter passes (sublist_append_left init [worst.2]) perm ?_ ?_ ?_⟩
      · intro key queued kept
        rw [Table.lookup_erase] at kept
        split at kept
        · cases kept
        · exact holds.keyed key queued kept
      · rw [Table.lookup_erase]
        split
        · rfl
        · exact fresh
      · rw [grown, insertBehind_append_last _ beats, take_left']
        rw [length_insertBehind, length_map]
        exact full
    · -- A new entry that does not beat the worst one beats none.
      rw [if_neg better]
      refine ⟨init ++ [worst.2], holds.perm, holds.ordered, holds.early, holds.read, holds.keyed,
        ?_, holds.positive⟩
      have lowest : spend.fee.toNat ≤ worst.2.fee := by
        by_contra less
        exact better (rank_lt_iff.mpr (.inl (Nat.lt_of_not_le less)))
      have beatsNone : ∀ other ∈ init.map Queued.candidate ++ [worst.2.candidate],
          PaysAsMuch hashes rules other candidate := by
        intro other mem
        rw [PaysAsMuch, newFee]
        rcases mem_append.mp mem with early | late
        · obtain ⟨queued, inInit, rfl⟩ := mem_map.mp early
          rw [holds.feeOf (mem_append_left _ inInit)]
          have higher := (pairwise_append.mp holds.ordered).2.2 queued inInit worst.2 (by simp)
          rcases rank_lt_iff.mp higher with less | ⟨equal, -⟩
          · exact lowest.trans less.le
          · exact lowest.trans equal.le
        · rw [mem_singleton.mp late, lastFee]
          exact lowest
      rw [grown, insertBehind_eq_append _ beatsNone, take_left']
      · rw [map_append, map_singleton]
      · rw [length_append, length_map, length_singleton]
        exact full

theorem Holds.step (holds : Holds hashes rules queue offered held)
    (new : candidate.key ∉ offered.map ClientCandidate.key) :
    ∃ held', Holds hashes rules (queue.offer hashes rules [candidate]) (offered ++ [candidate])
      held' := by
  cases passes : passing hashes rules candidate with
  | none =>
    obtain ⟨error, refused⟩ : ∃ error, queue.insert hashes rules candidate = .error error :=
      insert_of_not_passing passes
    refine ⟨held, ?_⟩
    rw [offer, foldl_cons, foldl_nil, refused]
    exact ⟨holds.perm, holds.ordered, holds.early, holds.read, holds.keyed,
      by rw [ranking_append_of_not_passing passes, holds.best], holds.positive⟩
  | some spend =>
    have fresh := holds.fresh new
    obtain ⟨held', placed⟩ := holds.place passes fresh
    refine ⟨held', ?_⟩
    rw [offer, foldl_cons, foldl_nil, insert_of_passing passes fresh]
    split at placed <;> simp_all

end Placing

theorem exists_holds (capacity : Nat) (distinct : (offered.map ClientCandidate.key).Nodup) :
    ∃ held, Holds hashes rules ((new capacity).offer hashes rules offered) offered held := by
  induction offered using List.reverseRecOn with
  | nil => exact ⟨[], holds_new capacity⟩
  | append_singleton offered candidate ih =>
    rw [map_append, map_singleton, nodup_append_comm, singleton_append, nodup_cons] at distinct
    obtain ⟨held, holds⟩ := ih distinct.2
    rw [offer, foldl_append]
    exact holds.step distinct.1

theorem capacity_place {next : ClientSubmissionQueue T} {evicted : Option (ClientCandidate T)}
    (placed : queue.place queued = .ok (next, evicted)) :
    next.capacity = queue.capacity := by
  rw [place] at placed
  split at placed
  · obtain ⟨rfl, -⟩ := Prod.mk.inj (Except.ok.inj placed)
    rfl
  · obtain ⟨worst, -, rest⟩ := bind_eq_ok.mp placed
    obtain ⟨-, done⟩ := require_bind_eq_ok.mp rest
    obtain ⟨rfl, -⟩ := Prod.mk.inj (Except.ok.inj done)
    rfl

theorem capacity_offer (queue : ClientSubmissionQueue T) (offered : List (ClientCandidate T)) :
    (queue.offer hashes rules offered).capacity = queue.capacity := by
  induction offered generalizing queue with
  | nil => rfl
  | cons candidate offered ih =>
    rw [offer, foldl_cons]
    cases outcome : queue.insert hashes rules candidate with
    | error error => exact ih queue
    | ok result =>
      obtain ⟨spend, -, rest⟩ := bind_eq_ok.mp outcome
      obtain ⟨-, rest⟩ := require_bind_eq_ok.mp rest
      obtain ⟨-, rest⟩ := require_bind_eq_ok.mp rest
      obtain ⟨-, placed⟩ := require_bind_eq_ok.mp rest
      exact (ih result.1).trans (capacity_place placed)

theorem Holds.eligible_eq (holds : Holds hashes rules queue offered held) (mem : queued ∈ held)
    (parent : BlockHeader D) (registry : ClientRegistryState) (anchorOk : Digest → Bool) :
    eligible rules parent registry anchorOk queued =
      eligibleCandidate hashes rules parent registry anchorOk queued.candidate := by
  obtain ⟨spend, passes, same⟩ := holds.read queued mem
  rw [eligibleCandidate, passes, Option.any_some, same]
  rfl

/-- After any sequence of offers with different keys, the queue holds the best candidates of those
that pass, by fee with earlier offers first among equals, and `best` returns the first of them that
the next block may carry. -/
theorem queue_holds_best {capacity : Nat} (positive : 1 ≤ capacity)
    {offered : List (ClientCandidate T)} (distinct : (offered.map ClientCandidate.key).Nodup) :
    let queue := (new capacity).offer hashes rules offered
    let ranked := ranking hashes rules offered
    (queue.entries.values.map Queued.candidate).Perm (ranked.take capacity) ∧
      (∀ (parent : BlockHeader D) (registry : ClientRegistryState) (anchorOk : Digest → Bool),
        queue.best rules parent registry anchorOk =
          (ranked.take capacity).find? (eligibleCandidate hashes rules parent registry anchorOk)) ∧
      ranked.Perm (offered.filter fun candidate => (passing hashes rules candidate).isSome) ∧
      ranked.Pairwise (PaysAsMuch hashes rules) ∧
      ∀ fee, ranked.filter (fun candidate => feeOf hashes rules candidate == fee) =
        (offered.filter fun candidate => (passing hashes rules candidate).isSome).filter
          fun candidate => feeOf hashes rules candidate == fee := by
  intro queue ranked
  obtain ⟨held, holds⟩ : ∃ held, Holds hashes rules queue offered held :=
    exists_holds capacity distinct
  have bound : queue.capacity = capacity :=
    (capacity_offer _ offered).trans (Nat.max_eq_left positive)
  have best := holds.best
  rw [bound] at best
  refine ⟨?_, ?_, List.perm_insertionSort .., List.pairwise_insertionSort .., ?_⟩
  · rw [← best]
    exact (holds.perm.map Queued.candidate).symm
  · intro parent registry anchorOk
    have alike : held.filter (eligible rules parent registry anchorOk) =
        held.filter (eligibleCandidate hashes rules parent registry anchorOk ∘ Queued.candidate) :=
      List.filter_congr fun queued member => holds.eligible_eq member parent registry anchorOk
    rw [← best, ClientSubmissionQueue.best, argmax_filter_eq_find holds.ordered holds.perm,
      List.find?_map, ← List.head?_filter, ← List.head?_filter, alike]
  · intro fee
    apply filter_insertionSort
    intro left right leftFee rightFee
    rw [PaysAsMuch, beq_iff_eq.mp leftFee, beq_iff_eq.mp rightFee]

/-- A candidate for the client of a digest, with its fee as the payload. -/
def sampleCandidate (digest : Digest) (fee : BitVec 64) : ClientCandidate Nat where
  submission := ⟨digest, 0⟩
  payment :=
    { pages := [{
        epochAnchor := 0
        fee
        inputOwner := 1
        inputs := ![⟨1, fee, 1⟩, .dummy, .dummy, .dummy, .dummy, .dummy, .dummy, .dummy]
        outputs := ![⟨2, 0, (ClientObject.submission ⟨digest, 0⟩).marker openCommitment⟩, .dummy]
        validityBitmap := 0x101 ||| pagedSpendStartBit ||| pagedSpendEndBit
        isCoinbase := false }]
      authorizationBytes := [] }
  payload := fee.toNat

theorem queue_holds_best_of_three :
    let offered := [sampleCandidate 1 5, sampleCandidate 2 7, sampleCandidate 3 7]
    (offered.map ClientCandidate.key).Nodup ∧
      (Table.values ((new 1).offer openHashes openRules offered).entries).map
        (fun queued => queued.candidate.submission.matrixDigest) = [2] := by
  intro offered
  have distinct : (offered.map ClientCandidate.key).Nodup := by decide +kernel
  have best : ((ranking openHashes openRules offered).take 1).map
      (fun candidate => candidate.submission.matrixDigest) = [2] := by
    decide +kernel
  obtain ⟨perm, -⟩ := queue_holds_best (show 1 ≤ 1 from le_refl 1) distinct
  refine ⟨distinct, List.perm_singleton.mp ?_⟩
  have digests := perm.map fun candidate => candidate.submission.matrixDigest
  rw [List.map_map, best] at digests
  exact digests

end ClientSubmissionQueue

end Jetsam
