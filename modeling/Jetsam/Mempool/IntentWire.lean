import Jetsam.Mempool.Evictions

/-!
# Wire format of an intent

An intent is a marker, its page count, its pages, and its authorization behind a length. The pool
compares given bytes field by field with the decoded intent, and reads the authorization out of the
bytes it retains.
-/

namespace Jetsam

open Control Wire List

inductive IntentError where
  | wire (error : WireError)
  | group (error : PagedSpendError)
  | authorizationTooLarge (actual : Nat)
  | intentTooLarge (actual : Nat)
  deriving DecidableEq

def validatePageCount (count : Nat) : Except IntentError Unit :=
  require (1 ≤ count ∧ count ≤ maxPagedSpendPages) (.group (.pageCount count))

namespace TxPage

/-- Bytes of a page; a page of another shape is refused. -/
def encode (page : TxBody) : Except IntentError (List Byte) := do
  mapError .group (validatePageShape page 0)
  pure (encodePageBody page)

def decode : Reader IntentError TxBody := do
  let body ← decodePageBody.mapErr .wire
  check (mapError .group (validatePageShape body 0))
  pure body

end TxPage

namespace PagedSpendIntent

def new (hasher : TxHasher) (pages : List TxBody) (authorizationBytes : List Byte) :
    Except IntentError PagedSpendIntent := do
  let _ ← mapError .group (validatePagedSpend hasher pages)
  require (authorizationBytes.length ≤ maxAuthorizationBytes)
    (.authorizationTooLarge authorizationBytes.length)
  pure ⟨pages, authorizationBytes⟩

/-- The writer; it checks the intent again. -/
def toBytes (hasher : TxHasher) (intent : PagedSpendIntent) : Except IntentError (List Byte) := do
  let _ ← mapError .group (validatePagedSpend hasher intent.pages)
  let authorizationLen := intent.authorizationBytes.length
  require (authorizationLen ≤ maxAuthorizationBytes) (.authorizationTooLarge authorizationLen)
  let pages ← intent.pages.mapM TxPage.encode
  require (authorizationLen < 2 ^ 32) (.wire .lengthOverflow)
  pure (pagedSpendIntentMarker :: leBytes 2 intent.pages.length ++ pages.flatten ++
    leBytes 4 authorizationLen ++ intent.authorizationBytes)

def decode (hasher : TxHasher) : Reader IntentError PagedSpendIntent := do
  let marker ← takeByte.mapErr .wire
  check (require (marker = pagedSpendIntentMarker) (.wire .badMarker))
  let pageCount ← readNat (.wire .truncated) 2
  check (validatePageCount pageCount)
  atLeast (.wire .truncated) (pageCount * txBodyWireSize)
  let pages ← readMany TxPage.decode pageCount
  let authorizationLen ← readNat (.wire .truncated) 4
  check (require (authorizationLen ≤ maxAuthorizationBytes)
    (.authorizationTooLarge authorizationLen))
  let authorizationBytes ← take (.wire .truncated) authorizationLen
  check (new hasher pages authorizationBytes)

/-- Read bytes that are one intent and nothing else. -/
def fromBytes (hasher : TxHasher) (bytes : List Byte) : Except IntentError PagedSpendIntent := do
  require (bytes.length ≤ maxTxIntentBytesGlobal) (.intentTooLarge bytes.length)
  let (intent, rest) ← decode hasher bytes
  require (rest = []) (.wire .trailingBytes)
  pure intent

end PagedSpendIntent

/-- The authorization inside the retained bytes of an entry. -/
def MempoolEntry.cachedAuthorization (entry : MempoolEntry) : Option (List Byte) :=
  if entry.cachedAuthorizationLen = 0 then none
  else do
    let start ← pagedSpendAuthorizationWireOffset entry.pages.length
    let stop := start + entry.cachedAuthorizationLen
    if stop ≤ entry.intentBytes.length then
      some ((entry.intentBytes.drop start).take entry.cachedAuthorizationLen)
    else none

namespace PagedSpendIntent

variable {hasher : TxHasher} {intent : PagedSpendIntent} {bytes : List Byte}

structure Accepted (hasher : TxHasher) (intent : PagedSpendIntent) : Prop where
  group : ∃ spend, validatePagedSpend hasher intent.pages = .ok spend
  sized : intent.authorizationBytes.length ≤ maxAuthorizationBytes

def head (intent : PagedSpendIntent) : List Byte :=
  pagedSpendIntentMarker :: leBytes 2 intent.pages.length ++
    intent.pages.flatMap encodePageBody ++ leBytes 4 intent.authorizationBytes.length

def wire (intent : PagedSpendIntent) : List Byte := intent.head ++ intent.authorizationBytes

variable {pages : List TxBody}

theorem new_eq_ok {authorizationBytes : List Byte} :
    new hasher pages authorizationBytes = .ok intent ↔
      intent.Accepted hasher ∧ intent = ⟨pages, authorizationBytes⟩ := by
  simp only [new, bind_eq_ok, mapError_eq_ok, require_eq_ok, pure_eq_ok, exists_const]
  constructor
  · rintro ⟨spend, valid, sized, rfl⟩
    exact ⟨⟨⟨spend, valid⟩, sized⟩, rfl⟩
  · rintro ⟨⟨⟨spend, valid⟩, sized⟩, rfl⟩
    exact ⟨spend, valid, sized, rfl⟩

theorem length_head (intent : PagedSpendIntent) :
    intent.head.length = 1 + 2 + intent.pages.length * txBodyWireSize + 4 := by
  have pages : (intent.pages.flatMap encodePageBody).length =
      intent.pages.length * txBodyWireSize := by
    simp [length_flatMap, length_encodePageBody]
  simp only [head, length_append, length_cons, length_leBytes, pages]

section

variable (accepted : intent.Accepted hasher)

include accepted

theorem Accepted.pageCount :
    1 ≤ intent.pages.length ∧ intent.pages.length ≤ maxPagedSpendPages := by
  obtain ⟨⟨spend, valid⟩, -⟩ := accepted
  cases pages : intent.pages with
  | nil =>
    rw [pages] at valid
    cases valid
  | cons first rest =>
    rw [pages, validatePagedSpend, validatePagedSpendWith_eq_ok] at valid
    exact ⟨by simp, valid.1.pageCount⟩

theorem Accepted.shapes :
    ∀ page ∈ intent.pages, PageShape page := by
  obtain ⟨⟨spend, valid⟩, -⟩ := accepted
  cases pages : intent.pages with
  | nil => simp
  | cons first rest =>
    rw [pages, validatePagedSpend, validatePagedSpendWith_eq_ok] at valid
    exact valid.1.shape

theorem Accepted.countFits :
    intent.pages.length < 256 ^ 2 := by
  have count := accepted.pageCount.2
  norm_num [maxPagedSpendPages] at count ⊢
  omega

theorem Accepted.lengthFits :
    intent.authorizationBytes.length < 256 ^ 4 := by
  have sized := accepted.sized
  norm_num [maxAuthorizationBytes] at sized ⊢
  omega

theorem Accepted.length_wire_le :
    intent.wire.length ≤ maxTxIntentBytesGlobal := by
  have count := accepted.pageCount.2
  have sized := accepted.sized
  rw [wire, length_append, length_head, maxTxIntentBytesGlobal]
  have pages : intent.pages.length * txBodyWireSize ≤ maxPagedSpendPages * txBodyWireSize :=
    Nat.mul_le_mul_right _ count
  have same : txBodyWireSize = transactionWireSize := rfl
  rw [same] at pages ⊢
  omega

end

theorem encode_eq_ok {page : TxBody} {written : List Byte} :
    TxPage.encode page = .ok written ↔ PageShape page ∧ encodePageBody page = written := by
  simp only [TxPage.encode, bind_eq_ok, mapError_eq_ok, validatePageShape_eq_ok, pure_eq_ok,
    exists_const]

theorem toBytes_eq_ok :
    intent.toBytes hasher = .ok bytes ↔ intent.Accepted hasher ∧ intent.wire = bytes := by
  simp only [toBytes, bind_eq_ok, mapError_eq_ok, require_eq_ok, pure_eq_ok, exists_const,
    mapM_eq_ok fun _ _ => encode_eq_ok]
  constructor
  · rintro ⟨spend, valid, sized, _, ⟨-, rfl⟩, -, rfl⟩
    refine ⟨⟨⟨spend, valid⟩, sized⟩, ?_⟩
    rw [wire, head, ← flatMap_def]
  · rintro ⟨accepted, rfl⟩
    obtain ⟨spend, valid⟩ := accepted.group
    have short : intent.authorizationBytes.length < 2 ^ 32 := accepted.lengthFits
    refine ⟨spend, valid, accepted.sized, _, ⟨accepted.shapes, rfl⟩, short, ?_⟩
    rw [wire, head, ← flatMap_def]

theorem reads_page : Reads TxPage.decode PageShape encodePageBody := by
  intro input page rest
  simp only [TxPage.decode, run_bind_eq_ok, reads_pageBody.mapErr IntentError.wire _ _ _,
    run_check_eq_ok, mapError_eq_ok, validatePageShape_eq_ok, run_pure_eq_ok, true_and]
  constructor
  · rintro ⟨page, _, rfl, ⟨⟩, _, ⟨shape, rfl⟩, rfl, rfl⟩
    exact ⟨shape, rfl⟩
  · rintro ⟨shape, rfl⟩
    exact ⟨page, rest, rfl, (), rest, ⟨shape, rfl⟩, rfl, rfl⟩

/-- An intent is read exactly when the constructor accepts it, from the bytes the writer gives. -/
theorem reads_intent (hasher : TxHasher) :
    Reads (decode hasher) (Accepted hasher) PagedSpendIntent.wire := by
  intro input intent rest
  simp only [decode, run_bind_eq_ok, reads_takeByte.mapErr IntentError.wire _ _ _,
    reads_readNat _ _ _ _ _, run_check_eq_ok, run_atLeast_eq_ok, reads_page.many _ _ _ _,
    reads_take _ _ _ _ _, require_eq_ok, validatePageCount, new_eq_ok, true_and, id_eq]
  constructor
  · rintro ⟨_, _, rfl, ⟨⟩, _, ⟨rfl, rfl⟩, _, _, ⟨-, rfl⟩, ⟨⟩, _, ⟨-, rfl⟩, ⟨⟩, _, ⟨-, rfl⟩,
      pages, _, ⟨⟨rfl, -⟩, rfl⟩, _, _, ⟨-, rfl⟩, ⟨⟩, _, ⟨-, rfl⟩, authorization, _, ⟨rfl, rfl⟩,
      ⟨accepted, rfl⟩, rfl⟩
    exact ⟨accepted, by simp [wire, head]⟩
  · rintro ⟨accepted, rfl⟩
    refine ⟨_, _, ?_, (), _, ⟨rfl, rfl⟩, _, _, ⟨accepted.countFits, rfl⟩, (), _,
      ⟨accepted.pageCount, rfl⟩, (), _, ⟨?_, rfl⟩, _, _, ⟨⟨rfl, accepted.shapes⟩, rfl⟩, _, _,
      ⟨accepted.lengthFits, rfl⟩, (), _, ⟨accepted.sized, rfl⟩, _, rest, ⟨rfl, rfl⟩,
      ⟨accepted, rfl⟩, rfl⟩
    · simp [wire, head]
    · rw [length_append]
      simp [length_flatMap, length_encodePageBody]

theorem fromBytes_eq_ok :
    fromBytes hasher bytes = .ok intent ↔ intent.Accepted hasher ∧ intent.wire = bytes := by
  simp only [fromBytes, bind_eq_ok, require_eq_ok, pure_eq_ok, exists_const, Prod.exists,
    reads_intent hasher _ _ _]
  constructor
  · rintro ⟨-, _, _, ⟨accepted, rfl⟩, rfl, rfl⟩
    exact ⟨accepted, (append_nil _).symm⟩
  · rintro ⟨accepted, rfl⟩
    exact ⟨accepted.length_wire_le, intent, [], ⟨accepted, (append_nil _).symm⟩, rfl, rfl⟩

theorem wireOffset_eq_some {count offset : Nat} :
    pagedSpendAuthorizationWireOffset count = some offset ↔
      (1 ≤ count ∧ count ≤ maxPagedSpendPages) ∧
        1 + 2 + count * txBodyWireSize + 4 = offset := by
  rw [pagedSpendAuthorizationWireOffset]
  split_ifs with counted
  · rw [Option.some.injEq]
    exact (and_iff_right counted).symm
  · simp [counted]

theorem mapM_encodePage_eq_some {encoded : List (List Byte)} :
    pages.mapM encodePage = some encoded ↔
      (∀ page ∈ pages, PageShape page) ∧ pages.map encodePageBody = encoded :=
  mapM_eq_some fun page _ => by
    rw [encodePage, Option.ite_none_right_eq_some, validatePageShape_eq_ok, Option.some.injEq]

/-- The comparison of the pool, field by field, is a comparison with the bytes of the intent. -/
theorem canonicalIntentBytesMatch_iff :
    canonicalIntentBytesMatch intent bytes = true ↔
      (1 ≤ intent.pages.length ∧ intent.pages.length ≤ maxPagedSpendPages) ∧
        (∀ page ∈ intent.pages, PageShape page) ∧ intent.authorizationBytes.length < 2 ^ 32 ∧
        intent.wire = bytes := by
  rw [canonicalIntentBytesMatch]
  constructor
  · intro matched
    split at matched
    · rename_i offset encoded located written
      obtain ⟨counted, rfl⟩ := wireOffset_eq_some.mp located
      obtain ⟨shapes, rfl⟩ := mapM_encodePage_eq_some.mp written
      rw [← flatMap_def, ← head, ← length_head intent] at matched
      simp only [Bool.and_eq_true, decide_eq_true_eq, beq_iff_eq, isPrefixOf_iff_prefix]
        at matched
      obtain ⟨⟨⟨⟨short, -⟩, -⟩, rest, rfl⟩, tail⟩ := matched
      rw [drop_left] at tail
      exact ⟨counted, shapes, short, by rw [wire, tail]⟩
    · cases matched
  · rintro ⟨counted, shapes, short, rfl⟩
    rw [wireOffset_eq_some.mpr ⟨counted, rfl⟩, mapM_encodePage_eq_some.mpr ⟨shapes, rfl⟩]
    dsimp only
    rw [← flatMap_def, ← head, ← length_head intent]
    simpa [wire] using short

theorem match_iff_toBytes :
    (canonicalIntentBytesMatch intent bytes = true ∧
      (∃ spend, validatePagedSpend hasher intent.pages = .ok spend) ∧
      intent.authorizationBytes.length ≤ maxAuthorizationBytes) ↔
      intent.toBytes hasher = .ok bytes := by
  rw [canonicalIntentBytesMatch_iff, toBytes_eq_ok]
  constructor
  · rintro ⟨⟨-, -, -, written⟩, group, sized⟩
    exact ⟨⟨group, sized⟩, written⟩
  · rintro ⟨accepted, written⟩
    exact ⟨⟨accepted.pageCount, accepted.shapes, accepted.lengthFits, written⟩, accepted.group,
      accepted.sized⟩

theorem toBytes_injective {other : PagedSpendIntent} (written : intent.toBytes hasher = .ok bytes)
    (alike : other.toBytes hasher = .ok bytes) : intent = other := by
  have left := fromBytes_eq_ok.mpr (toBytes_eq_ok.mp written)
  have right := fromBytes_eq_ok.mpr (toBytes_eq_ok.mp alike)
  exact Except.ok.inj (left.symm.trans right)

end PagedSpendIntent

variable {hash : Digest}

namespace Mempool

variable {pool : Mempool}

/-- The entry that retains the wire form of its intent finds the authorization in it. -/
theorem cachedAuthorization_setIntentBytes {intent : PagedSpendIntent} {entry : MempoolEntry}
    {stored : List StoredEntry} {hasher : TxHasher} {bytes : List Wire.Byte}
    (newest : pool.entries.entries = ⟨hash, entry⟩ :: stored) (same : entry.pages = intent.pages)
    (proved : intent.authorizationBytes ≠ []) (written : intent.toBytes hasher = .ok bytes) :
    ∃ retained : MempoolEntry,
      (pool.setIntentBytes hash bytes).entries.entries = ⟨hash, retained⟩ :: stored ∧
        retained.pages = intent.pages ∧ retained.intentBytes = bytes ∧
        retained.cachedAuthorization = some intent.authorizationBytes := by
  have found : pool.entries.lookup hash = some entry := by
    rw [AList.lookup, newest, dlookup_cons_eq]
  obtain ⟨accepted, rfl⟩ := PagedSpendIntent.toBytes_eq_ok.mp written
  have located : pagedSpendAuthorizationWireOffset entry.pages.length =
      some intent.head.length := by
    rw [same, PagedSpendIntent.wireOffset_eq_some]
    exact ⟨accepted.pageCount, (PagedSpendIntent.length_head intent).symm⟩
  have left : checkedSub intent.wire.length intent.head.length =
      some intent.authorizationBytes.length := by
    rw [checkedSub_eq_some, PagedSpendIntent.wire, length_append]
    omega
  have short : intent.authorizationBytes.length < 2 ^ 32 := accepted.lengthFits
  have nonzero : intent.authorizationBytes.length ≠ 0 :=
    fun empty => proved (length_eq_zero_iff.mp empty)
  simp only [setIntentBytes, found, located, left, Option.bind_eq_bind, Option.bind_some,
    if_pos short, Option.getD_some]
  refine ⟨_, entries_replace_head newest _, same, by rfl, ?_⟩
  simp only [MempoolEntry.cachedAuthorization, if_neg nonzero, located, Option.bind_eq_bind,
    Option.bind_some]
  rw [if_pos (by rw [PagedSpendIntent.wire, length_append]), PagedSpendIntent.wire,
    drop_left, take_length]

end Mempool

namespace MempoolState

variable {rules : AdmissionRules} {config : MempoolConfig} {state : MempoolState}

/-- An entry retains the wire form of an intent with its pages and finds the authorization in it. -/
def Retains (hasher : TxHasher) (entry : MempoolEntry) : Prop :=
  ∃ intent : PagedSpendIntent, intent.pages = entry.pages ∧
    intent.toBytes hasher = .ok entry.intentBytes ∧
    entry.cachedAuthorization = some intent.authorizationBytes

variable {intent : PagedSpendIntent} {intentBytes : List Wire.Byte}

theorem toBytes_of_checkIntent {spend : PagedSpendFacts}
    (checked : checkIntent rules intent intentBytes = .ok spend) :
    intent.toBytes rules.hasher = .ok intentBytes ∧ intent.authorizationBytes ≠ [] := by
  simp only [checkIntent, bind_eq_ok, require_eq_ok, mapError_eq_ok, pure_eq_ok,
    exists_const] at checked
  obtain ⟨-, matched, facts, valid, proved, sized, -⟩ := checked
  exact ⟨PagedSpendIntent.match_iff_toBytes.mp ⟨matched, ⟨facts, valid⟩, sized⟩, proved⟩

/-- A submission keeps the other entries and adds one that retains its intent. -/
theorem retains_of_submit {seen after : MempoolState}
    (returned : submit rules config seen intent intentBytes state = (.ok hash, after)) :
    ∀ stored ∈ after.pool.entries.entries,
      stored ∈ state.pool.entries.entries ∨ Retains rules.hasher stored.2 := by
  obtain ⟨spend, _, checked, -, fresh, rfl, -⟩ := admitted_of_submit returned
  obtain ⟨written, proved⟩ := toBytes_of_checkIntent checked
  have entered := @Mempool.entries_entered _ _ (⟨intent.pages, spend, state.view.tipHeight,
    MempoolEntry.computeFeeRate spend, 0, []⟩ : MempoolEntry) fresh
  obtain ⟨retained, newest, pages, bytes, cached⟩ :=
    Mempool.cachedAuthorization_setIntentBytes entered rfl proved written
  intro stored mem
  have split : stored ∈ ⟨spend.logicalTxid, retained⟩ :: state.pool.entries.entries :=
    newest ▸ mem
  rcases mem_cons.mp split with rfl | old
  · exact .inr ⟨intent, pages.symm, bytes ▸ written, cached⟩
  · exact .inl old

theorem retains_run {op : AsyncMempoolOp}
    (before : ∀ stored ∈ state.pool.entries.entries, Retains rules.hasher stored.2) :
    ∀ stored ∈ (op.run rules config state).pool.entries.entries, Retains rules.hasher stored.2 := by
  intro stored mem
  cases op with
  | submit seen intent intentBytes =>
    rcases (submit_atomic seen intent intentBytes state).cases
      (submit_noPanic seen intent intentBytes state) with ⟨_, returned⟩ | same
    · have left : stored ∈
          (submit rules config seen intent intentBytes state).2.pool.entries.entries := mem
      rcases retains_of_submit returned stored left with old | new
      · exact before stored old
      · exact new
    · have left : stored ∈
          (submit rules config seen intent intentBytes state).2.pool.entries.entries := mem
      rw [same] at left
      exact before stored left
  | onNewBlock confirmedHashes newView => exact before stored (mem_of_onNewBlock mem).1
  | updateChainView view =>
    have kept : stored ∈ ({ state with view := view } : MempoolState).pool.entries.entries :=
      mem_of_evictUnminableAt mem
    exact before stored kept
  | evictUnminableAt nextHeight => exact before stored (mem_of_evictUnminableAt mem)
  | readmitAfterReorg txHashes => exact before stored (mem_of_readmitAfterReorg mem)

theorem retains_after (view : ChainView) (history : List AsyncMempoolOp) :
    ∀ stored ∈ (after rules config view history).pool.entries.entries,
      Retains rules.hasher stored.2 := by
  induction history using List.reverseRecOn with
  | nil =>
    intro stored mem
    exact absurd mem not_mem_nil
  | append_singleton history op ih =>
    rw [after_concat]
    exact retains_run ih

end MempoolState

/-- Reading and writing are inverse; the pool's comparison with bytes is a comparison with the wire
form; and every entry in the pool finds its authorization in its retained bytes. -/
theorem intentWire_exact (rules : AdmissionRules) :
    (∀ pages authorizationBytes intent,
      PagedSpendIntent.new rules.hasher pages authorizationBytes = .ok intent →
        ∃ bytes, intent.toBytes rules.hasher = .ok bytes ∧
          PagedSpendIntent.fromBytes rules.hasher bytes = .ok intent ∧
          ∀ rest, PagedSpendIntent.decode rules.hasher (bytes ++ rest) = .ok (intent, rest)) ∧
      (∀ bytes intent, PagedSpendIntent.fromBytes rules.hasher bytes = .ok intent →
        intent.toBytes rules.hasher = .ok bytes) ∧
      (∀ intent bytes,
        (canonicalIntentBytesMatch intent bytes = true ∧
          (∃ spend, validatePagedSpend rules.hasher intent.pages = .ok spend) ∧
          intent.authorizationBytes.length ≤ maxAuthorizationBytes) ↔
          intent.toBytes rules.hasher = .ok bytes) ∧
      ∀ config view history,
        ∀ stored ∈ (MempoolState.after rules config view history).pool.entries.entries,
          (∃ intent : PagedSpendIntent, intent.pages = stored.2.pages ∧
            intent.toBytes rules.hasher = .ok stored.2.intentBytes) ∧
          ∀ intent : PagedSpendIntent, intent.toBytes rules.hasher = .ok stored.2.intentBytes →
            stored.2.cachedAuthorization = some intent.authorizationBytes := by
  refine ⟨?_, ?_, fun _ _ => PagedSpendIntent.match_iff_toBytes, ?_⟩
  · intro pages authorizationBytes intent made
    obtain ⟨accepted, -⟩ := PagedSpendIntent.new_eq_ok.mp made
    exact ⟨intent.wire, PagedSpendIntent.toBytes_eq_ok.mpr ⟨accepted, rfl⟩,
      PagedSpendIntent.fromBytes_eq_ok.mpr ⟨accepted, rfl⟩,
      (PagedSpendIntent.reads_intent rules.hasher).inverts accepted⟩
  · intro bytes intent read
    exact PagedSpendIntent.toBytes_eq_ok.mpr (PagedSpendIntent.fromBytes_eq_ok.mp read)
  · intro config view history stored member
    obtain ⟨intent, pages, written, cached⟩ := MempoolState.retains_after view history stored member
    refine ⟨⟨intent, pages, written⟩, fun other alike => ?_⟩
    rw [PagedSpendIntent.toBytes_injective alike written]
    exact cached

theorem intentWire_exact_small :
    PagedSpendIntent.fromBytes openAdmission.hasher smallIntentBytes = .ok smallIntent ∧
      smallIntent.toBytes openAdmission.hasher = .ok smallIntentBytes ∧
      canonicalIntentBytesMatch smallIntent smallIntentBytes = true ∧
      ∃ stored ∈ (MempoolState.after openAdmission smallConfig smallView
        [submitSmallSpend]).pool.entries.entries,
        stored.2.cachedAuthorization = some [5] := by
  have exact := intentWire_exact openAdmission
  have matched : canonicalIntentBytesMatch smallIntent smallIntentBytes = true := by
    decide +kernel
  have group : ∃ spend, validatePagedSpend openAdmission.hasher smallIntent.pages = .ok spend :=
    isOk_eq_true.mp (by decide +kernel)
  have written := (exact.2.2.1 smallIntent smallIntentBytes).mp ⟨matched, group, by decide⟩
  obtain ⟨bytes, same, read, -⟩ := exact.1 smallIntent.pages smallIntent.authorizationBytes
    smallIntent (PagedSpendIntent.new_eq_ok.mpr ⟨⟨group, by decide⟩, rfl⟩)
  obtain rfl := Except.ok.inj (same.symm.trans written)
  refine ⟨read, written, matched, ?_⟩
  have nonempty : (MempoolState.after openAdmission smallConfig smallView
      [submitSmallSpend]).pool.entries.entries ≠ [] := by decide +kernel
  obtain ⟨stored, member⟩ := List.exists_mem_of_ne_nil _ nonempty
  refine ⟨stored, member, ?_⟩
  have bytes : ∀ stored ∈ (MempoolState.after openAdmission smallConfig smallView
      [submitSmallSpend]).pool.entries.entries, stored.2.intentBytes = smallIntentBytes := by
    decide +kernel
  apply (exact.2.2.2 smallConfig smallView [submitSmallSpend] stored member).2 smallIntent
  rw [bytes stored member]
  exact written

end Jetsam
