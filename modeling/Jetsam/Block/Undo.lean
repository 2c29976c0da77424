import Jetsam.Block.ActionSurface

/-!
# Undo logs

`build_undo_log` records the value before the block of every slot that the block touches, with the
depth and the counters before it.
-/

namespace Jetsam

open Control SegmentedFriState List

variable {D : Type}

/-- What a block overwrites, with the depth and the counters before it. -/
structure BlockUndoLog where
  blockHeight : Nat
  logSlotsBefore : Nat
  activeSlotCountBefore : Nat
  allocCounterBefore : Nat
  slotChanges : List (BitVec 32 × SlotValue)
  txHashes : List Digest
  deriving DecidableEq

def BlockUndoLog.writes (undo : BlockUndoLog) : List (Nat × SlotValue) :=
  undo.slotChanges.map fun change => (change.1.toNat, change.2)

/-- The slots seen so far and the recorded values. -/
structure UndoScan where
  touched : List (BitVec 32)
  changes : List (BitVec 32 × SlotValue)

/-- Slots of the domain that a header may lead to: the parent's, or twice as many. -/
def childSlots (state : SegmentedFriState) (logSlots : Nat) : Nat :=
  if logSlots = state.logSlots + 1 then
    if state.numSlots * 2 < u64Bound then state.numSlots * 2 else state.numSlots
  else state.numSlots

section Scan

variable (state : SegmentedFriState) (logSlots : Nat)

def noteSpent (scan : UndoScan) (live : Nat × TxInput) : UndoScan :=
  let slot := live.2.slotIndex
  if slot.toNat < state.numSlots ∧ slot ∉ scan.touched then
    ⟨scan.touched ++ [slot], scan.changes ++ [(slot, state.slot slot.toNat)]⟩
  else scan

/-- Record a minted slot; above the parent domain it was empty. -/
def noteMinted (scan : UndoScan) (live : Nat × TxOutput) : UndoScan :=
  let slot := live.2.slotIndex
  if slot ∈ scan.touched then scan
  else if slot.toNat < state.numSlots then
    ⟨scan.touched ++ [slot], scan.changes ++ [(slot, state.slot slot.toNat)]⟩
  else if slot.toNat < childSlots state logSlots then
    ⟨scan.touched ++ [slot], scan.changes ++ [(slot, .empty)]⟩
  else { scan with touched := scan.touched ++ [slot] }

def noteUndone (scan : UndoScan) (body : TxBody) : UndoScan :=
  body.liveOutputs.foldl (noteMinted state logSlots) (body.liveInputs.foldl (noteSpent state) scan)

end Scan

def buildUndoLog (hashes : ChainHashes D) (chain : ChainState D) (block : Block D) :
    Except BlockPageStreamError BlockUndoLog := do
  let txHashes ← tryComputeLogicalTxids hashes.tx block.transactions
  pure {
    blockHeight := block.header.height
    logSlotsBefore := chain.state.logSlots
    activeSlotCountBefore := chain.activeSlotCount
    allocCounterBefore := chain.allocCounter
    slotChanges :=
      (block.transactions.foldl (noteUndone chain.state block.header.logSlots) ⟨[], []⟩).changes
    txHashes }

/-- Recorded values are those of the parent, and every listed slot that needs a record has one. -/
structure UndoScan.Records (state : SegmentedFriState) (logSlots : Nat) (scan : UndoScan)
    (spent minted : List (BitVec 32)) : Prop where
  values : ∀ change ∈ scan.changes, change.2 = parentSlot state change.1.toNat
  named : ∀ change ∈ scan.changes, change.1 ∈ spent ∨ change.1 ∈ minted
  known : ∀ slot ∈ scan.touched, slot.toNat < childSlots state logSlots →
    slot ∈ scan.changes.map Prod.fst
  spent : ∀ slot ∈ spent, slot.toNat < state.numSlots → slot ∈ scan.changes.map Prod.fst
  minted : ∀ slot ∈ minted, slot.toNat < childSlots state logSlots →
    slot ∈ scan.changes.map Prod.fst

variable {slot : BitVec 32}

namespace UndoScan

variable {state : SegmentedFriState} {logSlots : Nat} {scan : UndoScan}
  {spent minted : List (BitVec 32)}

theorem numSlots_le_childSlots (state : SegmentedFriState) (logSlots : Nat) :
    state.numSlots ≤ childSlots state logSlots := by
  unfold childSlots
  split_ifs <;> omega

theorem records_empty (state : SegmentedFriState) (logSlots : Nat) :
    Records state logSlots ⟨[], []⟩ [] [] := by
  constructor <;> simp

section

variable (records : scan.Records state logSlots spent minted)

include records

theorem Records.push {value : SlotValue} (correct : value = parentSlot state slot.toNat)
    {spent' minted' : List (BitVec 32)} (spentEq : ∀ other ∈ spent', other ∈ spent ∨ other = slot)
    (mintedEq : ∀ other ∈ minted', other ∈ minted ∨ other = slot)
    (listed : ∀ other, other ∈ spent ∨ other ∈ minted ∨ other = slot →
      other ∈ spent' ∨ other ∈ minted') :
    Records state logSlots ⟨scan.touched ++ [slot], scan.changes ++ [(slot, value)]⟩ spent'
      minted' := by
  have keys : (scan.changes ++ [(slot, value)]).map Prod.fst =
      scan.changes.map Prod.fst ++ [slot] := map_append
  refine ⟨?_, ?_, ?_, ?_, ?_⟩
  · exact forall_mem_append.mpr ⟨records.values, forall_mem_singleton.mpr correct⟩
  · refine forall_mem_append.mpr ⟨fun change mem => listed _ ?_,
      forall_mem_singleton.mpr (listed _ (Or.inr (Or.inr rfl)))⟩
    rcases records.named change mem with inSpent | inMinted
    · exact Or.inl inSpent
    · exact Or.inr (Or.inl inMinted)
  all_goals rw [keys]
  · refine forall_mem_append.mpr ⟨fun other mem below => ?_, ?_⟩
    · exact mem_append_left _ (records.known other mem below)
    · exact forall_mem_singleton.mpr fun _ => mem_append_right _ (by simp)
  · intro other mem below
    rcases spentEq other mem with earlier | rfl
    · exact mem_append_left _ (records.spent other earlier below)
    · exact mem_append_right _ (by simp)
  · intro other mem below
    rcases mintedEq other mem with earlier | rfl
    · exact mem_append_left _ (records.minted other earlier below)
    · exact mem_append_right _ (by simp)

theorem Records.noteSpent (live : Nat × TxInput) :
    (noteSpent state scan live).Records state logSlots (spent ++ [live.2.slotIndex]) minted := by
  simp only [Jetsam.noteSpent]
  split_ifs with fresh
  · refine records.push ?_ ?_ (fun _ => Or.inl) ?_
    · rw [parentSlot, if_pos fresh.1]
    · simp
    · simp only [mem_append, mem_singleton]
      tauto
  · refine ⟨records.values, fun change mem => ?_, records.known, fun slot mem below => ?_,
      records.minted⟩
    · rcases records.named change mem with inSpent | inMinted
      · exact Or.inl (mem_append_left _ inSpent)
      · exact Or.inr inMinted
    · rcases mem_append.mp mem with earlier | last
      · exact records.spent slot earlier below
      · obtain rfl := mem_singleton.mp last
        refine records.known _ ?_ (below.trans_le (numSlots_le_childSlots state logSlots))
        by_contra new
        exact fresh ⟨below, new⟩

theorem Records.noteMinted (live : Nat × TxOutput) :
    (noteMinted state logSlots scan live).Records state logSlots spent
      (minted ++ [live.2.slotIndex]) := by
  have listed : ∀ other, other ∈ spent ∨ other ∈ minted ∨ other = live.2.slotIndex →
      other ∈ spent ∨ other ∈ minted ++ [live.2.slotIndex] := by
    simp only [mem_append, mem_singleton]
    exact fun _ => id
  have grown : ∀ other ∈ minted ++ [live.2.slotIndex],
      other ∈ minted ∨ other = live.2.slotIndex := by
    simp
  simp only [Jetsam.noteMinted]
  split_ifs with seen inside above
  · refine ⟨records.values, fun change mem => ?_, records.known, records.spent,
      fun slot mem below => ?_⟩
    · rcases records.named change mem with inSpent | inMinted
      · exact Or.inl inSpent
      · exact Or.inr (mem_append_left _ inMinted)
    · rcases grown slot mem with earlier | rfl
      · exact records.minted slot earlier below
      · exact records.known _ seen below
  · exact records.push (by rw [parentSlot, if_pos inside]) (fun _ => Or.inl) grown listed
  · exact records.push (by rw [parentSlot, if_neg inside]) (fun _ => Or.inl) grown listed
  · refine ⟨records.values, fun change mem => ?_, ?_, records.spent, fun slot mem below => ?_⟩
    · rcases records.named change mem with inSpent | inMinted
      · exact Or.inl inSpent
      · exact Or.inr (mem_append_left _ inMinted)
    · refine forall_mem_append.mpr ⟨records.known, forall_mem_singleton.mpr ?_⟩
      exact fun below => absurd below above
    · rcases grown slot mem with earlier | rfl
      · exact records.minted slot earlier below
      · exact absurd below above

theorem Records.foldl_noteSpent (inputs : List (Nat × TxInput)) :
    (inputs.foldl (Jetsam.noteSpent state) scan).Records state logSlots
      (spent ++ inputs.map fun live => live.2.slotIndex) minted := by
  induction inputs generalizing scan spent with
  | nil => simpa using records
  | cons live inputs ih =>
    rw [map_cons, append_cons]
    exact ih (records.noteSpent live)

theorem Records.foldl_noteMinted (outputs : List (Nat × TxOutput)) :
    (outputs.foldl (Jetsam.noteMinted state logSlots) scan).Records state logSlots spent
      (minted ++ outputs.map fun live => live.2.slotIndex) := by
  induction outputs generalizing scan minted with
  | nil => simpa using records
  | cons live outputs ih =>
    rw [map_cons, append_cons]
    exact ih (records.noteMinted live)

theorem Records.foldl_noteUndone (bodies : List TxBody) :
    (bodies.foldl (noteUndone state logSlots) scan).Records state logSlots
      (spent ++ bodies.flatMap TxBody.inputSlots)
      (minted ++ bodies.flatMap TxBody.outputSlots) := by
  induction bodies generalizing scan spent minted with
  | nil => simpa using records
  | cons body bodies ih =>
    rw [flatMap_cons, flatMap_cons, ← append_assoc, ← append_assoc]
    exact ih ((records.foldl_noteSpent body.liveInputs).foldl_noteMinted body.liveOutputs)

end

/-- The recorded slots are among those seen, each of which was seen once. -/
def Distinct (scan : UndoScan) : Prop :=
  (scan.changes.map Prod.fst).Sublist scan.touched ∧ scan.touched.Nodup

section

variable (distinct : scan.Distinct)

include distinct

theorem Distinct.push (fresh : slot ∉ scan.touched) (value : SlotValue) :
    Distinct ⟨scan.touched ++ [slot], scan.changes ++ [(slot, value)]⟩ := by
  constructor
  · rw [map_append]
    exact distinct.1.append (List.Sublist.refl _)
  · exact nodup_append'.mpr ⟨distinct.2, nodup_singleton slot, by simpa using fresh⟩

theorem Distinct.noteSpent (live : Nat × TxInput) :
    (noteSpent state scan live).Distinct := by
  simp only [Jetsam.noteSpent]
  split_ifs with fresh
  · exact distinct.push fresh.2 _
  · exact distinct

theorem Distinct.noteMinted (live : Nat × TxOutput) :
    (noteMinted state logSlots scan live).Distinct := by
  simp only [Jetsam.noteMinted]
  split_ifs with seen
  · exact distinct
  · exact distinct.push seen _
  · exact distinct.push seen _
  · obtain ⟨recorded, once⟩ := distinct.push seen .empty
    refine ⟨distinct.1.trans (sublist_append_left _ _), once⟩

theorem Distinct.foldl_noteUndone (bodies : List TxBody) :
    (bodies.foldl (noteUndone state logSlots) scan).Distinct := by
  induction bodies generalizing scan with
  | nil => exact distinct
  | cons body bodies ih =>
    refine ih (List.foldlRecOn _ _ (List.foldlRecOn _ _ distinct ?_) ?_)
    · exact fun _ before live _ => before.noteSpent live
    · exact fun _ before live _ => before.noteMinted live

end

end UndoScan

theorem lt_childSlots {state : SegmentedFriState} {logSlots : Nat}
    (window : state.logSlots ≤ logSlots ∧ logSlots ≤ state.logSlots + 1)
    (inside : slot.toNat < 2 ^ logSlots) : slot.toNat < childSlots state logSlots := by
  rw [childSlots, numSlots, u64Bound]
  split_ifs with grows doubles
  · rwa [← pow_succ, ← grows]
  · omega
  · rwa [show state.logSlots = logSlots by omega]

theorem mem_flatMap_touched {bodies : List TxBody} :
    slot ∈ bodies.flatMap TxBody.touched ↔
      slot ∈ bodies.flatMap TxBody.inputSlots ∨ slot ∈ bodies.flatMap TxBody.outputSlots := by
  simp only [mem_flatMap, TxBody.touched, mem_append]
  constructor
  · rintro ⟨body, mem, input | output⟩
    · exact Or.inl ⟨body, mem, input⟩
    · exact Or.inr ⟨body, mem, output⟩
  · rintro (⟨body, mem, input⟩ | ⟨body, mem, output⟩)
    · exact ⟨body, mem, Or.inl input⟩
    · exact ⟨body, mem, Or.inr output⟩

theorem mem_recordDeltas_of_spent {height cursor : Nat} {bodies : List TxBody}
    (spent : slot ∈ bodies.flatMap TxBody.inputSlots) :
    (slot.toNat, SlotValue.empty) ∈ recordDeltas height cursor bodies := by
  induction bodies generalizing cursor with
  | nil => cases spent
  | cons body bodies ih =>
    rw [recordDeltas, mem_append]
    rw [flatMap_cons, mem_append] at spent
    rcases spent with first | later
    · obtain ⟨live, mem, rfl⟩ := mem_map.mp first
      exact Or.inl (mem_append_left _ (mem_map.mpr ⟨live, mem, rfl⟩))
    · exact Or.inr (ih later)

theorem afterBlock_slots_of_notMem {ledger : Ledger} {block : Block D} {index : Nat}
    (untouched : index ∉ (block.transactions.flatMap TxBody.touched).map BitVec.toNat) :
    (ledger.afterBlock block).slots index = ledger.slots index := by
  rw [Ledger.afterBlock, Ledger.applyRecords_slots, overwrite_of_notMem]
  · rfl
  · rwa [keys_recordDeltas]

section Spec

variable {hashes : ChainHashes D} {chain : ChainState D} {ledger : Ledger} {block : Block D}
  {undo : BlockUndoLog}

theorem buildUndoLog_isOk {layout : BlockLayout} (records : block.transactions = layout.records)
    (accepted : layout.Accepted) : ∃ undo, buildUndoLog hashes chain block = .ok undo := by
  exact bind_isOk (records ▸ accepted.tryComputeLogicalTxids hashes.tx) ⟨_, rfl⟩

theorem mem_slotChanges (built : buildUndoLog hashes chain block = .ok undo)
    {change : BitVec 32 × SlotValue} (member : change ∈ undo.slotChanges) :
    change.1 ∈ block.transactions.flatMap TxBody.touched := by
  simp only [buildUndoLog, bind_eq_ok, pure_eq_ok] at built
  obtain ⟨txHashes, -, rfl⟩ := built
  have records := (UndoScan.records_empty chain.state block.header.logSlots).foldl_noteUndone
    block.transactions
  exact mem_flatMap_touched.mpr (records.named change member)

theorem slotChanges_nodup (built : buildUndoLog hashes chain block = .ok undo) :
    (undo.slotChanges.map Prod.fst).Nodup := by
  simp only [buildUndoLog, bind_eq_ok, pure_eq_ok] at built
  obtain ⟨txHashes, -, rfl⟩ := built
  have empty : UndoScan.Distinct ⟨[], []⟩ := ⟨List.Sublist.refl _, nodup_nil⟩
  obtain ⟨recorded, once⟩ := empty.foldl_noteUndone block.transactions
  exact once.sublist recorded

theorem length_slotChanges_le (built : buildUndoLog hashes chain block = .ok undo) :
    undo.slotChanges.length ≤
      groupLiveInputs block.transactions + groupLiveOutputs block.transactions := by
  rw [← length_flatMap_touched, ← length_map (f := Prod.fst)]
  refine (subperm_of_subset (slotChanges_nodup built) fun slot mem => ?_).length_le
  obtain ⟨change, inChanges, rfl⟩ := mem_map.mp mem
  exact mem_slotChanges built inChanges

/-- The log of a block takes the slots after it back to those before it, in every order. -/
theorem overwrite_writes (represents : chain.Represents hashes.state ledger)
    (built : buildUndoLog hashes chain block = .ok undo)
    (window : ledger.logSlots ≤ block.header.logSlots ∧
      block.header.logSlots ≤ ledger.logSlots + 1)
    (distinct : (block.transactions.flatMap TxBody.touched).Nodup)
    (inRange : ∀ slot ∈ block.transactions.flatMap TxBody.touched,
      slot.toNat < 2 ^ block.header.logSlots)
    (resident : ∀ slot ∈ block.transactions.flatMap TxBody.touched,
      slot.toNat < chain.state.numSlots → chain.state.segIdOf slot.toNat ∉ chain.state.evicted)
    {writes : List (Nat × SlotValue)} (same : ∀ write, write ∈ writes ↔ write ∈ undo.writes) :
    overwrite (ledger.afterBlock block).slots writes = ledger.slots := by
  have holds := represents.coherent.holds
  have touched := fun change => @mem_slotChanges _ _ _ _ _ built change
  simp only [buildUndoLog, bind_eq_ok, pure_eq_ok] at built
  obtain ⟨txHashes, -, rfl⟩ := built
  have records := (UndoScan.records_empty chain.state block.header.logSlots).foldl_noteUndone
    block.transactions
  set scan := block.transactions.foldl (noteUndone chain.state block.header.logSlots) ⟨[], []⟩
  have keys : ∀ slot ∈ scan.changes.map Prod.fst, slot.toNat ∈ writes.map Prod.fst := by
    intro slot member
    obtain ⟨change, inChanges, rfl⟩ := mem_map.mp member
    exact mem_map.mpr ⟨_, (same _).mpr (mem_map.mpr ⟨change, inChanges, rfl⟩), rfl⟩
  refine overwrite_eq_of_values (fun write member => ?_) fun index unwritten => ?_
  · obtain ⟨change, inChanges, rfl⟩ := mem_map.mp ((same write).mp member)
    rw [records.values change inChanges]
    exact ChainState.previous_eq holds (resident _ (touched change inChanges))
  · by_cases named : index ∈ (block.transactions.flatMap TxBody.touched).map BitVec.toNat
    · obtain ⟨slot, inBlock, rfl⟩ := mem_map.mp named
      rcases mem_flatMap_touched.mp inBlock with spent | minted
      · -- A spend above the parent domain claimed an empty slot and left it empty.
        have above : chain.state.numSlots ≤ slot.toNat := by
          by_contra below
          exact unwritten (keys slot (records.spent slot spent (Nat.not_le.mp below)))
        rw [holds.outside _ above, Ledger.afterBlock, Ledger.applyRecords_slots]
        refine overwrite_of_mem ?_ (mem_recordDeltas_of_spent spent)
        rw [keys_recordDeltas]
        exact distinct.map fun _ _ => BitVec.eq_of_toNat_eq
      · have inside : slot.toNat < childSlots chain.state block.header.logSlots :=
          lt_childSlots (represents.logSlots.symm ▸ window) (inRange slot inBlock)
        exact absurd (keys slot (records.minted slot minted inside)) unwritten
    · exact afterBlock_slots_of_notMem named

end Spec

end Jetsam
