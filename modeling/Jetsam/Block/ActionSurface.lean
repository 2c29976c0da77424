import Jetsam.Block.Apply
import Jetsam.State.ExactTransition

/-!
# The exact action surface

`state_delta` derives the ordered slot actions of a block from its parent state alone: an overlay
holds what earlier actions wrote, and no slot may be named twice.
-/

namespace Jetsam

open Control SegmentedFriState List

inductive StateDeltaActionKind where
  | spend
  | mint
  deriving DecidableEq

structure StateDeltaAction where
  txIndex : Nat
  opIndex : Nat
  slotIndex : BitVec 32
  pre : SlotValue
  post : SlotValue
  kind : StateDeltaActionKind
  deriving DecidableEq

inductive StateDeltaError where
  | inputMismatch (txIndex inputIndex : Nat)
  | outputSlotOccupied (txIndex outputIndex : Nat)
  | duplicateInputSlot (txIndex : Nat)
  | duplicateOutputSlot (txIndex : Nat)
  | inputOutputSlotOverlap (txIndex : Nat)
  | blockSlotConflict (txIndex opIndex : Nat)
  | slotOutOfRange (txIndex : Nat)
  | invalidSlotDomain
  | allocationCounterOverflow (txIndex outputIndex : Nat)
  | actionCountOverflow
  deriving DecidableEq

def u32Bound : Nat := 2 ^ 32

structure SurfaceScan where
  overlay : Nat → Option SlotValue
  actions : List StateDeltaAction
  spends : Nat
  mints : Nat
  allocCounter : Nat
  touched : List (BitVec 32)

def SurfaceScan.start (allocCounter : Nat) : SurfaceScan :=
  ⟨fun _ => none, [], 0, 0, allocCounter, []⟩

/-- A slot of the parent, empty above its domain. -/
def parentSlot (state : SegmentedFriState) (index : Nat) : SlotValue :=
  if index < state.numSlots then state.slot index else .empty

/-- A slot as the next action sees it. -/
def SurfaceScan.read (scan : SurfaceScan) (state : SegmentedFriState) (index : Nat) : SlotValue :=
  (scan.overlay index).getD (parentSlot state index)

/-- Append an action that writes `post`. -/
def SurfaceScan.write (scan : SurfaceScan) (state : SegmentedFriState) (txIndex opIndex : Nat)
    (slotIndex : BitVec 32) (post : SlotValue) (kind : StateDeltaActionKind) : SurfaceScan :=
  { scan with
    overlay := Function.update scan.overlay slotIndex.toNat (some post)
    actions := scan.actions ++
      [⟨txIndex, opIndex, slotIndex, scan.read state slotIndex.toNat, post, kind⟩]
    touched := scan.touched ++ [slotIndex] }

section Scan

variable (state : SegmentedFriState) (slotDomain blockHeight txIndex : Nat) (body : TxBody)

def noteInput (scan : SurfaceScan) (live : Nat × TxInput) : SurfaceScan :=
  { scan.write state txIndex live.1 live.2.slotIndex .empty .spend with spends := scan.spends + 1 }

def noteOutput (scan : SurfaceScan) (live : Nat × TxOutput) : SurfaceScan :=
  { scan.write state txIndex live.1 live.2.slotIndex
      (body.minted blockHeight (scan.allocCounter + 1) live.2) .mint with
    mints := scan.mints + 1
    allocCounter := scan.allocCounter + 1 }

def scanInput (scan : SurfaceScan) (live : Nat × TxInput) : Except StateDeltaError SurfaceScan := do
  require (live.2.slotIndex.toNat < slotDomain) (.slotOutOfRange txIndex)
  require (live.2.slotIndex ∉ scan.touched) (.blockSlotConflict txIndex live.1)
  require (scan.read state live.2.slotIndex.toNat = body.claim live.2)
    (.inputMismatch txIndex live.1)
  let _ ← okOr (checkedAdd u32Bound scan.spends 1) .actionCountOverflow
  pure (noteInput state txIndex scan live)

def scanOutput (scan : SurfaceScan) (live : Nat × TxOutput) :
    Except StateDeltaError SurfaceScan := do
  require (live.2.slotIndex.toNat < slotDomain) (.slotOutOfRange txIndex)
  require (live.2.slotIndex ∉ scan.touched) (.blockSlotConflict txIndex live.1)
  require (scan.read state live.2.slotIndex.toNat = .empty) (.outputSlotOccupied txIndex live.1)
  let next ← okOr (checkedAdd u64Bound scan.allocCounter 1)
    (.allocationCounterOverflow txIndex live.1)
  require (isCoinbaseCreationId (BitVec.ofNat 64 next) = false)
    (.allocationCounterOverflow txIndex live.1)
  let _ ← okOr (checkedAdd u32Bound scan.mints 1) .actionCountOverflow
  pure (noteOutput state blockHeight txIndex body scan live)

def checkTxSlotShape : Except StateDeltaError Unit := do
  requireNone (firstRepeat [] body.inputSlots) fun _ => .duplicateInputSlot txIndex
  requireFresh (fun _ => .duplicateOutputSlot txIndex) (fun _ => .inputOutputSlotOverlap txIndex)
    body.inputSlots [] body.outputSlots

/-- The actions of one body: its spends, then its mints. -/
def scanBody (scan : SurfaceScan) : Except StateDeltaError SurfaceScan := do
  checkTxSlotShape txIndex body
  let spent ← body.liveInputs.foldlM (scanInput state slotDomain txIndex body) scan
  body.liveOutputs.foldlM (scanOutput state slotDomain blockHeight txIndex body) spent

end Scan

def scanBodies (state : SegmentedFriState) (slotDomain blockHeight : Nat) :
    Nat → SurfaceScan → List TxBody → Except StateDeltaError SurfaceScan
  | _, scan, [] => pure scan
  | txIndex, scan, body :: rest => do
    let next ← scanBody state slotDomain blockHeight txIndex body scan
    scanBodies state slotDomain blockHeight (txIndex + 1) next rest

structure StateDeltaActionSurface where
  actions : List StateDeltaAction
  spends : Nat
  mints : Nat
  deriving DecidableEq

/-- The action surface in a domain of at least the parent's size. -/
def buildStateDeltaActionSurfaceInDomain (state : SegmentedFriState) (slotDomain : Nat)
    (bodies : List TxBody) (parentAllocCounter blockHeight : Nat) :
    Except StateDeltaError StateDeltaActionSurface := do
  require (state.numSlots ≤ slotDomain) .invalidSlotDomain
  let scan ← scanBodies state slotDomain blockHeight 0 (.start parentAllocCounter) bodies
  pure ⟨scan.actions, scan.spends, scan.mints⟩

/-- The surface with its old and new slots, in slot order. -/
structure ExactActionSurface where
  actions : List StateDeltaAction
  touchedIndices : List Nat
  oldSlots : List SlotValue
  newSlots : List SlotValue
  spends : Nat
  mints : Nat
  deriving DecidableEq

/-- Record an action: the first value read stays, the last value written replaces. -/
def noteTouched (entries : List (Nat × (SlotValue × SlotValue))) (action : StateDeltaAction) :
    List (Nat × (SlotValue × SlotValue)) :=
  let old := (entries.find? (·.1 == action.slotIndex.toNat)).elim action.pre (·.2.1)
  insertKey action.slotIndex.toNat (old, action.post) entries

def touchedEntries (actions : List StateDeltaAction) : List (Nat × (SlotValue × SlotValue)) :=
  actions.foldl noteTouched []

/-- Convert the ordered actions into sorted old and new leaves. -/
def exactActionSurfaceFromSurface (surface : StateDeltaActionSurface) : ExactActionSurface :=
  let touched := touchedEntries surface.actions
  { actions := surface.actions
    touchedIndices := touched.map Prod.fst
    oldSlots := touched.map fun entry => entry.2.1
    newSlots := touched.map fun entry => entry.2.2
    spends := surface.spends
    mints := surface.mints }

/-- The exact surface of a block at the parent's depth or one level above. -/
def buildExactActionSurfaceForTransactionsAtLogSlots (state : SegmentedFriState)
    (targetLogSlots : Nat) (transactions : List TxBody) (parentAllocCounter blockHeight : Nat) :
    Except StateDeltaError ExactActionSurface := do
  require (targetLogSlots = state.logSlots ∨ targetLogSlots = state.logSlots + 1) .invalidSlotDomain
  require (targetLogSlots < 64) .invalidSlotDomain
  let surface ← buildStateDeltaActionSurfaceInDomain state (2 ^ targetLogSlots) transactions
    parentAllocCounter blockHeight
  pure (exactActionSurfaceFromSurface surface)

def ExactActionSurface.updates (surface : ExactActionSurface) : List (Nat × SlotValue) :=
  surface.touchedIndices.zip surface.newSlots

def ExactActionSurface.counters {D : Type} (surface : ExactActionSurface) (chain : ChainState D) :
    Option (Nat × Nat) := do
  let remaining ← checkedSub chain.activeSlotCount surface.spends
  let active ← checkedAdd u64Bound remaining surface.mints
  let alloc ← checkedAdd u64Bound chain.allocCounter surface.mints
  pure (active, alloc)

namespace SurfaceScan

/-- Slots that were not named yet are still read from the parent. -/
def Untouched (scan : SurfaceScan) : Prop :=
  ∀ slot : BitVec 32, slot ∉ scan.touched → scan.overlay slot.toNat = none

def deltas (scan : SurfaceScan) : List (Nat × SlotValue) :=
  scan.actions.map fun action => (action.slotIndex.toNat, action.post)

variable {scan : SurfaceScan} {state : SegmentedFriState}

theorem Untouched.read (untouched : scan.Untouched) {slot : BitVec 32} (new : slot ∉ scan.touched) :
    scan.read state slot.toNat = parentSlot state slot.toNat := by
  rw [SurfaceScan.read, untouched slot new, Option.getD_none]

theorem Untouched.write (untouched : scan.Untouched) (state : SegmentedFriState)
    (txIndex opIndex : Nat) (slotIndex : BitVec 32) (post : SlotValue)
    (kind : StateDeltaActionKind) :
    (scan.write state txIndex opIndex slotIndex post kind).Untouched := by
  intro slot new
  rw [SurfaceScan.write, mem_append, mem_singleton, not_or] at new
  have different : slot.toNat ≠ slotIndex.toNat := fun same => new.2 (BitVec.eq_of_toNat_eq same)
  simp only [SurfaceScan.write, Function.update_of_ne different]
  exact untouched slot new.1

/-- A run of actions: the slots it names, what it writes, and how far it moves the counts. -/
structure Advances (scan final : SurfaceScan) (slots : List (BitVec 32))
    (written : List (Nat × SlotValue)) (spent minted : Nat) : Prop where
  touched : final.touched = scan.touched ++ slots
  deltas : final.deltas = scan.deltas ++ written
  spends : final.spends = scan.spends + spent
  mints : final.mints = scan.mints + minted
  alloc : final.allocCounter = scan.allocCounter + minted
  untouched : scan.Untouched → final.Untouched

theorem Advances.refl (scan : SurfaceScan) : scan.Advances scan [] [] 0 0 :=
  ⟨(append_nil _).symm, (append_nil _).symm, rfl, rfl, rfl, id⟩

theorem Advances.trans {middle final : SurfaceScan} {slots slots' : List (BitVec 32)}
    {written written' : List (Nat × SlotValue)} {spent spent' minted minted' : Nat}
    (first : scan.Advances middle slots written spent minted)
    (second : middle.Advances final slots' written' spent' minted') :
    scan.Advances final (slots ++ slots') (written ++ written') (spent + spent')
      (minted + minted') where
  touched := by rw [second.touched, first.touched, append_assoc]
  deltas := by rw [second.deltas, first.deltas, append_assoc]
  spends := by rw [second.spends, first.spends, add_assoc]
  mints := by rw [second.mints, first.mints, add_assoc]
  alloc := by rw [second.alloc, first.alloc, add_assoc]
  untouched := second.untouched ∘ first.untouched

theorem advances_noteInput (scan : SurfaceScan) (state : SegmentedFriState) (txIndex : Nat)
    (live : Nat × TxInput) :
    scan.Advances (noteInput state txIndex scan live) [live.2.slotIndex]
      [(live.2.slotIndex.toNat, .empty)] 1 0 where
  touched := rfl
  deltas := map_append
  spends := rfl
  mints := rfl
  alloc := rfl
  untouched := fun untouched => untouched.write state txIndex live.1 live.2.slotIndex .empty .spend

theorem advances_noteOutput (scan : SurfaceScan) (state : SegmentedFriState)
    (blockHeight txIndex : Nat) (body : TxBody) (live : Nat × TxOutput) :
    scan.Advances (noteOutput state blockHeight txIndex body scan live) [live.2.slotIndex]
      [(live.2.slotIndex.toNat, body.minted blockHeight (scan.allocCounter + 1) live.2)] 0 1 where
  touched := rfl
  deltas := map_append
  spends := rfl
  mints := rfl
  alloc := rfl
  untouched := fun untouched => untouched.write state txIndex live.1 live.2.slotIndex
    (body.minted blockHeight (scan.allocCounter + 1) live.2) .mint

theorem advances_foldl_noteInput (state : SegmentedFriState) (txIndex : Nat)
    (inputs : List (Nat × TxInput)) :
    scan.Advances (inputs.foldl (noteInput state txIndex) scan)
      (inputs.map fun live => live.2.slotIndex)
      (inputs.map fun live => (live.2.slotIndex.toNat, .empty)) inputs.length 0 := by
  induction inputs generalizing scan with
  | nil => exact .refl scan
  | cons live inputs ih =>
    rw [length_cons, add_comm]
    exact (scan.advances_noteInput state txIndex live).trans ih

theorem advances_foldl_noteOutput (state : SegmentedFriState) (blockHeight txIndex : Nat)
    (body : TxBody) (outputs : List (Nat × TxOutput)) :
    scan.Advances (outputs.foldl (noteOutput state blockHeight txIndex body) scan)
      (outputs.map fun live => live.2.slotIndex)
      (body.mintsFrom blockHeight scan.allocCounter outputs) 0 outputs.length := by
  induction outputs generalizing scan with
  | nil => exact .refl scan
  | cons live outputs ih =>
    rw [length_cons, add_comm]
    exact (scan.advances_noteOutput state blockHeight txIndex body live).trans ih

end SurfaceScan

/-- The allocator stays below the tagged identifiers over a run of mints. -/
def AllocFits (allocCounter mints : Nat) : Prop := 0 < mints → allocCounter + mints < 2 ^ 63

theorem nodup_snoc {α : Type} {xs : List α} {x : α} : (xs ++ [x]).Nodup ↔ x ∉ xs ∧ xs.Nodup := by
  simpa using nodup_concat xs x

section ScanSpec

variable {state : SegmentedFriState} {slotDomain blockHeight txIndex : Nat} {body : TxBody}
  {scan final : SurfaceScan}

theorem scanInput_eq_ok (untouched : scan.Untouched) {live : Nat × TxInput} :
    scanInput state slotDomain txIndex body scan live = .ok final ↔
      (live.2.slotIndex.toNat < slotDomain ∧
        parentSlot state live.2.slotIndex.toNat = body.claim live.2) ∧
      live.2.slotIndex ∉ scan.touched ∧ scan.spends + 1 < u32Bound ∧
      noteInput state txIndex scan live = final := by
  simp only [scanInput, bind_eq_ok, require_eq_ok, exists_const, okOr_eq_ok, checkedAdd_eq_some,
    pure_eq_ok]
  constructor
  · rintro ⟨inRange, new, claims, _, ⟨room, rfl⟩, rfl⟩
    rw [untouched.read new] at claims
    exact ⟨⟨inRange, claims⟩, new, room, rfl⟩
  · rintro ⟨⟨inRange, claims⟩, new, room, rfl⟩
    rw [← untouched.read new] at claims
    exact ⟨inRange, new, claims, _, ⟨room, rfl⟩, rfl⟩

theorem scanOutput_eq_ok (untouched : scan.Untouched) {live : Nat × TxOutput} :
    scanOutput state slotDomain blockHeight txIndex body scan live = .ok final ↔
      (live.2.slotIndex.toNat < slotDomain ∧ parentSlot state live.2.slotIndex.toNat = .empty) ∧
      live.2.slotIndex ∉ scan.touched ∧ scan.allocCounter + 1 < 2 ^ 63 ∧
      scan.mints + 1 < u32Bound ∧ noteOutput state blockHeight txIndex body scan live = final := by
  simp only [scanOutput, bind_eq_ok, require_eq_ok, exists_const, okOr_eq_ok, checkedAdd_eq_some,
    pure_eq_ok]
  constructor
  · rintro ⟨inRange, new, vacant, _, ⟨small, rfl⟩, untagged, _, ⟨room, rfl⟩, rfl⟩
    rw [untouched.read new] at vacant
    exact ⟨⟨inRange, vacant⟩, new, ChainState.allocBound_iff.mp ⟨small, untagged⟩, room, rfl⟩
  · rintro ⟨⟨inRange, vacant⟩, new, small, room, rfl⟩
    rw [← untouched.read new] at vacant
    obtain ⟨bounded, untagged⟩ := ChainState.allocBound_iff.mpr small
    exact ⟨inRange, new, vacant, _, ⟨bounded, rfl⟩, untagged, _, ⟨room, rfl⟩, rfl⟩

theorem foldlM_scanInput_eq_ok {inputs : List (Nat × TxInput)} (untouched : scan.Untouched)
    (once : scan.touched.Nodup) (room : scan.spends + inputs.length < u32Bound) :
    inputs.foldlM (scanInput state slotDomain txIndex body) scan = .ok final ↔
      (∀ live ∈ inputs, live.2.slotIndex.toNat < slotDomain ∧
        parentSlot state live.2.slotIndex.toNat = body.claim live.2) ∧
      (scan.touched ++ inputs.map fun live => live.2.slotIndex).Nodup ∧
      inputs.foldl (noteInput state txIndex) scan = final := by
  induction inputs generalizing scan with
  | nil => simp [once]
  | cons live inputs ih =>
    rw [length_cons] at room
    have noted : (noteInput state txIndex scan live).touched =
        scan.touched ++ [live.2.slotIndex] := rfl
    have step := fun new : live.2.slotIndex ∉ scan.touched =>
      @ih (noteInput state txIndex scan live)
        ((scan.advances_noteInput state txIndex live).untouched untouched)
        (by rw [noted]; exact nodup_snoc.mpr ⟨new, once⟩)
        (by simp only [noteInput]; omega)
    rw [foldlM_cons_eq_ok, forall_mem_cons, map_cons, foldl_cons, append_cons, ← noted]
    constructor
    · rintro ⟨middle, first, rest⟩
      obtain ⟨checks, new, -, rfl⟩ := (scanInput_eq_ok untouched).mp first
      obtain ⟨restChecks, restOnce, done⟩ := (step new).mp rest
      exact ⟨⟨checks, restChecks⟩, restOnce, done⟩
    · rintro ⟨⟨checks, restChecks⟩, restOnce, done⟩
      have new : live.2.slotIndex ∉ scan.touched := by
        exact (nodup_snoc.mp (nodup_append'.mp restOnce).1).1
      exact ⟨_, (scanInput_eq_ok untouched).mpr ⟨checks, new, by omega, rfl⟩,
        (step new).mpr ⟨restChecks, restOnce, done⟩⟩

/-- The mints of a body pass when each finds its slot empty, none repeats a slot, and the allocator
stays below the tagged identifiers. -/
theorem foldlM_scanOutput_eq_ok {outputs : List (Nat × TxOutput)} (untouched : scan.Untouched)
    (once : scan.touched.Nodup) (room : scan.mints + outputs.length < u32Bound) :
    outputs.foldlM (scanOutput state slotDomain blockHeight txIndex body) scan = .ok final ↔
      (∀ live ∈ outputs, live.2.slotIndex.toNat < slotDomain ∧
        parentSlot state live.2.slotIndex.toNat = .empty) ∧
      (scan.touched ++ outputs.map fun live => live.2.slotIndex).Nodup ∧
      AllocFits scan.allocCounter outputs.length ∧
      outputs.foldl (noteOutput state blockHeight txIndex body) scan = final := by
  induction outputs generalizing scan with
  | nil => simp [once, AllocFits]
  | cons live outputs ih =>
    rw [length_cons] at room
    have noted : (noteOutput state blockHeight txIndex body scan live).touched =
        scan.touched ++ [live.2.slotIndex] := rfl
    have step := fun new : live.2.slotIndex ∉ scan.touched =>
      @ih (noteOutput state blockHeight txIndex body scan live)
        ((scan.advances_noteOutput state blockHeight txIndex body live).untouched untouched)
        (by rw [noted]; exact nodup_snoc.mpr ⟨new, once⟩)
        (by simp only [noteOutput]; omega)
    rw [foldlM_cons_eq_ok, forall_mem_cons, map_cons, foldl_cons, append_cons, ← noted, length_cons]
    constructor
    · rintro ⟨middle, first, rest⟩
      obtain ⟨checks, new, small, -, rfl⟩ := (scanOutput_eq_ok untouched).mp first
      obtain ⟨restChecks, restOnce, fits, done⟩ := (step new).mp rest
      refine ⟨⟨checks, restChecks⟩, restOnce, fun _ => ?_, done⟩
      cases outputs with
      | nil => exact small
      | cons next outputs =>
        have bound := fits (Nat.succ_pos _)
        simp only [noteOutput] at bound
        omega
    · rintro ⟨⟨checks, restChecks⟩, restOnce, fits, done⟩
      have new : live.2.slotIndex ∉ scan.touched := by
        exact (nodup_snoc.mp (nodup_append'.mp restOnce).1).1
      have bound := fits (by omega)
      exact ⟨_, (scanOutput_eq_ok untouched).mpr ⟨checks, new, by omega, by omega, rfl⟩,
        (step new).mpr ⟨restChecks, restOnce, fun _ => by simp only [noteOutput]; omega, done⟩⟩

def noteBody (state : SegmentedFriState) (blockHeight txIndex : Nat) (body : TxBody)
    (scan : SurfaceScan) : SurfaceScan :=
  body.liveOutputs.foldl (noteOutput state blockHeight txIndex body)
    (body.liveInputs.foldl (noteInput state txIndex) scan)

theorem SurfaceScan.advances_noteBody (scan : SurfaceScan) (state : SegmentedFriState)
    (blockHeight txIndex : Nat) (body : TxBody) :
    scan.Advances (noteBody state blockHeight txIndex body scan) body.touched
      (body.deltas blockHeight scan.allocCounter) body.liveInputCount body.liveOutputCount := by
  have spent := @advances_foldl_noteInput scan state txIndex body.liveInputs
  have minted := @advances_foldl_noteOutput (body.liveInputs.foldl (noteInput state txIndex) scan)
    state blockHeight txIndex body body.liveOutputs
  rw [spent.alloc, add_zero] at minted
  have both := spent.trans minted
  rwa [add_zero, zero_add, ← body.liveInputCount_eq, ← body.liveOutputCount_eq] at both

theorem checkTxSlotShape_eq_ok {done : Unit} :
    checkTxSlotShape txIndex body = .ok done ↔ body.touched.Nodup := by
  simp [checkTxSlotShape, bind_eq_ok, requireNone_eq_ok, requireFresh_eq_ok, firstRepeat_eq_none,
    ChainState.touched_nodup_iff]

theorem scanBody_eq_ok (untouched : scan.Untouched) (once : scan.touched.Nodup)
    (inputRoom : scan.spends + body.liveInputCount < u32Bound)
    (outputRoom : scan.mints + body.liveOutputCount < u32Bound) :
    scanBody state slotDomain blockHeight txIndex body scan = .ok final ↔
      (∀ slot ∈ body.touched, slot.toNat < slotDomain) ∧
      Ledger.Matches (parentSlot state) body ∧ (scan.touched ++ body.touched).Nodup ∧
      AllocFits scan.allocCounter body.liveOutputCount ∧
      noteBody state blockHeight txIndex body scan = final := by
  have spent := @SurfaceScan.advances_foldl_noteInput scan state txIndex body.liveInputs
  rw [body.liveInputCount_eq] at inputRoom
  rw [body.liveOutputCount_eq] at outputRoom ⊢
  have mints := fun spentOnce => @foldlM_scanOutput_eq_ok state slotDomain blockHeight txIndex body
    (body.liveInputs.foldl (noteInput state txIndex) scan) final body.liveOutputs
    (spent.untouched untouched) spentOnce (by rw [spent.mints]; exact outputRoom)
  rw [spent.touched, spent.alloc, append_assoc] at mints
  simp only [scanBody, bind_eq_ok, checkTxSlotShape_eq_ok, exists_const,
    foldlM_scanInput_eq_ok untouched once inputRoom,
    ChainState.forall_touched (· < slotDomain), Ledger.Matches]
  constructor
  · rintro ⟨-, _, ⟨inputs, spentOnce, rfl⟩, outputsDone⟩
    obtain ⟨outputs, allOnce, fits, done⟩ := (mints spentOnce).mp outputsDone
    exact ⟨⟨fun live mem => (inputs live mem).1, fun live mem => (outputs live mem).1⟩,
      ⟨fun live mem => (inputs live mem).2, fun live mem => (outputs live mem).2⟩,
      allOnce, fits, done⟩
  · rintro ⟨⟨inputRange, outputRange⟩, ⟨claims, vacant⟩, allOnce, fits, done⟩
    have spentOnce : (scan.touched ++ body.inputSlots).Nodup := by
      rw [TxBody.touched, ← append_assoc] at allOnce
      exact (nodup_append'.mp allOnce).1
    exact ⟨(nodup_append'.mp allOnce).2.1, _,
      ⟨fun live mem => ⟨inputRange live mem, claims live mem⟩, spentOnce, rfl⟩,
      (mints spentOnce).mpr ⟨fun live mem => ⟨outputRange live mem, vacant live mem⟩,
        allOnce, fits, done⟩⟩

end ScanSpec

def noteBodies (state : SegmentedFriState) (blockHeight : Nat) :
    Nat → SurfaceScan → List TxBody → SurfaceScan
  | _, scan, [] => scan
  | txIndex, scan, body :: rest =>
    noteBodies state blockHeight (txIndex + 1) (noteBody state blockHeight txIndex body scan) rest

theorem SurfaceScan.advances_noteBodies (scan : SurfaceScan) (state : SegmentedFriState)
    (blockHeight txIndex : Nat) (bodies : List TxBody) :
    scan.Advances (noteBodies state blockHeight txIndex scan bodies)
      (bodies.flatMap TxBody.touched) (recordDeltas blockHeight scan.allocCounter bodies)
      (groupLiveInputs bodies) (groupLiveOutputs bodies) := by
  induction bodies generalizing scan txIndex with
  | nil => exact .refl scan
  | cons body rest ih =>
    have first := scan.advances_noteBody state blockHeight txIndex body
    have second := ih (noteBody state blockHeight txIndex body scan) (txIndex + 1)
    rw [first.alloc] at second
    exact first.trans second

theorem allocFits_add {allocCounter first rest : Nat} :
    AllocFits allocCounter (first + rest) ↔
      AllocFits allocCounter first ∧ AllocFits (allocCounter + first) rest := by
  simp only [AllocFits]
  omega

theorem scanBodies_eq_ok {state : SegmentedFriState} {slotDomain blockHeight txIndex : Nat}
    {scan final : SurfaceScan} {bodies : List TxBody} (untouched : scan.Untouched)
    (once : scan.touched.Nodup) (inputRoom : scan.spends + groupLiveInputs bodies < u32Bound)
    (outputRoom : scan.mints + groupLiveOutputs bodies < u32Bound) :
    scanBodies state slotDomain blockHeight txIndex scan bodies = .ok final ↔
      (∀ slot ∈ bodies.flatMap TxBody.touched, slot.toNat < slotDomain) ∧
      (∀ body ∈ bodies, Ledger.Matches (parentSlot state) body) ∧
      (scan.touched ++ bodies.flatMap TxBody.touched).Nodup ∧
      AllocFits scan.allocCounter (groupLiveOutputs bodies) ∧
      noteBodies state blockHeight txIndex scan bodies = final := by
  induction bodies generalizing scan txIndex with
  | nil => simp [scanBodies, noteBodies, once, AllocFits, groupLiveOutputs]
  | cons body rest ih =>
    simp only [groupLiveInputs, groupLiveOutputs, map_cons, sum_cons] at *
    have noted := scan.advances_noteBody state blockHeight txIndex body
    have step := fun bodyOnce => @ih (txIndex + 1) (noteBody state blockHeight txIndex body scan)
      (noted.untouched untouched) bodyOnce (by rw [noted.spends]; omega)
      (by rw [noted.mints]; omega)
    rw [noted.touched, noted.alloc, append_assoc] at step
    simp only [scanBodies, bind_eq_ok, scanBody_eq_ok untouched once (by omega : scan.spends +
      body.liveInputCount < u32Bound) (by omega), flatMap_cons, forall_mem_append,
      forall_mem_cons, allocFits_add, noteBodies]
    constructor
    · rintro ⟨_, ⟨range, hit, bodyOnce, fits, rfl⟩, restDone⟩
      obtain ⟨restRange, restHit, allOnce, restFits, done⟩ := (step bodyOnce).mp restDone
      exact ⟨⟨range, restRange⟩, ⟨hit, restHit⟩, allOnce, ⟨fits, restFits⟩, done⟩
    · rintro ⟨⟨range, restRange⟩, ⟨hit, restHit⟩, allOnce, ⟨fits, restFits⟩, done⟩
      have bodyOnce : (scan.touched ++ body.touched).Nodup := by
        rw [← append_assoc] at allOnce
        exact (nodup_append'.mp allOnce).1
      exact ⟨_, ⟨range, hit, bodyOnce, fits, rfl⟩,
        (step bodyOnce).mpr ⟨restRange, restHit, allOnce, restFits, done⟩⟩

theorem noteTouched_post (entries : List (Nat × (SlotValue × SlotValue)))
    (action : StateDeltaAction) :
    (noteTouched entries action).map (fun entry => (entry.1, entry.2.2)) =
      insertKey action.slotIndex.toNat action.post
        (entries.map fun entry => (entry.1, entry.2.2)) := by
  exact map_insertKey Prod.snd _ _ _

theorem touchedEntries_post (actions : List StateDeltaAction) :
    (touchedEntries actions).map (fun entry => (entry.1, entry.2.2)) =
      orderedMap (actions.map fun action => (action.slotIndex.toNat, action.post)) := by
  rw [orderedMap, foldl_map]
  exact (@foldl_hom _ _ _ (fun entries : List (Nat × (SlotValue × SlotValue)) =>
    entries.map fun entry => (entry.1, entry.2.2)) noteTouched
    (fun entries action => insertKey action.slotIndex.toNat action.post entries) actions []
    fun entries action => (noteTouched_post entries action).symm).symm

def exactSurface (state : SegmentedFriState) (blockHeight allocCounter : Nat)
    (transactions : List TxBody) : ExactActionSurface :=
  let scan := noteBodies state blockHeight 0 (.start allocCounter) transactions
  exactActionSurfaceFromSurface ⟨scan.actions, scan.spends, scan.mints⟩

section Surface

variable {state : SegmentedFriState} {targetLogSlots blockHeight allocCounter : Nat}
  {transactions : List TxBody}

theorem updates_exactSurface :
    (exactSurface state blockHeight allocCounter transactions).updates =
      orderedMap (recordDeltas blockHeight allocCounter transactions) := by
  have noted :=
    (SurfaceScan.start allocCounter).advances_noteBodies state blockHeight 0 transactions
  have deltas : (noteBodies state blockHeight 0 (.start allocCounter) transactions).deltas =
      recordDeltas blockHeight allocCounter transactions := noted.deltas
  rw [← deltas, SurfaceScan.deltas, ← touchedEntries_post]
  exact zip_map'

theorem spends_exactSurface :
    (exactSurface state blockHeight allocCounter transactions).spends =
      groupLiveInputs transactions :=
  ((SurfaceScan.start allocCounter).advances_noteBodies state blockHeight 0
    transactions).spends.trans (zero_add _)

theorem mints_exactSurface :
    (exactSurface state blockHeight allocCounter transactions).mints =
      groupLiveOutputs transactions :=
  ((SurfaceScan.start allocCounter).advances_noteBodies state blockHeight 0
    transactions).mints.trans (zero_add _)

theorem mem_updates_exactSurface {update : Nat × SlotValue}
    (mem : update ∈ (exactSurface state blockHeight allocCounter transactions).updates) :
    ∃ slot ∈ transactions.flatMap TxBody.touched, slot.toNat = update.1 := by
  rw [updates_exactSurface] at mem
  have key := mem_keys_orderedMap.mp (mem_map_of_mem mem)
  rw [keys_recordDeltas] at key
  exact mem_map.mp key

theorem counters_exactSurface {D : Type} {chain : ChainState D} {active alloc : Nat} :
    (exactSurface state blockHeight allocCounter transactions).counters chain =
        some (active, alloc) ↔
      groupLiveInputs transactions ≤ chain.activeSlotCount ∧
      chain.activeSlotCount - groupLiveInputs transactions + groupLiveOutputs transactions <
        u64Bound ∧
      chain.allocCounter + groupLiveOutputs transactions < u64Bound ∧
      chain.activeSlotCount - groupLiveInputs transactions + groupLiveOutputs transactions =
        active ∧
      chain.allocCounter + groupLiveOutputs transactions = alloc := by
  simp [ExactActionSurface.counters, checkedSub_eq_some, checkedAdd_eq_some, spends_exactSurface,
    mints_exactSurface, Option.bind_eq_some_iff, and_assoc]

/-- The surface is built exactly for disjoint transactions that match the parent at its depth or one
level above. -/
theorem buildExactActionSurface_eq_ok {surface : ExactActionSurface}
    (inputRoom : groupLiveInputs transactions < u32Bound)
    (outputRoom : groupLiveOutputs transactions < u32Bound) :
    buildExactActionSurfaceForTransactionsAtLogSlots state targetLogSlots transactions allocCounter
        blockHeight = .ok surface ↔
      (targetLogSlots = state.logSlots ∨ targetLogSlots = state.logSlots + 1) ∧
      targetLogSlots < 64 ∧
      (∀ slot ∈ transactions.flatMap TxBody.touched, slot.toNat < 2 ^ targetLogSlots) ∧
      (∀ body ∈ transactions, Ledger.Matches (parentSlot state) body) ∧
      (transactions.flatMap TxBody.touched).Nodup ∧
      AllocFits allocCounter (groupLiveOutputs transactions) ∧
      exactSurface state blockHeight allocCounter transactions = surface := by
  have start := @scanBodies_eq_ok state (2 ^ targetLogSlots) blockHeight 0 (.start allocCounter)
  simp only [buildExactActionSurfaceForTransactionsAtLogSlots, buildStateDeltaActionSurfaceInDomain,
    bind_eq_ok, require_eq_ok, exists_const, pure_eq_ok]
  refine and_congr_right fun window => and_congr_right fun _ => ?_
  have grows : state.numSlots ≤ 2 ^ targetLogSlots := by
    apply Nat.pow_le_pow_right Nat.two_pos
    omega
  constructor
  · rintro ⟨_, ⟨-, final, scanned, rfl⟩, rfl⟩
    obtain ⟨range, hit, once, fits, rfl⟩ := (start (fun _ _ => rfl) nodup_nil
      (by simpa [SurfaceScan.start] using inputRoom)
      (by simpa [SurfaceScan.start] using outputRoom)).mp scanned
    exact ⟨range, hit, once, fits, rfl⟩
  · rintro ⟨range, hit, once, fits, rfl⟩
    exact ⟨_, ⟨grows, _, (start (fun _ _ => rfl) nodup_nil
      (by simpa [SurfaceScan.start] using inputRoom)
      (by simpa [SurfaceScan.start] using outputRoom)).mpr ⟨range, hit, once, fits, rfl⟩, rfl⟩, rfl⟩

end Surface

end Jetsam
