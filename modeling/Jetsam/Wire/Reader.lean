import Mathlib.Data.BitVec
import Mathlib.Tactic.NormNum
import Jetsam.Control.Checks

/-!
# Readers of canonical bytes

A reader reads a format canonically when it accepts exactly the encodings of the valid values,
whatever follows them: such a reader inverts its writer, and no two inputs are read as the same
value.
-/

namespace Wire

open Control List

abbrev Byte := BitVec 8

/-- The low `count` bytes of a number, least significant first. -/
def leBytes : Nat → Nat → List Byte
  | 0, _ => []
  | count + 1, value => BitVec.ofNat 8 value :: leBytes count (value / 256)

/-- The number whose bytes are given, least significant first. -/
def ofLeBytes : List Byte → Nat
  | [] => 0
  | byte :: bytes => byte.toNat + 256 * ofLeBytes bytes

@[simp]
theorem length_leBytes (count value : Nat) : (leBytes count value).length = count := by
  induction count generalizing value with
  | zero => rfl
  | succ count ih => simp [leBytes, ih]

theorem ofLeBytes_lt (bytes : List Byte) : ofLeBytes bytes < 256 ^ bytes.length := by
  induction bytes with
  | nil => simp [ofLeBytes]
  | cons byte bytes ih =>
    rw [ofLeBytes, length_cons, pow_succ]
    omega

theorem ofLeBytes_leBytes {count value : Nat} (fits : value < 256 ^ count) :
    ofLeBytes (leBytes count value) = value := by
  induction count generalizing value with
  | zero =>
    simp only [leBytes, ofLeBytes]
    omega
  | succ count ih =>
    rw [leBytes, ofLeBytes, ih (by omega), BitVec.toNat_ofNat]
    omega

theorem leBytes_ofLeBytes (bytes : List Byte) : leBytes bytes.length (ofLeBytes bytes) = bytes := by
  induction bytes with
  | nil => rfl
  | cons byte bytes ih =>
    have low : byte.toNat < 256 := byte.isLt
    rw [length_cons, ofLeBytes, leBytes, Nat.add_mul_div_left _ _ (by norm_num),
      Nat.div_eq_of_lt low, Nat.zero_add, ih]
    congr 1
    apply BitVec.eq_of_toNat_eq
    rw [BitVec.toNat_ofNat]
    omega

/-- A computation that consumes bytes and may fail. -/
abbrev Reader (ε α : Type) := StateT (List Byte) (Except ε) α

def take {ε : Type} (short : ε) (count : Nat) : Reader ε (List Byte) := fun input =>
  if input.length < count then .error short else .ok (input.take count, input.drop count)

/-- Consume nothing and pass on the outcome of a check. -/
def check {ε α : Type} (outcome : Except ε α) : Reader ε α := fun input =>
  outcome >>= fun value => .ok (value, input)

/-- Consume nothing and require that nothing is left. -/
def atEnd {ε : Type} (trailing : ε) : Reader ε Unit := fun input =>
  if input = [] then .ok ((), []) else .error trailing

/-- Consume nothing and require that enough is left. -/
def atLeast {ε : Type} (short : ε) (count : Nat) : Reader ε Unit := fun input =>
  if input.length < count then .error short else .ok ((), input)

/-- A reader whose refusals are reported as others. -/
def Reader.mapErr {ε ε' α : Type} (convert : ε → ε') (reader : Reader ε α) : Reader ε' α :=
  fun input => mapError convert (reader input)

/-- The value a reader finds at the front of its input. -/
def Reader.value {ε α : Type} (reader : Reader ε α) (input : List Byte) : Option α :=
  match reader input with
  | .ok (value, _) => some value
  | .error _ => none

/-- Consume a little-endian number of `count` bytes. -/
def readNat {ε : Type} (short : ε) (count : Nat) : Reader ε Nat := do
  let bytes ← take short count
  pure (ofLeBytes bytes)

/-- Consume a little-endian bit vector of `count` bytes. -/
def readBits {ε : Type} (short : ε) (width count : Nat) : Reader ε (BitVec width) := do
  let bytes ← take short count
  pure (BitVec.ofNat width (ofLeBytes bytes))

def readMany {ε α : Type} (reader : Reader ε α) : Nat → Reader ε (List α)
  | 0 => pure []
  | count + 1 => do
    let item ← reader
    let items ← readMany reader count
    pure (item :: items)

def readFin {ε α : Type} (reader : Reader ε α) : (count : Nat) → Reader ε (Fin count → α)
  | 0 => pure Fin.elim0
  | count + 1 => do
    let item ← reader
    let items ← readFin reader count
    pure (Fin.cons item items)

section Laws

variable {ε α β : Type}

/-- The reader accepts exactly the encodings of the valid values and leaves what follows them. -/
def Reads (reader : Reader ε α) (valid : α → Prop) (write : α → List Byte) : Prop :=
  ∀ input value rest,
    reader input = .ok (value, rest) ↔ valid value ∧ input = write value ++ rest

variable {reader : Reader ε α} {input rest : List Byte}

theorem run_bind_eq_ok {next : α → Reader ε β} {value : β} :
    (reader >>= next) input = .ok (value, rest) ↔
      ∃ first middle, reader input = .ok (first, middle) ∧
        next first middle = .ok (value, rest) := by
  change (reader input >>= fun pair => next pair.1 pair.2) = .ok (value, rest) ↔ _
  rw [bind_eq_ok, Prod.exists]

variable {value : α}

@[simp]
theorem run_pure_eq_ok {given : α} :
    (pure given : Reader ε α) input = .ok (value, rest) ↔ given = value ∧ input = rest := by
  change Except.ok (given, input) = .ok (value, rest) ↔ _
  rw [Except.ok.injEq, Prod.mk.injEq]

@[simp]
theorem run_check_eq_ok {outcome : Except ε α} :
    check outcome input = .ok (value, rest) ↔ outcome = .ok value ∧ input = rest := by
  rw [check, bind_eq_ok]
  constructor
  · rintro ⟨result, passed, same⟩
    obtain ⟨rfl, rfl⟩ := Prod.mk.inj (Except.ok.inj same)
    exact ⟨passed, rfl⟩
  · rintro ⟨passed, rfl⟩
    exact ⟨value, passed, rfl⟩

@[simp]
theorem run_atEnd_eq_ok {trailing : ε} {done : Unit} :
    atEnd trailing input = .ok (done, rest) ↔ input = [] ∧ rest = [] := by
  rw [atEnd]
  split_ifs with ended
  · simp [ended, eq_comm]
  · simp [ended]

variable {count : Nat}

@[simp]
theorem run_atLeast_eq_ok {short : ε} {done : Unit} :
    atLeast short count input = .ok (done, rest) ↔ count ≤ input.length ∧ input = rest := by
  rw [atLeast]
  split_ifs with tooShort
  · simp [not_le.mpr tooShort]
  · simp [not_lt.mp tooShort]

theorem value_eq_some :
    reader.value input = some value ↔ ∃ rest, reader input = .ok (value, rest) := by
  rw [Reader.value]
  cases reader input with
  | error refused => simp
  | ok found => simp [Prod.ext_iff]

variable {valid : α → Prop} {write : α → List Byte}

theorem Reads.mapErr {ε' : Type} (reads : Reads reader valid write) (convert : ε → ε') :
    Reads (reader.mapErr convert) valid write := by
  intro input value rest
  rw [Reader.mapErr, mapError_eq_ok]
  exact reads input value rest

theorem reads_take (short : ε) (count : Nat) :
    Reads (take short count) (fun bytes => bytes.length = count) id := by
  intro input bytes rest
  simp only [take, id_eq]
  split_ifs with tooShort
  · constructor
    · rintro ⟨⟩
    · rintro ⟨rfl, rfl⟩
      simp at tooShort
  · rw [Except.ok.injEq, Prod.mk.injEq]
    constructor
    · rintro ⟨rfl, rfl⟩
      exact ⟨length_take_of_le (not_lt.mp tooShort), (take_append_drop _ _).symm⟩
    · rintro ⟨rfl, rfl⟩
      exact ⟨take_left, drop_left⟩

theorem reads_readNat (short : ε) (count : Nat) :
    Reads (readNat short count) (fun value => value < 256 ^ count) (leBytes count) := by
  intro input value rest
  simp only [readNat, run_bind_eq_ok, reads_take short count input, run_pure_eq_ok, id_eq]
  constructor
  · rintro ⟨bytes, middle, ⟨size, rfl⟩, rfl, rfl⟩
    exact ⟨size ▸ ofLeBytes_lt bytes, by rw [← size, leBytes_ofLeBytes]⟩
  · rintro ⟨fits, rfl⟩
    exact ⟨leBytes count value, rest, ⟨length_leBytes count value, rfl⟩, ofLeBytes_leBytes fits,
      rfl⟩

theorem reads_readBits (short : ε) {width : Nat} (whole : width = 8 * count) :
    Reads (readBits short width count) (fun _ => True) fun value => leBytes count value.toNat := by
  have power : (2 : Nat) ^ width = 256 ^ count := by
    rw [whole, pow_mul]
    norm_num
  intro input value rest
  simp only [readBits, run_bind_eq_ok, reads_take short count input, run_pure_eq_ok, id_eq,
    true_and]
  constructor
  · rintro ⟨bytes, middle, ⟨size, rfl⟩, rfl, rfl⟩
    have fits : ofLeBytes bytes < 2 ^ width := power ▸ size ▸ ofLeBytes_lt bytes
    rw [BitVec.toNat_ofNat, Nat.mod_eq_of_lt fits, ← size, leBytes_ofLeBytes]
  · rintro rfl
    refine ⟨leBytes count value.toNat, rest, ⟨length_leBytes _ _, rfl⟩, ?_, rfl⟩
    rw [ofLeBytes_leBytes (power ▸ value.isLt), BitVec.ofNat_toNat, BitVec.setWidth_eq]

theorem Reads.many (reads : Reads reader valid write) (count : Nat) :
    Reads (readMany reader count) (fun items => items.length = count ∧ ∀ item ∈ items, valid item)
      fun items => items.flatMap write := by
  induction count with
  | zero =>
    intro input items rest
    simp only [readMany, run_pure_eq_ok]
    constructor
    · rintro ⟨rfl, rfl⟩
      simp
    · rintro ⟨⟨size, -⟩, rfl⟩
      obtain rfl := eq_nil_of_length_eq_zero size
      exact ⟨rfl, rfl⟩
  | succ count ih =>
    intro input items rest
    simp only [readMany, run_bind_eq_ok, run_pure_eq_ok, reads input, ih _ _ _]
    constructor
    · rintro ⟨item, middle, ⟨first, rfl⟩, others, after, ⟨⟨size, all⟩, rfl⟩, rfl, rfl⟩
      exact ⟨⟨by simp [size], forall_mem_cons.mpr ⟨first, all⟩⟩, by simp⟩
    · rintro ⟨⟨size, all⟩, rfl⟩
      cases items with
      | nil => simp at size
      | cons item items =>
        rw [forall_mem_cons] at all
        exact ⟨item, items.flatMap write ++ rest, ⟨all.1, by simp⟩, items, rest,
          ⟨⟨Nat.succ.inj size, all.2⟩, rfl⟩, rfl, rfl⟩

theorem Reads.fin (reads : Reads reader valid write) (count : Nat) :
    Reads (readFin reader count) (fun items => ∀ index, valid (items index))
      fun items => (List.ofFn items).flatMap write := by
  induction count with
  | zero =>
    intro input items rest
    simp only [readFin, run_pure_eq_ok]
    constructor
    · rintro ⟨rfl, rfl⟩
      exact ⟨fun index => index.elim0, rfl⟩
    · rintro ⟨-, rfl⟩
      exact ⟨funext fun index => index.elim0, rfl⟩
  | succ count ih =>
    intro input items rest
    simp only [readFin, run_bind_eq_ok, run_pure_eq_ok, reads input, ih _ _ _]
    constructor
    · rintro ⟨item, middle, ⟨first, rfl⟩, others, after, ⟨all, rfl⟩, rfl, rfl⟩
      refine ⟨fun index => ?_, by simp [ofFn_succ]⟩
      cases index using Fin.cases with
      | zero => exact first
      | succ index => exact all index
    · rintro ⟨all, rfl⟩
      refine ⟨items 0, _, ⟨all 0, ?_⟩, fun index => items index.succ, rest,
        ⟨fun index => all index.succ, rfl⟩, ?_, rfl⟩
      · rw [ofFn_succ, flatMap_cons, append_assoc]
      · exact Fin.cons_self_tail items

theorem length_flatMap_ofFn (write : α → List Byte) (size : Nat)
    (fixed : ∀ item, (write item).length = size) (items : Fin count → α) :
    ((List.ofFn items).flatMap write).length = count * size := by
  simp [Function.comp_def, fixed]

theorem Reads.inverts (reads : Reads reader valid write) (isValid : valid value)
    (rest : List Byte) :
    reader (write value ++ rest) = .ok (value, rest) :=
  (reads _ _ _).mpr ⟨isValid, rfl⟩

end Laws

end Wire
