import Mathlib.Data.List.Nodup
import Mathlib.Algebra.GroupWithZero.Nat

/-!
# Checked computations

Validators are sequences of guards over `Except`: two guard forms, the inversion of sequencing, and
the induction rule for a checked fold.
-/

namespace Control

open List

variable {ε α β σ : Type}

/-- Continue when the condition holds, otherwise stop with the error. -/
def require (condition : Prop) [Decidable condition] (error : ε) : Except ε Unit :=
  if condition then .ok () else .error error

/-- Continue when nothing was found, otherwise stop with the error of the finding. -/
def requireNone (found : Option α) (error : α → ε) : Except ε Unit :=
  match found with
  | none => .ok ()
  | some finding => .error (error finding)

def okOr (found : Option α) (error : ε) : Except ε α :=
  match found with
  | some value => .ok value
  | none => .error error

def mapError {ε' : Type} (convert : ε → ε') : Except ε α → Except ε' α
  | .ok value => .ok value
  | .error error => .error (convert error)

variable {first : Except ε α} {result : β}

theorem bind_eq_ok {next : α → Except ε β} :
    (first >>= next) = .ok result ↔ ∃ value, first = .ok value ∧ next value = .ok result := by
  cases first with
  | error error => simp [bind, Except.bind]
  | ok value => simp [bind, Except.bind]

theorem isOk_eq_true {outcome : Except ε α} :
    outcome.isOk = true ↔ ∃ value, outcome = .ok value := by
  cases outcome with
  | error error => simp [Except.isOk, Except.toBool]
  | ok value => simp [Except.isOk, Except.toBool]

variable {value : α}

theorem bind_of_ok {next : α → Except ε β} (done : first = .ok value) :
    (first >>= next) = next value := by
  rw [done]
  rfl

theorem bind_of_error {next : α → Except ε β} {error : ε} (failed : first = .error error) :
    (first >>= next) = .error error := by
  rw [failed]
  rfl

theorem bind_isOk {next : α → Except ε β} (done : first = .ok value)
    (rest : ∃ result, next value = .ok result) :
    ∃ result, (first >>= next) = .ok result := by
  obtain ⟨result, finished⟩ := rest
  exact ⟨result, bind_eq_ok.mpr ⟨value, done, finished⟩⟩

@[simp]
theorem pure_eq_ok {result : α} :
    (pure value : Except ε α) = .ok result ↔ value = result := by
  simp [pure, Except.pure]

variable {condition : Prop} {done : Unit}

@[simp]
theorem require_eq_ok [Decidable condition] {error : ε} :
    require condition error = .ok done ↔ condition := by
  unfold require
  split <;> simp_all

variable {error : α → ε} {found : Option α}

@[simp]
theorem requireNone_eq_ok :
    requireNone found error = .ok done ↔ found = none := by
  cases found <;> simp [requireNone]

@[simp]
theorem okOr_eq_ok {error : ε} :
    okOr found error = .ok value ↔ found = some value := by
  cases found <;> simp [okOr]

variable {ε' : Type}

@[simp]
theorem mapError_eq_ok {convert : ε → ε'} {result : Except ε α} :
    mapError convert result = .ok value ↔ result = .ok value := by
  cases result <;> simp [mapError]

variable {next : Unit → Except ε β}

theorem require_bind_eq_ok [Decidable condition] {error : ε} :
    (require condition error >>= next) = .ok result ↔ condition ∧ next () = .ok result := by
  rw [bind_eq_ok]
  exact ⟨fun ⟨_, guard, rest⟩ => ⟨require_eq_ok.mp guard, rest⟩,
    fun ⟨guard, rest⟩ => ⟨(), require_eq_ok.mpr guard, rest⟩⟩

theorem requireNone_bind_eq_ok :
    (requireNone found error >>= next) = .ok result ↔ found = none ∧ next () = .ok result := by
  rw [bind_eq_ok]
  exact ⟨fun ⟨_, guard, rest⟩ => ⟨requireNone_eq_ok.mp guard, rest⟩,
    fun ⟨guard, rest⟩ => ⟨(), requireNone_eq_ok.mpr guard, rest⟩⟩

theorem require_bind_isOk [Decidable condition] {error : ε} (guard : condition)
    (rest : ∃ result, next () = .ok result) :
    ∃ result, (require condition error >>= next) = .ok result :=
  bind_isOk (require_eq_ok.mpr guard) rest

theorem requireNone_bind_isOk (nothing : found = none) (rest : ∃ result, next () = .ok result) :
    ∃ result, (requireNone found error >>= next) = .ok result :=
  bind_isOk (requireNone_eq_ok.mpr nothing) rest

variable {step : σ → α → Except ε σ} {start final : σ}

@[simp]
theorem foldlM_nil_eq_ok :
    List.foldlM step start [] = .ok final ↔ start = final := by
  simp [List.foldlM]

variable {items : List α}

theorem foldlM_cons_eq_ok {item : α} :
    List.foldlM step start (item :: items) = .ok final ↔
      ∃ middle, step start item = .ok middle ∧ List.foldlM step middle items = .ok final := by
  rw [foldlM_cons, bind_eq_ok]

theorem foldlM_append_eq_ok {left right : List α} :
    List.foldlM step start (left ++ right) = .ok final ↔
      ∃ middle, List.foldlM step start left = .ok middle ∧
        List.foldlM step middle right = .ok final := by
  rw [foldlM_append, bind_eq_ok]

/-- A fold whose steps go through wherever those of another one do. -/
theorem foldlM_congr_ok {left : σ → α → Except ε σ} {right : σ → α → Except ε' σ}
    (step : ∀ item ∈ items, ∀ before after, left before item = .ok after →
      right before item = .ok after) (run : items.foldlM left start = .ok final) :
    items.foldlM right start = .ok final := by
  induction items generalizing start with
  | nil =>
    obtain rfl := foldlM_nil_eq_ok.mp run
    rfl
  | cons item items ih =>
    obtain ⟨middle, first, rest⟩ := foldlM_cons_eq_ok.mp run
    obtain ⟨here, later⟩ := forall_mem_cons.mp step
    exact foldlM_cons_eq_ok.mpr ⟨middle, here start middle first, ih later rest⟩

theorem foldlM_invariant {step : σ → α → Except ε σ} {Invariant : σ → Prop} {items : List α}
    (kept : ∀ item ∈ items, ∀ before after, Invariant before → step before item = .ok after →
      Invariant after)
    {start final : σ} (initial : Invariant start)
    (run : List.foldlM step start items = .ok final) : Invariant final := by
  induction items generalizing start with
  | nil => exact foldlM_nil_eq_ok.mp run ▸ initial
  | cons item items ih =>
    obtain ⟨middle, stepped, rest⟩ := foldlM_cons_eq_ok.mp run
    have member : ∀ other ∈ items, other ∈ item :: items := fun _ =>
      mem_cons_of_mem item
    exact ih (fun other inItems => kept other (member other inItems))
      (kept item mem_cons_self start middle initial stepped) rest

theorem foldlM_checked {Checked : α → Prop}
    (checked : ∀ before item after, step before item = .ok after → Checked item)
    (run : List.foldlM step start items = .ok final) :
    ∀ item ∈ items, Checked item := by
  induction items generalizing start with
  | nil => exact fun item mem => absurd mem not_mem_nil
  | cons first items ih =>
    obtain ⟨middle, stepped, rest⟩ := foldlM_cons_eq_ok.mp run
    exact forall_mem_cons.mpr ⟨checked start first middle stepped, ih rest⟩

/-- A checked fold goes through when every step after a prefix does and keeps an invariant of the
prefix. -/
theorem foldlM_prefix_isOk {step : σ → α → Except ε σ} {Invariant : List α → σ → Prop}
    {items : List α}
    (kept : ∀ done item rest, items = done ++ item :: rest → ∀ before, Invariant done before →
      ∃ after, step before item = .ok after ∧ Invariant (done ++ [item]) after)
    {start : σ} (initial : Invariant [] start) :
    ∃ final, List.foldlM step start items = .ok final ∧ Invariant items final := by
  suffices general : ∀ rest done before, items = done ++ rest → Invariant done before →
      ∃ final, List.foldlM step before rest = .ok final ∧ Invariant items final from
    general items [] start rfl initial
  intro rest
  induction rest with
  | nil =>
    intro done before split holds
    rw [append_nil] at split
    exact ⟨before, rfl, split ▸ holds⟩
  | cons item rest ih =>
    intro done before split holds
    obtain ⟨middle, stepped, holdsAfter⟩ := kept done item rest split before holds
    obtain ⟨final, finished, holdsFinal⟩ :=
      ih (done ++ [item]) middle (by simp [split]) holdsAfter
    exact ⟨final, foldlM_cons_eq_ok.mpr ⟨middle, stepped, finished⟩, holdsFinal⟩

theorem forM_eq_ok {check : α → Except ε Unit} :
    items.forM check = .ok done ↔ ∀ item ∈ items, check item = .ok () := by
  induction items with
  | nil => simp [pure_eq_ok]
  | cons item items ih =>
    change (check item >>= fun _ => items.forM check) = .ok done ↔ _
    rw [bind_eq_ok, forall_mem_cons, ← ih]
    constructor
    · rintro ⟨⟨⟩, first, rest⟩
      exact ⟨first, rest⟩
    · rintro ⟨first, rest⟩
      exact ⟨(), first, rest⟩

/-- A checked map whose step on the given items is a guard and a value. -/
theorem mapM_eq_ok_of_mem {check : α → Except ε β} {Holds : α → Prop} {value : α → β}
    {items : List α} {results : List β}
    (spec : ∀ item ∈ items, ∀ result, check item = .ok result ↔ Holds item ∧ value item = result) :
    items.mapM check = .ok results ↔ (∀ item ∈ items, Holds item) ∧ items.map value = results := by
  induction items generalizing results with
  | nil => simp [pure_eq_ok]
  | cons item items ih =>
    obtain ⟨first, rest⟩ := forall_mem_cons.mp spec
    simp only [mapM_cons, bind_eq_ok, pure_eq_ok, first, ih rest, forall_mem_cons, map_cons]
    constructor
    · rintro ⟨_, ⟨holds, rfl⟩, _, ⟨later, rfl⟩, rfl⟩
      exact ⟨⟨holds, later⟩, rfl⟩
    · rintro ⟨⟨holds, later⟩, rfl⟩
      exact ⟨_, ⟨holds, rfl⟩, _, ⟨later, rfl⟩, rfl⟩

variable {Holds : α → Prop} {results : List β}

theorem mapM_eq_ok {check : α → Except ε β} {value : α → β}
    (spec : ∀ item result, check item = .ok result ↔ Holds item ∧ value item = result) :
    items.mapM check = .ok results ↔ (∀ item ∈ items, Holds item) ∧ items.map value = results :=
  mapM_eq_ok_of_mem fun item _ => spec item

variable {check : α → Option β}

theorem mapM_eq_some {value : α → β}
    (spec : ∀ item result, check item = some result ↔ Holds item ∧ value item = result) :
    items.mapM check = some results ↔ (∀ item ∈ items, Holds item) ∧ items.map value = results := by
  induction items generalizing results with
  | nil => simp
  | cons item items ih =>
    simp only [mapM_cons, Option.bind_eq_bind, Option.bind_eq_some_iff, Option.pure_def,
      Option.some.injEq, spec, ih, forall_mem_cons, map_cons]
    constructor
    · rintro ⟨_, ⟨holds, rfl⟩, _, ⟨later, rfl⟩, rfl⟩
      exact ⟨⟨holds, later⟩, rfl⟩
    · rintro ⟨⟨holds, later⟩, rfl⟩
      exact ⟨_, ⟨holds, rfl⟩, _, ⟨later, rfl⟩, rfl⟩

theorem mapM_eq_some_map {value : α → β} (found : ∀ item ∈ items, check item = some (value item)) :
    items.mapM check = some (items.map value) := by
  induction items with
  | nil => rfl
  | cons item items ih =>
    obtain ⟨here, later⟩ := forall_mem_cons.mp found
    rw [mapM_cons, here, ih later]
    rfl

section Repeats

variable {γ : Type*} [DecidableEq γ]

/-- The first element that was already seen, while the elements are inserted one by one. -/
def firstRepeat : List γ → List γ → Option γ
  | _, [] => none
  | seen, item :: items => if item ∈ seen then some item else firstRepeat (item :: seen) items

variable {seen : List γ}

@[simp]
theorem firstRepeat_eq_none {items : List γ} :
    firstRepeat seen items = none ↔ items.Nodup ∧ ∀ item ∈ items, item ∉ seen := by
  induction items generalizing seen with
  | nil => simp [firstRepeat]
  | cons item items ih =>
    by_cases inSeen : item ∈ seen
    · simp [firstRepeat, inSeen]
    · simp only [firstRepeat, inSeen, if_false, ih, mem_cons, nodup_cons, forall_eq_or_imp]
      constructor
      · rintro ⟨nodup, fresh⟩
        refine ⟨⟨fun mem => ?_, nodup⟩, not_false, fun other mem => ?_⟩
        · exact fresh item mem (Or.inl rfl)
        · exact fun seenOther => fresh other mem (Or.inr seenOther)
      · rintro ⟨⟨notMember, nodup⟩, -, fresh⟩
        refine ⟨nodup, fun other mem => ?_⟩
        rintro (rfl | seenOther)
        · exact notMember mem
        · exact fresh other mem seenOther

/-- Insert the elements one by one, refusing one that was inserted before or is already taken. -/
def requireFresh (repeated overlap : γ → ε) (taken : List γ) : List γ → List γ → Except ε Unit
  | _, [] => .ok ()
  | seen, item :: items => do
    require (item ∉ seen) (repeated item)
    require (item ∉ taken) (overlap item)
    requireFresh repeated overlap taken (item :: seen) items

theorem requireFresh_eq_ok {repeated overlap : γ → ε} {taken items : List γ} :
    requireFresh repeated overlap taken seen items = .ok done ↔
      items.Nodup ∧ (∀ item ∈ items, item ∉ seen) ∧ ∀ item ∈ items, item ∉ taken := by
  induction items generalizing seen with
  | nil => simp [requireFresh]
  | cons item items ih =>
    simp only [requireFresh, require_bind_eq_ok, ih, mem_cons, nodup_cons, forall_eq_or_imp]
    constructor
    · rintro ⟨inSeen, inTaken, nodup, fresh, outside⟩
      refine ⟨⟨fun mem => fresh item mem (Or.inl rfl), nodup⟩,
        ⟨inSeen, fun other mem seenOther => fresh other mem (Or.inr seenOther)⟩,
        inTaken, outside⟩
    · rintro ⟨⟨notMember, nodup⟩, ⟨inSeen, fresh⟩, inTaken, outside⟩
      refine ⟨inSeen, inTaken, nodup, fun other mem => ?_, outside⟩
      rintro (rfl | seenOther)
      · exact notMember mem
      · exact fresh other mem seenOther

end Repeats

/-- Addition that refuses to leave the unsigned range below `bound`. -/
def checkedAdd (bound left right : Nat) : Option Nat :=
  if left + right < bound then some (left + right) else none

variable {bound left right : Nat}

@[simp]
theorem checkedAdd_eq_some {sum : Nat} :
    checkedAdd bound left right = some sum ↔ left + right < bound ∧ left + right = sum := by
  unfold checkedAdd
  split
  · simp_all
  · simp only [reduceCtorEq, false_iff]
    omega

/-- Subtraction that refuses to go below zero. -/
def checkedSub (left right : Nat) : Option Nat :=
  if right ≤ left then some (left - right) else none

@[simp]
theorem checkedSub_eq_some {difference : Nat} :
    checkedSub left right = some difference ↔ right ≤ left ∧ left - right = difference := by
  unfold checkedSub
  split
  · simp_all
  · simp only [reduceCtorEq, false_iff]
    omega

def checkedSum (bound : Nat) : Nat → List Nat → Option Nat
  | start, [] => some start
  | start, item :: items => do
    let next ← checkedAdd bound start item
    checkedSum bound next items

theorem checkedSum_eq_some {start total : Nat} {items : List Nat} (inRange : start < bound) :
    checkedSum bound start items = some total ↔
      start + items.sum < bound ∧ start + items.sum = total := by
  induction items generalizing start with
  | nil => simp [checkedSum, inRange]
  | cons item items ih =>
    simp only [checkedSum, sum_cons]
    by_cases step : start + item < bound
    · simp only [checkedAdd, step, if_true]
      rw [show (some (start + item) >>= fun next => checkedSum bound next items) =
          checkedSum bound (start + item) items from rfl, ih step, Nat.add_assoc]
    · simp only [checkedAdd, step, if_false]
      constructor
      · intro impossible
        cases impossible
      · rintro ⟨small, -⟩
        omega

end Control
