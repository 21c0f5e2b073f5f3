import Mathlib.Algebra.Order.BigOperators.Group.List
import RChain.Lib.Threads
import RChain.Models.Ast
import RChain.Shared.Refined

/-!
# Cost accounting

Source: `rholang/src/accounting.rs` and, for the cost of an evaluation, `rholang/src/runtime.rs`.

A charge is two atomic updates of the cost cell, and other tasks can come between them: first
the balance is decremented and clamped at zero, then the amount is added to the running total.
Tasks that share a cell are modelled as computations that stop at their first failed charge.
-/

namespace RChain.Rholang

open Models Threads Relation List Int64

/-- The errors of the interpreter that evaluation can raise. -/
inductive RholangError where
  | bugFoundError (message : String)
  | outOfPhlogistonsError
  | substituteError (term : Var)
  | reduceError (message : String)
  | methodNotDefined (method otherType : String)
  | methodArgumentNumberMismatch (method : String) (expected actual : Int32)
  | operatorNotDefined (op otherType : String)
  | operatorExpectedError (op expected otherType : String)
  | unexpectedBundleContent (message : String)
deriving DecidableEq

structure Cost where
  value : Int64
  operation : String
deriving DecidableEq

structure CostAccounting where
  value : Int64
  total : Int64
deriving DecidableEq

namespace CostAccounting

def fromInitial (init : Cost) : CostAccounting := ⟨init.value, 0⟩

/-- The `fetch_update` of a charge: the balance it finds and the cell it leaves. -/
def fetchUpdate (cell : CostAccounting) (amount : Int64) : Option (Int64 × CostAccounting) :=
  if cell.value < 0 then none
  else some (cell.value, { cell with value := max (cell.value - amount) 0 })

/-- The `fetch_add` of a charge, which wraps. -/
def fetchAdd (cell : CostAccounting) (amount : Int64) : CostAccounting :=
  { cell with total := cell.total + amount }

/-- The cost that an evaluation reports, from the cell before it and after it. -/
def evaluateCost (before after : CostAccounting) : Cost :=
  ⟨after.total - before.total, "evaluate"⟩

end CostAccounting

/-- What a charge returns, by the balance that its decrement found. -/
def chargeResult (prev amount : Int64) : Except RholangError Unit :=
  if prev - amount < 0 then .error .outOfPhlogistonsError else .ok ()

def CostAccounting.charge (cell : CostAccounting) (amount : Cost) :
    Except RholangError Unit × CostAccounting :=
  match cell.fetchUpdate amount.value with
  | some (prev, next) => (chargeResult prev amount.value, next.fetchAdd amount.value)
  | none => (.error .outOfPhlogistonsError, cell)

/-- A computation with its charges, in the order it makes them. -/
inductive Charging (A : Type) where
  | done (result : Except RholangError A)
  | charge (amount : Cost) (next : Charging A)

namespace Charging

variable {A : Type}

def amounts : Charging A → List Cost
  | .done _ => []
  | .charge amount next => amount :: next.amounts

/-- The sum of all charges, as a number that does not wrap. -/
def sum (task : Charging A) : Int := (task.amounts.map fun amount => amount.value.toInt).sum

def NonNegative (task : Charging A) : Prop := ∀ amount ∈ task.amounts, 0 ≤ amount.value

/-- The computation after a charge: it ends where the charge failed. -/
def resume (next : Charging A) : Except RholangError Unit → Charging A
  | .ok _ => next
  | .error error => .done (.error error)

end Charging

/-- A task: between two charges, or between the two updates of one. -/
inductive Task (A : Type) where
  | ready (rest : Charging A)
  | updated (prev : Int64) (amount : Cost) (rest : Charging A)

/-- One atomic update of the cell by a task; `none` once the task has its result. -/
def CostAccounting.move {A : Type} (cell : CostAccounting) :
    Task A → Option (Task A × CostAccounting)
  | .ready (.done _) => none
  | .ready (.charge amount rest) =>
    match cell.fetchUpdate amount.value with
    | some (prev, next) => some (.updated prev amount rest, next)
    | none => some (.ready (.done (.error .outOfPhlogistonsError)), cell)
  | .updated prev amount rest =>
    some (.ready (rest.resume (chargeResult prev amount.value)), cell.fetchAdd amount.value)

abbrev Metered (A : Type) := Pool CostAccounting (Task A)

namespace Metered

variable {A : Type}

def start (cell : CostAccounting) (tasks : List (Charging A)) : Metered A :=
  ⟨cell, tasks.map Task.ready⟩

abbrev step (s : Metered A) (index : Nat) : Option (Metered A) := Pool.step CostAccounting.move s index

/-- Some interleaving of the updates of the tasks leads from one state to the other. -/
abbrev Reaches (s t : Metered A) : Prop := Threads.Reaches CostAccounting.move s t

end Metered

section Updates

variable {cell : CostAccounting} {amount : Int64}

theorem fetch_update_some (solvent : 0 ≤ cell.value) (nonneg : 0 ≤ amount) :
    ∃ next, cell.fetchUpdate amount = some (cell.value, next) ∧ next.total = cell.total ∧
      next.value.toInt = max 0 (cell.value.toInt - amount.toInt) := by
  rw [le_iff_toInt_le, toInt_zero] at solvent nonneg
  have upper := cell.value.toInt_lt
  have amountUpper := amount.toInt_lt
  have difference : (cell.value - amount).toInt = cell.value.toInt - amount.toInt := by
    rw [toInt_sub, Int.bmod_def]
    split_ifs <;> omega
  have found : ¬ cell.value < 0 := by
    rw [lt_iff_toInt_lt, toInt_zero]
    omega
  refine ⟨{ cell with value := max (cell.value - amount) 0 }, ?_, rfl, ?_⟩
  · rw [CostAccounting.fetchUpdate, if_neg found]
  · change (max (cell.value - amount) 0).toInt = _
    rw [show max (cell.value - amount) 0 = if cell.value - amount ≤ 0 then 0 else
      cell.value - amount from rfl]
    split_ifs with exceeded
    · rw [le_iff_toInt_le, difference, toInt_zero] at exceeded
      rw [toInt_zero]
      omega
    · rw [le_iff_toInt_le, difference, toInt_zero] at exceeded
      rw [difference]
      omega

theorem charge_result_eq {prev : Int64} (solvent : 0 ≤ prev) (nonneg : 0 ≤ amount) :
    chargeResult prev amount =
      if prev < amount then .error .outOfPhlogistonsError else .ok () := by
  rw [le_iff_toInt_le, toInt_zero] at solvent nonneg
  have upper := prev.toInt_lt
  have amountUpper := amount.toInt_lt
  have same : prev - amount < 0 ↔ prev < amount := by
    rw [lt_iff_toInt_lt, lt_iff_toInt_lt, toInt_sub, toInt_zero, Int.bmod_def]
    split_ifs <;> omega
  simp only [chargeResult, same]

theorem to_int_fetch_add (total : 0 ≤ cell.total.toInt) (nonneg : 0 ≤ amount)
    (fits : cell.total.toInt + amount.toInt < 2 ^ 63) :
    (cell.fetchAdd amount).total.toInt = cell.total.toInt + amount.toInt := by
  rw [le_iff_toInt_le, toInt_zero] at nonneg
  change (cell.total + amount).toInt = _
  rw [toInt_add, Int.bmod_def]
  split_ifs <;> omega

end Updates

section Interleavings

variable {A : Type} {init : Cost} {s t : Metered A} {index : Nat}

/-- What a task has taken from the balance and not yet added to the total. -/
def Task.pending : Task A → Int
  | .ready _ => 0
  | .updated _ amount _ => amount.value.toInt

/-- What a task will still charge if none of its charges fails. -/
def Task.remaining : Task A → Int
  | .ready rest => rest.sum
  | .updated _ _ rest => rest.sum

/-- No charge of the task is negative, nor is the balance that its last decrement found. -/
def Task.Sound : Task A → Prop
  | .ready rest => rest.NonNegative
  | .updated prev amount rest => 0 ≤ prev ∧ 0 ≤ amount.value ∧ rest.NonNegative

namespace Metered

def pending (s : Metered A) : Int := (s.locals.map Task.pending).sum

def remaining (s : Metered A) : Int := (s.locals.map Task.remaining).sum

structure Sound (s : Metered A) : Prop where
  solvent : 0 ≤ s.shared.value
  tasks : ∀ task ∈ s.locals, task.Sound

/-- The total, with what is about to be added to it, is what the balance has lost. -/
structure Exact (init : Cost) (s : Metered A) : Prop where
  nonneg : 0 ≤ s.shared.total.toInt
  balanced : s.shared.total.toInt + s.pending = init.value.toInt - s.shared.value.toInt

/-- Exact, with a total that no step lowers and a cost within the initial balance. -/
structure Accounted (init : Cost) (s : Metered A) : Prop extends Exact init s where
  grows : ∀ index t, s.step index = some t → s.shared.total ≤ t.shared.total
  cost : 0 ≤ (CostAccounting.evaluateCost (.fromInitial init) s.shared).value ∧
    (CostAccounting.evaluateCost (.fromInitial init) s.shared).value ≤ init.value

end Metered

theorem sum_nonneg {task : Charging A} (nonneg : task.NonNegative) : 0 ≤ task.sum := by
  apply List.sum_nonneg
  intro _ mem
  rcases List.mem_map.mp mem with ⟨amount, charged, rfl⟩
  exact le_iff_toInt_le.mp (nonneg amount charged)

variable {task old new : Task A} {cell : CostAccounting} {tasks : List (Charging A)}

theorem Task.Sound.remaining_nonneg (sound : task.Sound) : 0 ≤ task.remaining := by
  cases task with
  | ready => exact sum_nonneg sound
  | updated => exact sum_nonneg sound.2.2

theorem Task.Sound.pending_nonneg (sound : task.Sound) : 0 ≤ task.pending := by
  cases task with
  | ready => exact le_refl 0
  | updated => exact le_iff_toInt_le.mp sound.2.1

/-- How an update of the cell by a task can go: it decrements the balance, or it adds to the
total and ends its charge. -/
theorem metered_step_cases (sound : s.Sound) (stepped : s.step index = some t) :
    (∃ amount rest, s.locals[index]? = some (.ready (.charge amount rest)) ∧
      t.locals = s.locals.set index (.updated s.shared.value amount rest) ∧
      t.shared.total = s.shared.total ∧ 0 ≤ amount.value ∧ rest.NonNegative ∧
      t.shared.value.toInt = max 0 (s.shared.value.toInt - amount.value.toInt)) ∨
    ∃ prev amount rest, s.locals[index]? = some (.updated prev amount rest) ∧
      t.locals = s.locals.set index (.ready (if prev < amount.value then
        .done (.error .outOfPhlogistonsError) else rest)) ∧
      t.shared = s.shared.fetchAdd amount.value ∧ 0 ≤ amount.value ∧ rest.NonNegative := by
  rcases step_iff.mp stepped with ⟨old, _, _, present, moved, rfl⟩
  have known := sound.tasks old (mem_of_getElem? present)
  cases old with
  | ready rest =>
    cases rest with
    | done => cases moved
    | charge amount rest =>
      have nonneg : 0 ≤ amount.value := known amount mem_cons_self
      rcases fetch_update_some sound.solvent nonneg with ⟨_, updated, total, value⟩
      simp only [CostAccounting.move, updated] at moved
      cases moved
      exact Or.inl ⟨amount, rest, present, rfl, total, nonneg,
        fun other mem => known other (mem_cons_of_mem amount mem), value⟩
  | updated prev amount rest =>
    cases moved
    refine Or.inr ⟨prev, amount, rest, present, ?_, rfl, known.2⟩
    rw [charge_result_eq known.1 known.2.1]
    split_ifs <;> rfl

theorem sound_step (sound : s.Sound) (stepped : s.step index = some t) : t.Sound := by
  rcases metered_step_cases sound stepped with
    ⟨amount, _, _, locals, _, nonneg, others, value⟩ |
    ⟨_, amount, _, _, locals, shared, _, others⟩
  · constructor
    · rw [le_iff_toInt_le, toInt_zero, value]
      exact le_max_left 0 _
    · rw [locals]
      exact forall_set sound.tasks ⟨sound.solvent, nonneg, others⟩
  · constructor
    · rw [shared]
      exact sound.solvent
    · rw [locals]
      apply forall_set sound.tasks
      split_ifs
      · intro _ mem
        cases mem
      · exact others

theorem sums_of_set (present : s.locals[index]? = some old)
    (locals : t.locals = s.locals.set index new) :
    t.pending = s.pending + new.pending - old.pending ∧
      t.remaining = s.remaining + new.remaining - old.remaining := by
  have pending := sum_set Task.pending new present
  have remaining := sum_set Task.remaining new present
  rw [← locals] at pending remaining
  constructor
  · exact eq_sub_of_add_eq pending
  · exact eq_sub_of_add_eq remaining

theorem share_le (sound : s.Sound) (present : s.locals[index]? = some task) :
    task.pending ≤ s.pending ∧ task.remaining ≤ s.remaining := by
  have mem := mem_of_getElem? present
  constructor
  · apply single_le_sum _ _ (mem_map_of_mem mem)
    intro _ counted
    rcases mem_map.mp counted with ⟨other, known, rfl⟩
    exact (sound.tasks other known).pending_nonneg
  · apply single_le_sum _ _ (mem_map_of_mem mem)
    intro _ counted
    rcases mem_map.mp counted with ⟨other, known, rfl⟩
    exact (sound.tasks other known).remaining_nonneg

theorem pending_nonneg (sound : s.Sound) : 0 ≤ s.pending := by
  apply List.sum_nonneg
  intro _ counted
  rcases mem_map.mp counted with ⟨other, known, rfl⟩
  exact (sound.tasks other known).pending_nonneg

theorem sum_charge (amount : Cost) (rest : Charging A) :
    (Charging.charge amount rest).sum = amount.value.toInt + rest.sum := by
  simp [Charging.sum, Charging.amounts]

theorem exact_step (sound : s.Sound) (exactly : s.Exact init)
    (covered : s.remaining ≤ s.shared.value.toInt) (stepped : s.step index = some t) :
    t.Exact init ∧ t.remaining ≤ t.shared.value.toInt ∧ s.shared.total ≤ t.shared.total := by
  have nonneg := exactly.nonneg
  have balanced := exactly.balanced
  have solvent := le_iff_toInt_le.mp sound.solvent
  have upper := init.value.toInt_lt
  rw [toInt_zero] at solvent
  rw [le_iff_toInt_le]
  rcases metered_step_cases sound stepped with
    ⟨amount, rest, present, locals, total, _, others, value⟩ |
    ⟨prev, amount, rest, present, locals, shared, added, others⟩
  · have sums := sums_of_set present locals
    have share := (share_le sound present).2
    have rest_nonneg := sum_nonneg others
    simp only [Task.pending, Task.remaining, sum_charge] at sums share
    rw [← total] at nonneg balanced ⊢
    exact ⟨⟨nonneg, by omega⟩, by omega, le_refl _⟩
  · have sums := sums_of_set present locals
    have share := (share_le sound present).1
    have shorter : (if prev < amount.value then Charging.done (.error .outOfPhlogistonsError)
        else rest).sum ≤ rest.sum := by
      split_ifs
      · exact sum_nonneg others
      · exact le_refl _
    simp only [Task.pending, Task.remaining] at sums share
    have total := to_int_fetch_add nonneg added (by omega)
    rw [← shared] at total
    have value : t.shared.value = s.shared.value := by rw [shared]; rfl
    rw [le_iff_toInt_le, toInt_zero] at added
    rw [← value] at balanced covered solvent
    exact ⟨⟨by omega, by omega⟩, by omega, by omega⟩

/-- Where the total is always exact no charge fails, and every charge gets into it. -/
structure Metered.Charged (sum : Int) (s : Metered A) : Prop extends Sound s where
  paid : ∀ prev amount rest, .updated prev amount rest ∈ s.locals → amount.value ≤ prev
  sums : s.shared.total.toInt + s.pending + s.remaining = sum

theorem charged_step {sum : Int} (charged : s.Charged sum) (before : s.Exact init)
    (after : t.Exact init) (stepped : s.step index = some t) : t.Charged sum := by
  have sound := sound_step charged.toSound stepped
  have known := charged.sums
  have balance := before.balanced
  have balanced := after.balanced
  rcases metered_step_cases charged.toSound stepped with
    ⟨amount, rest, present, locals, total, _, _, value⟩ |
    ⟨prev, amount, rest, present, locals, shared, _, _⟩
  · have sums := sums_of_set present locals
    simp only [Task.pending, Task.remaining, sum_charge] at sums
    rw [total] at balanced
    have paid : amount.value ≤ s.shared.value := by
      rw [Int64.le_iff_toInt_le]
      omega
    refine ⟨sound, fun prev other others mem => ?_, by rw [total]; omega⟩
    rw [locals] at mem
    rcases mem_or_eq_of_mem_set mem with old | new
    · exact charged.paid prev other others old
    · cases new
      exact paid
  · have paid := charged.paid prev amount rest (mem_of_getElem? present)
    rw [if_neg (Int64.not_lt.mpr paid)] at locals
    have sums := sums_of_set present locals
    simp only [Task.pending, Task.remaining] at sums
    have value : t.shared.value = s.shared.value := by rw [shared]; rfl
    rw [value] at balanced
    refine ⟨sound, fun prev other others mem => ?_, by omega⟩
    rw [locals] at mem
    rcases mem_or_eq_of_mem_set mem with old | new
    · exact charged.paid prev other others old
    · cases new

def Task.size : Task A → Nat
  | .ready rest => 2 * rest.amounts.length
  | .updated _ _ rest => 2 * rest.amounts.length + 1

theorem size_lt_of_move {next : CostAccounting} (moved : cell.move old = some (new, next)) :
    new.size < old.size := by
  cases old with
  | ready rest =>
    cases rest with
    | done => cases moved
    | charge =>
      simp only [CostAccounting.move] at moved
      split at moved
      · cases moved
        simp only [Task.size, Charging.amounts, length_cons]
        omega
      · cases moved
        simp [Task.size, Charging.amounts]
  | updated prev amount =>
    cases moved
    cases chargeResult prev amount.value <;> simp [Charging.resume, Task.size, Charging.amounts]

theorem idle_of_move (ended : cell.move task = none) : task.pending = 0 ∧ task.remaining = 0 := by
  cases task with
  | ready rest =>
    cases rest with
    | done => exact ⟨rfl, rfl⟩
    | charge =>
      simp only [CostAccounting.move] at ended
      split at ended <;> cases ended
  | updated => cases ended

theorem exists_idle (s : Metered A) : ∃ t : Metered A, s.Reaches t ∧ t.pending = 0 ∧
    t.remaining = 0 := by
  have smaller : ∀ (cell : CostAccounting) (old new : Task A) (next : CostAccounting),
      cell.move old = some (new, next) → new.size < old.size :=
    fun _ _ _ _ => size_lt_of_move
  rcases exists_finished Task.size smaller s with ⟨t, reached, finished⟩
  refine ⟨t, reached, ?_, ?_⟩
  · apply sum_eq_zero
    intro _ mem
    rcases mem_map.mp mem with ⟨task, known, rfl⟩
    exact (idle_of_move (finished task known)).1
  · apply sum_eq_zero
    intro _ mem
    rcases mem_map.mp mem with ⟨task, known, rfl⟩
    exact (idle_of_move (finished task known)).2

theorem start_sound (solvent : 0 ≤ init.value) (nonneg : ∀ task ∈ tasks, task.NonNegative) :
    (Metered.start (.fromInitial init) tasks).Sound := by
  refine ⟨solvent, fun task mem => ?_⟩
  rcases mem_map.mp mem with ⟨rest, started, rfl⟩
  exact nonneg rest started

theorem start_sums (init : Cost) (tasks : List (Charging A)) :
    (Metered.start (.fromInitial init) tasks).pending = 0 ∧
      (Metered.start (.fromInitial init) tasks).remaining = (tasks.map Charging.sum).sum := by
  simp only [Metered.start, Metered.pending, Metered.remaining, List.map_map]
  constructor
  · apply sum_eq_zero
    intro _ mem
    rcases List.mem_map.mp mem with ⟨_, _, rfl⟩
    rfl
  · rfl

theorem start_exact (init : Cost) (tasks : List (Charging A)) :
    (Metered.start (.fromInitial init) tasks).Exact init := by
  constructor
  · exact le_refl 0
  · rw [(start_sums init tasks).1]
    simp [Metered.start, CostAccounting.fromInitial]

theorem covered_of_reaches (solvent : 0 ≤ init.value) (nonneg : ∀ task ∈ tasks, task.NonNegative)
    (covered : (tasks.map Charging.sum).sum ≤ init.value.toInt)
    (reached : (Metered.start (.fromInitial init) tasks).Reaches s) :
    s.Sound ∧ s.Exact init ∧ s.remaining ≤ s.shared.value.toInt := by
  apply invariant_of_reaches _ _ reached
  · intro _ _ _ known stepped
    have exactly := exact_step known.1 known.2.1 known.2.2 stepped
    exact ⟨sound_step known.1 stepped, exactly.1, exactly.2.1⟩
  · refine ⟨start_sound solvent nonneg, start_exact init tasks, ?_⟩
    rw [(start_sums init tasks).2]
    exact covered

/-- Where the total is exact in every interleaving, one that runs all tasks to their ends has
charged everything to the balance. -/
theorem covered_of_exact (solvent : 0 ≤ init.value) (nonneg : ∀ task ∈ tasks, task.NonNegative)
    (exactly : ∀ s, (Metered.start (.fromInitial init) tasks).Reaches s → s.Exact init) :
    (tasks.map Charging.sum).sum ≤ init.value.toInt := by
  have sums := start_sums init tasks
  have initially : (Metered.start (.fromInitial init) tasks).Charged
      (tasks.map Charging.sum).sum := by
    refine ⟨start_sound solvent nonneg, fun prev amount rest mem => ?_, ?_⟩
    · rcases mem_map.mp mem with ⟨_, _, same⟩
      cases same
    · rw [sums.1, sums.2]
      simp [Metered.start, CostAccounting.fromInitial]
  rcases exists_idle (Metered.start (.fromInitial init) tasks) with
    ⟨t, reached, _, _⟩
  have charged : (Metered.start (.fromInitial init) tasks).Reaches t ∧
      t.Charged (tasks.map Charging.sum).sum := by
    apply invariant_of_reaches _ ⟨.refl, initially⟩ reached
    intro s t index known stepped
    have next := known.1.tail ⟨index, stepped⟩
    exact ⟨next, charged_step known.2 (exactly s known.1) (exactly t next) stepped⟩
  have total := charged.2.sums
  have balanced := (exactly t reached).balanced
  have left := le_iff_toInt_le.mp charged.2.solvent
  rw [toInt_zero] at left
  omega

/-- In every interleaving of charges the balance stays non-negative and a charge fails exactly when
its amount exceeds the balance it finds. The total is always what the balance has lost exactly when
the initial balance covers all charges: a charge that fails is added in full. -/
theorem cost_accounted_iff {tasks : List (Charging A)} (solvent : 0 ≤ init.value)
    (nonneg : ∀ task ∈ tasks, task.NonNegative) :
    (∀ s, (Metered.start (.fromInitial init) tasks).Reaches s → 0 ≤ s.shared.value ∧
      ∀ prev amount rest, .updated prev amount rest ∈ s.locals →
        (chargeResult prev amount.value = .error .outOfPhlogistonsError ↔ prev < amount.value)) ∧
    ((∀ s, (Metered.start (.fromInitial init) tasks).Reaches s → s.Accounted init) ↔
      (tasks.map Charging.sum).sum ≤ init.value.toInt) := by
  refine ⟨fun s reached => ?_, fun accounted => ?_, fun covered s reached => ?_⟩
  · have sound := invariant_of_reaches sound_step (start_sound solvent nonneg) reached
    refine ⟨sound.solvent, fun prev amount rest member => ?_⟩
    have known := sound.tasks _ member
    rw [charge_result_eq known.1 known.2.1]
    simp
  · exact covered_of_exact solvent nonneg fun s reached => (accounted s reached).toExact
  · rcases covered_of_reaches solvent nonneg covered reached with ⟨sound, exactly, left⟩
    have nonneg := exactly.nonneg
    have bound : s.shared.total.toInt ≤ init.value.toInt := by
      have taken := pending_nonneg sound
      have balance := Int64.le_iff_toInt_le.mp sound.solvent
      rw [Int64.toInt_zero] at balance
      have balanced := exactly.balanced
      omega
    refine ⟨exactly, fun index t stepped => (exact_step sound exactly left stepped).2.2, ?_⟩
    change 0 ≤ s.shared.total - 0 ∧ s.shared.total - 0 ≤ init.value
    rw [Int64.sub_zero, Int64.le_iff_toInt_le, Int64.le_iff_toInt_le, Int64.toInt_zero]
    exact ⟨nonneg, bound⟩

/-- Two tasks that charge 4 and 5 of a balance of 10. -/
theorem nine_of_ten_accounted :
    let tasks : List (Charging Unit) :=
      [.charge ⟨4, "send"⟩ (.done (.ok ())), .charge ⟨5, "receive"⟩ (.done (.ok ()))]
    (tasks.map Charging.sum).sum = 9 ∧
      ∀ s, (Metered.start (.fromInitial ⟨10, "phlo"⟩) tasks).Reaches s →
        s.Accounted ⟨10, "phlo"⟩ := by
  intro tasks
  have nonneg : ∀ task ∈ tasks, task.NonNegative := by
    intro task _ amount _
    revert amount
    revert task
    decide
  exact ⟨by decide, (cost_accounted_iff (by decide) nonneg).2.mpr (by decide)⟩

/-- A task that charges 4 and then 7 of a balance of 10 is charged 11. -/
theorem failed_charge_exceeds_limit : ∃ s, (Metered.start (.fromInitial ⟨10, "phlo"⟩)
        [Charging.charge ⟨4, "send"⟩ (.charge ⟨7, "receive"⟩ (.done (.ok ())))]).Reaches s ∧
      s.shared = ⟨0, 11⟩ ∧ s.pending = 0 ∧
      s.locals = [.ready (.done (.error .outOfPhlogistonsError))] ∧
      (CostAccounting.evaluateCost (.fromInitial ⟨10, "phlo"⟩) s.shared).value = 11 := by
  refine ⟨⟨⟨0, 11⟩, [.ready (.done (.error .outOfPhlogistonsError))]⟩, ?_, rfl, rfl, rfl, rfl⟩
  exact reaches_of_run (show [0, 0, 0, 0].foldlM (Pool.step CostAccounting.move) _ = some _ from rfl)

end Interleavings

end RChain.Rholang
