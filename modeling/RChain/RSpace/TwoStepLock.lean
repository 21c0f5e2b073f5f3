import Mathlib.Data.Sum.Order
import Mathlib.Order.Interval.Finset.Nat
import RChain.RSpace.MultiLock

/-!
# The lock in two steps

A task acquires a first set of keys, computes a second set while it holds the first, and runs its
protected section when it holds both. Each set is taken from a table of its own in the order of
its keys, so the tasks cannot all wait for each other.
-/

namespace RChain.Concurrent

open LockOrder Relation List Function Option

/-- How far a call of `acquire` of the two-step lock is: the call for the keys of the first phase
and, once the keys of the second phase are known, the call for those that it runs inside. -/
structure TwoStep (K : Type) where
  outer : Acquire K
  inner : Option (Acquire K)

/-- The two tables, the data that the protected sections read and write, and the calls. -/
structure TwoStepSystem (K Task World : Type) where
  phaseA : MultiLock K Task
  phaseB : MultiLock K Task
  world : World
  calls : Task → TwoStep K

/-- What the calls do under their locks: `phaseTwo` computes the second keys, or fails, under the
first ones; `thunk` runs under both. -/
structure Sections (K Task World Error : Type) where
  phaseTwo : Task → World → Except Error (List K) × World
  thunk : Task → World → World

section Steps

variable {K Task World Error : Type} [LinearOrder K] [DecidableEq Task]

def TwoStepSystem.start (a b : LockMap K) (world : World) (keys : Task → List K) :
    TwoStepSystem K Task World where
  phaseA := { a with owner := fun _ => none }
  phaseB := { b with owner := fun _ => none }
  world := world
  calls task := ⟨acquire (keys task), none⟩

def TwoStepSystem.setCall (s : TwoStepSystem K Task World) (task : Task) (call : TwoStep K) :
    TwoStepSystem K Task World :=
  { s with calls := Function.update s.calls task call }

/-- One step of a task; `none` if it waits for a mutex or has returned. -/
def TwoStepSystem.step (sections : Sections K Task World Error) (s : TwoStepSystem K Task World)
    (task : Task) : Option (TwoStepSystem K Task World) :=
  match s.calls task with
  | ⟨.run guards, none⟩ =>
    match sections.phaseTwo task s.world with
    | (.error _, world) => some ({ s with world }.setCall task ⟨.drop guards, none⟩)
    | (.ok keys, world) =>
      some ({ s with world }.setCall task ⟨.run guards, some (acquire keys)⟩)
  | ⟨.run guards, some .done⟩ => some (s.setCall task ⟨.drop guards, some .done⟩)
  | ⟨.run guards, some (.run held)⟩ =>
    some ({ s with world := sections.thunk task s.world }.setCall task
      ⟨.run guards, some (.drop held)⟩)
  | ⟨.run guards, some inner⟩ =>
    (s.phaseB.step task inner).map fun (inner, phaseB) =>
      { s with phaseB }.setCall task ⟨.run guards, some inner⟩
  | ⟨outer, inner⟩ =>
    (s.phaseA.step task outer).map fun (outer, phaseA) =>
      { s with phaseA }.setCall task ⟨outer, inner⟩

def TwoStepSystem.run (sections : Sections K Task World Error) (s : TwoStepSystem K Task World)
    (schedule : List Task) : Option (TwoStepSystem K Task World) :=
  schedule.foldlM (TwoStepSystem.step sections) s

/-- Some interleaving of the steps of the tasks leads from one state to the other. -/
abbrev TwoStepSystem.Reaches (sections : Sections K Task World Error) :
    TwoStepSystem K Task World → TwoStepSystem K Task World → Prop :=
  ReflTransGen fun s t => ∃ task, s.step sections task = some t

end Steps

section Order

variable {K Task : Type} [LinearOrder K] {rank other : Nat → WithBot K} {created later : Nat}
  {call : Acquire K}

/-- The mutexes of a call ascend in the order of their keys, and so do those it still looks up. -/
def Acquire.Ascending (rank : Nat → WithBot K) (created : Nat) : Acquire K → Prop
  | .lookUp arcs keys =>
    (arcs.map rank ++ keys.map WithBot.some).Pairwise (· < ·) ∧ ∀ arc ∈ arcs, arc < created
  | .insert arcs key keys =>
    (arcs.map rank ++ (key :: keys).map WithBot.some).Pairwise (· < ·) ∧ ∀ arc ∈ arcs, arc < created
  | .lock guards arcs =>
    ((guards ++ arcs).map rank).Pairwise (· < ·) ∧ ∀ arc ∈ guards ++ arcs, arc < created
  | .run guards => ∀ guard ∈ guards, guard < created
  | .drop guards => ∀ guard ∈ guards, guard < created
  | .done => True

theorem ascending_acquire (keys : List K) : (acquire keys).Ascending rank created :=
  ⟨(sorted_keys_ascending keys).map _ fun _ _ => WithBot.coe_lt_coe.mpr,
    fun _ mem => absurd mem not_mem_nil⟩

theorem ascending_mono (ascending : call.Ascending rank created) (grown : created ≤ later)
    (agree : ∀ lock < created, other lock = rank lock) : call.Ascending other later := by
  have same {arcs : List Nat} (within : ∀ arc ∈ arcs, arc < created) :
      arcs.map other = arcs.map rank :=
    map_congr_left fun arc mem => agree arc (within arc mem)
  have bound {arcs : List Nat} (within : ∀ arc ∈ arcs, arc < created) :
      ∀ arc ∈ arcs, arc < later := fun arc mem => (within arc mem).trans_le grown
  cases call with
  | lookUp | insert | lock => exact ⟨by rw [same ascending.2]; exact ascending.1, bound ascending.2⟩
  | run | drop => exact bound ascending
  | done => trivial

theorem guards_lt_created (ascending : call.Ascending rank created) :
    ∀ guard ∈ call.guards, guard < created := by
  cases call with
  | lock => exact fun guard mem => ascending.2 guard (mem_append_left _ mem)
  | run | drop => exact ascending
  | _ => exact fun guard mem => absurd mem not_mem_nil

theorem guards_lt_waiting {guards arcs : List Nat} {arc guard : Nat}
    (ascending : (Acquire.lock guards (arc :: arcs) : Acquire K).Ascending rank created)
    (mem : guard ∈ guards) : rank guard < rank arc := by
  have order := ascending.1
  rw [map_append, pairwise_append] at order
  exact order.2.2 _ (mem_map_of_mem mem) _ (by simp)

/-- Every mutex belongs to a key, and every call takes its mutexes in the order of their keys. -/
structure Ranked (rank : Nat → WithBot K) (m : MultiLock K Task) (calls : Task → Acquire K) : Prop where
  keyed : ∀ {key lock}, m.locks key = some lock → rank lock = key
  ascending : ∀ task, (calls task).Ascending rank m.created
  held : Held m.owner (Acquire.guards ∘ calls)

variable [DecidableEq Task] {m next : MultiLock K Task} {calls : Task → Acquire K} {task : Task}
  {after : Acquire K}

omit [DecidableEq Task] in
theorem ascending_step (keyed : ∀ {key lock}, m.locks key = some lock → rank lock = key)
    (ascending : call.Ascending rank m.created) (step : m.step task call = some (after, next)) :
    ∃ other : Nat → WithBot K, (∀ lock < m.created, other lock = rank lock) ∧
      (∀ {key lock}, next.locks key = some lock → other lock = key) ∧
      m.created ≤ next.created ∧ after.Ascending other next.created := by
  cases moves_of_step step with
  | looked =>
    exact ⟨rank, fun _ _ => rfl, keyed, le_rfl, by simpa using ascending.1,
      by simpa using ascending.2⟩
  | present _ _ _ lookup =>
    refine ⟨rank, fun _ _ => rfl, keyed, le_rfl, ?_, ?_⟩
    · rw [map_append, map_singleton, keyed lookup, append_assoc]
      exact ascending.1
    · intro arc mem
      rcases mem_append.mp mem with old | single
      · exact ascending.2 arc old
      · rw [mem_singleton.mp single]
        exact m.bounded lookup
  | inserted arcs key =>
    have older (lock : Nat) (old : lock < m.created) :
        update rank m.created key lock = rank lock := update_of_ne old.ne ..
    have same : arcs.map (update rank m.created key) = arcs.map rank :=
      map_congr_left fun arc mem => older arc (ascending.2 arc mem)
    refine ⟨update rank m.created key, older, ?_, Nat.le_succ _, ?_, ?_⟩
    · intro place lock mapped
      by_cases here : place = key
      · subst here
        rw [insert_locks_self, some.injEq] at mapped
        rw [← mapped, update_self]
      · rw [insert_locks_of_ne m here] at mapped
        rw [older lock (m.bounded mapped), keyed mapped]
    · rw [map_append, map_singleton, update_self, same, append_assoc]
      exact ascending.1
    · intro arc mem
      rcases mem_append.mp mem with old | single
      · exact (ascending.2 arc old).trans (Nat.lt_succ_self _)
      · rw [mem_singleton.mp single]
        exact Nat.lt_succ_self _
  | locked =>
    exact ⟨rank, fun _ _ => rfl, keyed, le_rfl, fun guard mem =>
      ascending.2 guard (mem_append_left _ mem)⟩
  | took guards arc arcs =>
    have same : guards ++ [arc] ++ arcs = guards ++ arc :: arcs := by simp
    exact ⟨rank, fun _ _ => rfl, keyed, le_rfl, same.symm ▸ ascending.1, same.symm ▸ ascending.2⟩
  | dropped => exact ⟨rank, fun _ _ => rfl, keyed, le_rfl, trivial⟩
  | released =>
    exact ⟨rank, fun _ _ => rfl, keyed, le_rfl, fun guard mem =>
      ascending guard (mem_cons_of_mem _ mem)⟩
  | _ => exact ⟨rank, fun _ _ => rfl, keyed, le_rfl, ascending⟩

theorem ranked_step (ranked : Ranked rank m calls)
    (step : m.step task (calls task) = some (after, next)) :
    ∃ other : Nat → WithBot K, Ranked other next (update calls task after) := by
  obtain ⟨other, agree, keyed, grown, ascends⟩ :=
    ascending_step ranked.keyed (ranked.ascending task) step
  refine ⟨other, keyed, fun holder => ?_, held_step ranked.held step⟩
  by_cases same : holder = task
  · subst same
    rw [update_self]
    exact ascends
  · rw [update_of_ne same]
    exact ascending_mono (ranked.ascending holder) grown agree

theorem ranked_replace (ranked : Ranked rank m calls) (guards : after.guards = (calls task).guards)
    (ascends : after.Ascending rank m.created) : Ranked rank m (update calls task after) := by
  refine ⟨ranked.keyed, fun holder => ?_, ?_⟩
  · by_cases same : holder = task
    · subst same
      rw [update_self]
      exact ascends
    · rw [update_of_ne same]
      exact ranked.ascending holder
  · rw [comp_update, guards]
    exact (update_eq_self task (Acquire.guards ∘ calls)).symm ▸ ranked.held

theorem ranked_same (ranked : Ranked rank m calls) (same : after = calls task) :
    Ranked rank m (update calls task after) := by
  rw [same, update_eq_self]
  exact ranked

open Classical in
omit [DecidableEq Task] in
theorem ranked_start (map : LockMap K) (quiet : ∀ task, (calls task).guards = [])
    (ascends : ∀ rank task, (calls task).Ascending rank map.created) :
    ∃ rank, Ranked rank { map with owner := fun _ => none } calls := by
  let rank (lock : Nat) : WithBot K :=
    if mapped : ∃ key, map.locks key = some lock then mapped.choose else ⊥
  refine ⟨rank, ?_, fun task => ascends rank task, ?_⟩
  · intro key lock found
    have mapped : ∃ key, map.locks key = some lock := ⟨key, found⟩
    have keyed : rank lock = mapped.choose := dif_pos mapped
    rw [keyed, map.injective mapped.choose_spec found]
  · have none : Acquire.guards ∘ calls = fun _ => [] := funext quiet
    rw [none]
    exact Held.initial

end Order

section Deadlock

variable {K Task World Error : Type} [LinearOrder K] [DecidableEq Task]
  {sections : Sections K Task World Error} {s t : TwoStepSystem K Task World} {task : Task}

/-- The call of the second phase; before its keys are known it is not there and holds nothing. -/
def TwoStep.second (call : TwoStep K) : Acquire K := call.inner.getD .done

omit [LinearOrder K] in
theorem outers_set_call (call : TwoStep K) : TwoStep.outer ∘ (s.setCall task call).calls =
    update (TwoStep.outer ∘ s.calls) task call.outer := comp_update ..

omit [LinearOrder K] in
theorem seconds_set_call (call : TwoStep K) : TwoStep.second ∘ (s.setCall task call).calls =
    update (TwoStep.second ∘ s.calls) task call.second := comp_update ..

theorem step_of_idle (idle : ¬ (s.calls task).outer.Running) : s.step sections task =
    (s.phaseA.step task (s.calls task).outer).map fun (outer, phaseA) =>
      { s with phaseA }.setCall task ⟨outer, (s.calls task).inner⟩ := by
  rw [TwoStepSystem.step]
  generalize s.calls task = call at idle
  obtain ⟨outer, _⟩ := call
  cases outer with
  | run guards => exact absurd ⟨guards, rfl⟩ idle
  | _ => rfl

theorem step_of_inner {guards : List Nat} {inner : Acquire K}
    (call : s.calls task = ⟨.run guards, some inner⟩) (idle : ¬ inner.Running)
    (unfinished : inner ≠ .done) : s.step sections task =
      (s.phaseB.step task inner).map fun (inner, phaseB) =>
        { s with phaseB }.setCall task ⟨.run guards, some inner⟩ := by
  rw [TwoStepSystem.step, call]
  cases inner with
  | run held => exact absurd ⟨held, rfl⟩ idle
  | done => exact absurd rfl unfinished
  | _ => rfl

omit [LinearOrder K] [DecidableEq Task] in
theorem running_call (runs : (s.calls task).outer.Running) :
    ∃ guards inner, s.calls task = ⟨.run guards, inner⟩ := by
  obtain ⟨guards, same⟩ := runs
  exact ⟨guards, (s.calls task).inner, by rw [← same]⟩

/-- What a step of a task can be: a step of its first call, a step of its second call, the start
of the second call, or the end of the thunk of the first. -/
theorem two_step_cases (step : s.step sections task = some t) :
    (∃ outer phaseA, ¬ (s.calls task).outer.Running ∧
      s.phaseA.step task (s.calls task).outer = some (outer, phaseA) ∧
      t = { s with phaseA }.setCall task ⟨outer, (s.calls task).inner⟩) ∨
    (∃ guards inner after phaseB world, s.calls task = ⟨.run guards, some inner⟩ ∧
      s.phaseB.step task inner = some (after, phaseB) ∧
      t = { s with phaseB, world }.setCall task ⟨.run guards, some after⟩) ∨
    (∃ guards keys world, s.calls task = ⟨.run guards, none⟩ ∧
      t = { s with world }.setCall task ⟨.run guards, some (acquire keys)⟩) ∨
    (∃ guards inner world, s.calls task = ⟨.run guards, inner⟩ ∧ inner.getD .done = .done ∧
      t = { s with world }.setCall task ⟨.drop guards, inner⟩) := by
  by_cases idle : ¬ (s.calls task).outer.Running
  · rw [step_of_idle idle] at step
    obtain ⟨⟨outer, phaseA⟩, moved, rfl⟩ := map_eq_some_iff.mp step
    exact .inl ⟨outer, phaseA, idle, moved, rfl⟩
  obtain ⟨guards, inner, call⟩ := running_call (not_not.mp idle)
  cases inner with
  | none =>
    simp only [TwoStepSystem.step, call] at step
    rcases computed : sections.phaseTwo task s.world with ⟨_ | keys, world⟩
    · rw [computed] at step
      exact .inr (.inr (.inr ⟨guards, none, world, call, rfl, (some.inj step).symm⟩))
    · rw [computed] at step
      exact .inr (.inr (.inl ⟨guards, keys, world, call, (some.inj step).symm⟩))
  | some inner =>
    by_cases ended : inner = .done
    · subst ended
      simp only [TwoStepSystem.step, call] at step
      exact .inr (.inr (.inr ⟨guards, some .done, s.world, call, rfl, (some.inj step).symm⟩))
    by_cases runs : inner.Running
    · obtain ⟨held, rfl⟩ := runs
      simp only [TwoStepSystem.step, call] at step
      exact .inr (.inl ⟨guards, .run held, .drop held, s.phaseB, sections.thunk task s.world,
        call, rfl, (some.inj step).symm⟩)
    · rw [step_of_inner call runs ended] at step
      obtain ⟨⟨after, phaseB⟩, moved, rfl⟩ := map_eq_some_iff.mp step
      exact .inr (.inl ⟨guards, inner, after, phaseB, s.world, call, moved, rfl⟩)

/-- Both tables are taken in the order of their keys, and the second only inside the first. -/
structure Layered (s : TwoStepSystem K Task World) : Prop where
  first : ∃ rank, Ranked rank s.phaseA (TwoStep.outer ∘ s.calls)
  second : ∃ rank, Ranked rank s.phaseB (TwoStep.second ∘ s.calls)
  nested : ∀ task, ¬ (s.calls task).outer.Running → (s.calls task).second.guards = []

omit [DecidableEq Task] in
theorem layered_start (a b : LockMap K) (world : World) (keys : Task → List K) :
    Layered (TwoStepSystem.start a b world keys) where
  first := ranked_start a (fun _ => rfl) fun _ _ => ascending_acquire _
  second := ranked_start b (fun _ => rfl) fun _ _ => trivial
  nested _ _ := rfl

theorem layered_step (layered : Layered s) (step : s.step sections task = some t) : Layered t := by
  obtain ⟨rankA, first⟩ := layered.first
  obtain ⟨rankB, second⟩ := layered.second
  have keepsNested {call : TwoStep K} (calls : t.calls = update s.calls task call)
      (empty : ¬ call.outer.Running → call.second.guards = []) (holder : Task)
      (idle : ¬ (t.calls holder).outer.Running) : (t.calls holder).second.guards = [] := by
    rw [calls] at idle ⊢
    by_cases same : holder = task
    · subst same
      rw [update_self] at idle ⊢
      exact empty idle
    · rw [update_of_ne same] at idle ⊢
      exact layered.nested holder idle
  rcases two_step_cases step with ⟨outer, phaseA, idle, moved, rfl⟩ |
      ⟨guards, inner, _, _, _, call, moved, rfl⟩ |
      ⟨guards, keys, _, call, rfl⟩ | ⟨guards, inner, _, call, ended, rfl⟩
  · constructor
    · rw [outers_set_call]
      exact ranked_step first moved
    · rw [seconds_set_call]
      exact ⟨rankB, ranked_same second rfl⟩
    · exact keepsNested rfl fun _ => layered.nested task idle
  · have running : (TwoStep.second ∘ s.calls) task = inner := by rw [comp_apply, call]; rfl
    constructor
    · rw [outers_set_call]
      exact ⟨rankA, ranked_same first (by rw [comp_apply, call])⟩
    · rw [seconds_set_call]
      rw [← running] at moved
      exact ranked_step second moved
    · exact keepsNested rfl fun idle => absurd ⟨guards, rfl⟩ idle
  · have absent : (TwoStep.second ∘ s.calls) task = .done := by rw [comp_apply, call]; rfl
    constructor
    · rw [outers_set_call]
      exact ⟨rankA, ranked_same first (by rw [comp_apply, call])⟩
    · rw [seconds_set_call]
      exact ⟨rankB, ranked_replace second (congrArg Acquire.guards absent).symm
        (ascending_acquire keys)⟩
    · exact keepsNested rfl fun idle => absurd ⟨guards, rfl⟩ idle
  · have running : (TwoStep.outer ∘ s.calls) task = .run guards := by rw [comp_apply, call]
    constructor
    · have moved : s.phaseA.step task ((TwoStep.outer ∘ s.calls) task) =
          some (.drop guards, s.phaseA) := by
        rw [running]
        rfl
      rw [outers_set_call]
      exact ranked_step first moved
    · rw [seconds_set_call]
      exact ⟨rankB, ranked_same second (by rw [comp_apply, call]; rfl)⟩
    · exact keepsNested rfl fun _ => congrArg Acquire.guards ended

theorem layered_reached {initial : TwoStepSystem K Task World} (layered : Layered initial)
    (reached : initial.Reaches sections s) : Layered s := by
  induction reached with
  | refl => exact layered
  | tail _ step ih =>
    obtain ⟨_, moved⟩ := step
    exact layered_step ih moved

/-- The task waits for a mutex of the first or of the second table. -/
def TwoStepSystem.Waits (s : TwoStepSystem K Task World) (task : Task) : Nat ⊕ Nat → Prop
  | .inl lock => ∃ guards arcs, (s.calls task).outer = .lock guards (lock :: arcs)
  | .inr lock => (s.calls task).outer.Running ∧
      ∃ guards arcs, (s.calls task).second = .lock guards (lock :: arcs)

def TwoStepSystem.owner (s : TwoStepSystem K Task World) : Nat ⊕ Nat → Option Task :=
  Sum.elim s.phaseA.owner s.phaseB.owner

theorem two_step_eq_none (stopped : s.step sections task = none) : (s.calls task).outer = .done ∨
    ∃ lock, s.Waits task lock ∧ s.owner lock ≠ none := by
  by_cases idle : ¬ (s.calls task).outer.Running
  · rw [step_of_idle idle, map_eq_none_iff] at stopped
    rcases step_eq_none stopped with ended | ⟨guards, arc, arcs, waits, taken⟩
    · exact .inl ended
    · exact .inr ⟨.inl arc, ⟨guards, arcs, waits⟩, taken⟩
  obtain ⟨_, inner, call⟩ := running_call (not_not.mp idle)
  cases inner with
  | none =>
    simp only [TwoStepSystem.step, call] at stopped
    split at stopped <;> cases stopped
  | some inner =>
    have unfinished : inner ≠ .done := by
      rintro rfl
      rw [TwoStepSystem.step, call] at stopped
      cases stopped
    have waiting : ¬ inner.Running := by
      rintro ⟨_, rfl⟩
      rw [TwoStepSystem.step, call] at stopped
      cases stopped
    rw [step_of_inner call waiting unfinished, map_eq_none_iff] at stopped
    obtain ⟨held, arc, arcs, waits, taken⟩ := (step_eq_none stopped).resolve_left unfinished
    exact .inr ⟨.inr arc, ⟨not_not.mp idle, held, arcs, by rw [call, waits]; rfl⟩, taken⟩

/-- The order in which a task takes mutexes: those of the first table, then those of the second,
in each by their keys. -/
def lockRank (rankA rankB : Nat → WithBot K) : Nat ⊕ Nat → WithBot K ⊕ₗ WithBot K :=
  Sum.elim (fun lock => toLex (.inl (rankA lock))) fun lock => toLex (.inr (rankB lock))

variable {rankA rankB : Nat → WithBot K}

section

variable (first : Ranked rankA s.phaseA (TwoStep.outer ∘ s.calls))
  (second : Ranked rankB s.phaseB (TwoStep.second ∘ s.calls))
include first second

omit [DecidableEq Task] in
theorem owned_finite :
    Set.Finite {lock | s.owner lock ≠ none} := by
  have bounded {rank : Nat → WithBot K} {m : MultiLock K Task} {calls : Task → Acquire K}
      (ranked : Ranked rank m calls) {lock : Nat} (owned : m.owner lock ≠ none) :
      lock < m.created := by
    obtain ⟨holder, owned⟩ := ne_none_iff_exists'.mp owned
    exact guards_lt_created (ranked.ascending holder) lock (ranked.held.owner_iff.mp owned)
  have finite := ((Set.finite_Iio s.phaseA.created).image Sum.inl).union
    ((Set.finite_Iio s.phaseB.created).image Sum.inr)
  apply finite.subset
  intro lock owned
  cases lock with
  | inl lock => exact .inl ⟨lock, bounded first owned, rfl⟩
  | inr lock => exact .inr ⟨lock, bounded second owned, rfl⟩

omit [DecidableEq Task] in
theorem waits_above (nested : ∀ task, ¬ (s.calls task).outer.Running → (s.calls task).second.guards = [])
    {lock other : Nat ⊕ Nat} (waits : s.Waits task lock) (owned : s.owner other = some task) :
    lockRank rankA rankB other < lockRank rankA rankB lock := by
  cases lock with
  | inl =>
    obtain ⟨guards, _, waiting⟩ := waits
    have ascending := first.ascending task
    rw [comp_apply, waiting] at ascending
    cases other with
    | inl other =>
      have mem : other ∈ (s.calls task).outer.guards := first.held.owner_iff.mp owned
      rw [waiting] at mem
      exact Sum.Lex.inl_lt_inl_iff.mpr (guards_lt_waiting ascending mem)
    | inr other =>
      have mem : other ∈ (s.calls task).second.guards := second.held.owner_iff.mp owned
      have idle : ¬ (s.calls task).outer.Running := by
        rintro ⟨_, running⟩
        rw [waiting] at running
        cases running
      rw [nested task idle] at mem
      cases mem
  | inr =>
    obtain ⟨_, guards, _, waiting⟩ := waits
    have ascending := second.ascending task
    rw [comp_apply, waiting] at ascending
    cases other with
    | inl => exact Sum.Lex.inl_lt_inr _ _
    | inr other =>
      have mem : other ∈ (s.calls task).second.guards := second.held.owner_iff.mp owned
      rw [waiting] at mem
      exact Sum.Lex.inr_lt_inr_iff.mpr (guards_lt_waiting ascending mem)

end

omit [DecidableEq Task] in
theorem done_owns_nothing (layered : Layered s) (ended : (s.calls task).outer = .done)
    (lock : Nat ⊕ Nat) : s.owner lock ≠ some task := by
  obtain ⟨_, first⟩ := layered.first
  obtain ⟨_, second⟩ := layered.second
  intro owned
  cases lock with
  | inl lock =>
    have mem : lock ∈ (s.calls task).outer.guards := first.held.owner_iff.mp owned
    rw [ended] at mem
    cases mem
  | inr lock =>
    have mem : lock ∈ (s.calls task).second.guards := second.held.owner_iff.mp owned
    have idle : ¬ (s.calls task).outer.Running := by
      rintro ⟨_, running⟩
      rw [ended] at running
      cases running
    rw [layered.nested task idle] at mem
    cases mem

theorem layered_moves (layered : Layered s) (unfinished : (s.calls task).outer ≠ .done) :
    ∃ other, (s.step sections other).isSome := by
  by_contra still
  obtain ⟨rankA, first⟩ := layered.first
  obtain ⟨rankB, second⟩ := layered.second
  have stopped (other : Task) : s.step sections other = none := by
    rw [← not_isSome_iff_eq_none]
    exact fun moves => still ⟨other, moves⟩
  have free := no_deadlock (lockRank rankA rankB) (owned_finite first second)
    (fun waits owned => waits_above first second layered.nested waits owned)
    fun {holder lock} owned => (two_step_eq_none (stopped holder)).resolve_left fun ended =>
      done_owns_nothing layered ended lock owned
  obtain ⟨lock, _, taken⟩ := (two_step_eq_none (stopped task)).resolve_left unfinished
  exact taken (free lock)

/-- In every interleaving of calls of the two-step `acquire`, whatever keys the second phase
computes, some task can take a step as long as one has not returned. -/
theorem two_step_deadlock_free (sections : Sections K Task World Error) (a b : LockMap K)
    (world : World) (keys : Task → List K) (s : TwoStepSystem K Task World)
    (reached : (TwoStepSystem.start a b world keys).Reaches sections s)
    (waiting : ∃ task, (s.calls task).outer ≠ .done) : ∃ task, (s.step sections task).isSome := by
  obtain ⟨_, unfinished⟩ := waiting
  exact layered_moves (layered_reached (layered_start a b world keys) reached) unfinished

/-- Both tasks want the keys 1 and 2, and the first has locked 1. The second waits for it, and the
first can go on. -/
theorem two_step_waiting_task :
    let sections : Sections Nat Bool Nat Unit :=
      ⟨fun _ world => (.ok [world], world), fun _ world => world + 1⟩
    ∃ s, (TwoStepSystem.start LockMap.new LockMap.new 0 fun _ : Bool => [2, 1]).run sections
        [false, false, false, false, false, false, true, true, true] = some s ∧
      (s.step sections true).isNone ∧ ∃ task, (s.step sections task).isSome := by
  intro sections
  have ran : ∃ s, (TwoStepSystem.start LockMap.new LockMap.new 0 fun _ : Bool => [2, 1]).run
      sections [false, false, false, false, false, false, true, true, true] = some s ∧
      (s.step sections true).isNone ∧ (s.calls true).outer = .lock [] [0, 1] := ⟨_, rfl, rfl, rfl⟩
  obtain ⟨s, schedule, blocked, waits⟩ := ran
  refine ⟨s, schedule, blocked, two_step_deadlock_free sections LockMap.new LockMap.new 0 _ s
    (Runs.reaches_of_schedule schedule) ⟨true, ?_⟩⟩
  rw [waits]
  simp

end Deadlock

end RChain.Concurrent
