import Mathlib.Data.List.Basic
import Mathlib.Logic.Relation

/-!
# Guarded runs

Runs of a deterministic transition function whose steps all meet a condition on the
state they start from, with the induction that carries an invariant along them, and runs
whose steps can be refused.
-/

namespace Runs

variable {State Action : Type*}

/-- Every action of the run meets the guard in the state it is taken from. -/
def Guarded (step : State → Action → State) (guard : State → Action → Prop) :
    List Action → State → Prop
  | [], _ => True
  | action :: actions, state => guard state action ∧ Guarded step guard actions (step state action)

instance decidableGuarded {step : State → Action → State} {guard : State → Action → Prop}
    [decidable : ∀ state action, Decidable (guard state action)] :
    ∀ (actions : List Action) (state : State), Decidable (Guarded step guard actions state)
  | [], _ => isTrue trivial
  | action :: actions, state =>
    have _tail : Decidable (Guarded step guard actions (step state action)) :=
      decidableGuarded actions (step state action)
    inferInstanceAs (Decidable (guard state action ∧ _))

variable {step : State → Action → State} {guard : State → Action → Prop} {Other : Type*}

theorem guarded_invariant (invariant : State → Prop)
    (preserved : ∀ state action, invariant state → guard state action →
      invariant (step state action)) (actions : List Action) (state : State)
    (initial : invariant state) (guarded : Guarded step guard actions state) :
    invariant (actions.foldl step state) := by
  induction actions generalizing state with
  | nil => exact initial
  | cons action _ ih =>
    exact ih (step state action) (preserved state action initial guarded.1) guarded.2

theorem guarded_always (always : ∀ state action, guard state action) (actions : List Action)
    (state : State) :
    Guarded step guard actions state := by
  induction actions generalizing state with
  | nil => trivial
  | cons action _ ih => exact ⟨always state action, ih (step state action)⟩

theorem guarded_map {source : State → Action → State} {target : Other → Action → Other}
    {image : Other → Action → Prop} (map : State → Other)
    (step : ∀ state action, target (map state) action = map (source state action))
    (guards : ∀ state action, guard state action → image (map state) action) (actions : List Action)
    (state : State) (guarded : Guarded source guard actions state) :
    Guarded target image actions (map state) := by
  induction actions generalizing state with
  | nil => trivial
  | cons action _ ih =>
    refine ⟨guards state action guarded.1, ?_⟩
    rw [step]
    exact ih (source state action) guarded.2

/-- The results of a run, in order, and the state it ends in. -/
def runAll {Result : Type*} (step : State → Action → Result × State) :
    List Action → State → List Result × State
  | [], state => ([], state)
  | action :: actions, state =>
    let (result, next) := step state action
    let (results, last) := runAll step actions next
    (result :: results, last)

theorem run_all_map {Result : Type*} {source : State → Action → Result × State}
    {target : Other → Action → Result × Other} (map : State → Other) (step : ∀ state action,
      target (map state) action = ((source state action).1, map (source state action).2))
    (actions : List Action) (state : State) :
    runAll target actions (map state) =
      ((runAll source actions state).1, map (runAll source actions state).2) := by
  induction actions generalizing state with
  | nil => rfl
  | cons _ _ ih => simp only [runAll, step, ih]

theorem reaches_of_schedule {step : State → Action → Option State} {s t : State}
    {schedule : List Action} (ran : schedule.foldlM step s = some t) :
    Relation.ReflTransGen (fun s t => ∃ action, step s action = some t) s t := by
  induction schedule generalizing s with
  | nil =>
    cases ran
    exact .refl
  | cons action _ ih =>
    obtain ⟨_, taken, rest⟩ := Option.bind_eq_some_iff.mp ran
    exact .head ⟨action, taken⟩ (ih rest)

end Runs
