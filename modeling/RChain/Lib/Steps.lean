import Mathlib.Data.List.Forall2

/-!
# Steps of a machine that can fail

A step reads and writes a state and ends with a value or an error; the state is kept
in both cases. `Ensures` says that a step keeps an invariant of the state, whether it
fails or not, and that its value, if it ends with one, has a property. The rules follow
the combinators a program is written with.
-/

namespace Steps

open List

universe u

variable {Error State Value Other : Type u}

/-- Results are compared by evaluation. -/
instance decidableEqExcept [DecidableEq Error] [DecidableEq Value] : DecidableEq (Except Error Value)
  | .ok a, .ok b => decidable_of_iff (a = b) ⟨congrArg Except.ok, Except.ok.inj⟩
  | .error a, .error b => decidable_of_iff (a = b) ⟨congrArg Except.error, Except.error.inj⟩
  | .ok _, .error _ => isFalse (by simp)
  | .error _, .ok _ => isFalse (by simp)

variable {f : Value → Except Error Other} {result : Other} {values : List Value}
  {results : List Other} {value : Value} {state : State}

theorem bind_eq_ok {x : Except Error Value} :
    (x >>= f) = .ok result ↔ ∃ value, x = .ok value ∧ f value = .ok result := by
  cases x with
  | error =>
    constructor
    · intro impossible
      cases impossible
    · rintro ⟨_, impossible, _⟩
      cases impossible
  | ok value =>
    constructor
    · intro rest
      exact ⟨value, rfl, rest⟩
    · rintro ⟨_, equal, rest⟩
      cases equal
      exact rest

theorem bind_eq_pure {x : ExceptT Error Option Value} {f : Value → ExceptT Error Option Other} :
    (x >>= f) = pure result ↔ ∃ value, x = pure value ∧ f value = pure result := by
  constructor
  · intro ended
    rcases outcome : x.run with _ | e | value
    · rw [show x = ExceptT.mk none from outcome] at ended
      cases ended
    · rw [show x = ExceptT.mk (some (.error e)) from outcome] at ended
      cases ended
    · rw [show x = pure value from outcome] at ended ⊢
      exact ⟨value, rfl, ended⟩
  · rintro ⟨_, rfl, ended⟩
    rw [pure_bind, ended]

theorem pure_inj {left right : Value} (same : (pure left : ExceptT Error Option Value) = pure right) :
    left = right :=
  Except.ok.inj (Option.some.inj same)

theorem mapM_eq_ok (ended : values.mapM f = .ok results) :
    List.Forall₂ (fun value result => f value = .ok result) values results := by
  induction values generalizing results with
  | nil =>
    cases ended
    exact List.Forall₂.nil
  | cons _ _ ih =>
    rw [mapM_cons] at ended
    obtain ⟨_, here, ended⟩ := bind_eq_ok.mp ended
    obtain ⟨_, rest, ended⟩ := bind_eq_ok.mp ended
    cases ended
    exact List.Forall₂.cons here (ih rest)

theorem mapM_congr {g : Value → Except Error Other} (same : ∀ value ∈ values, f value = g value) :
    values.mapM f = values.mapM g := by
  induction values with
  | nil => rfl
  | cons value _ ih =>
    rw [mapM_cons, mapM_cons, same value mem_cons_self,
      ih fun other mem => same other (mem_cons_of_mem value mem)]

theorem filterMap_of_forall₂ {f : Value → Option Other}
    (each : List.Forall₂ (fun value result => f value = some result) values results) :
    values.filterMap f = results := by
  induction each with
  | nil => rfl
  | cons here _ ih => rw [filterMap_cons_some here, ih]

theorem mapM_ok_eq_filterMap (ended : values.mapM f = .ok results) :
    results = values.filterMap fun value => (f value).toOption := by
  refine (filterMap_of_forall₂ ((mapM_eq_ok ended).imp fun _ _ here => ?_)).symm
  rw [here, Except.toOption]

theorem exists_of_forall₂ {related : Value → Other → Prop}
    (each : List.Forall₂ related values results) (mem : value ∈ values) :
    ∃ result ∈ results, related value result := by
  induction each with
  | nil => cases mem
  | @cons first result values results here _ ih =>
    rcases mem_cons.mp mem with rfl | later
    · exact ⟨result, mem_cons_self, here⟩
    · obtain ⟨other, among, found⟩ := ih later
      exact ⟨other, mem_cons_of_mem result among, found⟩

section Options

variable {f g : Value → Option Other}

theorem mapM_eq_some_iff : values.mapM f = some results ↔
    List.Forall₂ (fun value result => f value = some result) values results := by
  induction values generalizing results with
  | nil => simp [eq_comm]
  | cons _ _ ih =>
    simp [mapM_cons, Option.bind_eq_some_iff, ih, forall₂_cons_left_iff, @eq_comm _ results]

theorem mapM_some_of_grows (grows : ∀ value ∈ values, ∀ x, f value = some x → g value = some x)
    (found : values.mapM f = some results) : values.mapM g = some results := by
  rw [mapM_eq_some_iff] at found ⊢
  induction found with
  | nil => exact .nil
  | cons here _ ih =>
    exact .cons (grows _ mem_cons_self _ here) (ih fun x mem => grows x (mem_cons_of_mem _ mem))

theorem mapM_some_mem (found : values.mapM f = some results) (mem : value ∈ values) :
    ∃ x ∈ results, f value = some x :=
  exists_of_forall₂ (mapM_eq_some_iff.mp found) mem

theorem mapM_some_mem_iff (found : values.mapM f = some results) :
    result ∈ results ↔ ∃ value ∈ values, f value = some result := by
  rw [← filterMap_of_forall₂ (mapM_eq_some_iff.mp found), mem_filterMap]

end Options

abbrev Step (Error State Value : Type u) := ExceptT Error (StateM State) Value

theorem run_bind (step : Step Error State Value) (rest : Value → Step Error State Other)
    (state : State) :
    (step >>= rest) state =
      match step state with
      | (.ok value, next) => rest value next
      | (.error e, next) => (.error e, next) := by
  change StateT.bind step (ExceptT.bindCont rest) state = _
  unfold StateT.bind
  rcases step state with ⟨outcome, _⟩
  cases outcome with
  | error | ok => rfl

variable {step : Step Error State Value} {rest : Value → Step Error State Other}

theorem run_bind_ok {final : State} (ended : (step >>= rest) state = (.ok result, final)) :
    ∃ value next, step state = (.ok value, next) ∧ rest value next = (.ok result, final) := by
  rw [run_bind] at ended
  rcases stepped : step state with ⟨outcome, next⟩
  rw [stepped] at ended
  cases outcome with
  | error => cases ended
  | ok value => exact ⟨value, next, rfl, ended⟩

def Ensures (invariant : State → Prop) (step : Step Error State Value) (post : Value → Prop) :
    Prop :=
  ∀ state, invariant state →
    invariant (step state).2 ∧ ∀ value, (step state).1 = .ok value → post value

/-- The step keeps the invariant; nothing is said about its value. -/
abbrev Keeps (invariant : State → Prop) (step : Step Error State Value) : Prop :=
  Ensures invariant step fun _ => True

variable {invariant : State → Prop} {post : Value → Prop} {after : Other → Prop}

theorem keeps_nothing (step : Step Error State Value) : Keeps (fun _ => True) step :=
  fun _ _ => ⟨trivial, fun _ _ => trivial⟩

theorem ensures_pure (holds : post value) :
    Ensures invariant (pure value : Step Error State Value) post := by
  intro _ kept
  refine ⟨kept, fun other same => ?_⟩
  rw [← Except.ok.inj same]
  exact holds

theorem ensures_throw (error : Error) :
    Ensures invariant (throw error : Step Error State Value) post := by
  intro _ kept
  refine ⟨kept, fun other same => ?_⟩
  cases same

theorem ensures_bind (first : Ensures invariant step post)
    (second : ∀ value, post value → Ensures invariant (rest value) after) :
    Ensures invariant (step >>= rest) after := by
  intro state holds
  have kept := first state holds
  rw [run_bind]
  rcases stepped : step state with ⟨outcome, next⟩
  rw [stepped] at kept
  cases outcome with
  | error =>
    refine ⟨kept.1, fun other same => ?_⟩
    cases same
  | ok value => exact second value (kept.2 value rfl) next kept.1

theorem keeps_bind (first : Keeps invariant step)
    (second : ∀ value, Ensures invariant (rest value) after) :
    Ensures invariant (step >>= rest) after :=
  ensures_bind first fun value _ => second value

theorem ensures_get_bind {rest : State → Step Error State Value}
    (ensured : ∀ state, invariant state → Ensures invariant (rest state) post) :
    Ensures invariant ((get : Step Error State State) >>= rest) post :=
  fun state holds => ensured state holds state holds

theorem keeps_set (holds : invariant state) :
    Keeps invariant (set state : Step Error State PUnit) :=
  fun _ _ => ⟨holds, fun _ _ => trivial⟩

theorem keeps_modify {change : State → State}
    (kept : ∀ state, invariant state → invariant (change state)) :
    Keeps invariant (modify change : Step Error State PUnit) :=
  fun state holds => ⟨kept state holds, fun _ _ => trivial⟩

end Steps
