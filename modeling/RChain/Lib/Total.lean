import Mathlib.Data.List.Forall2

/-!
# Total correctness of computations with state and errors

A computation yields a result from a state when it ends well there. The rule for lists is
for computations that only add to the state: what holds of the result of one element has to
last while the other elements are worked on.
-/

namespace Total

universe u

variable {State Error Value Other : Type u}

/-- The computation ends well from this state, with a value and a state as described. -/
def Yields (state : State) (x : StateT State (Except Error) Value) (post : Value → State → Prop) :
    Prop :=
  ∃ value next, x.run state = .ok (value, next) ∧ post value next

variable {state : State} {post : Value → State → Prop} {x : StateT State (Except Error) Value}

theorem yields_pure {value : Value} (holds : post value state) :
    Yields state (pure value : StateT State (Except Error) Value) post :=
  ⟨value, state, rfl, holds⟩

theorem Yields.weaken {weaker : Value → State → Prop} (yields : Yields state x post)
    (implied : ∀ value next, post value next → weaker value next) : Yields state x weaker := by
  obtain ⟨value, next, ran, holds⟩ := yields
  exact ⟨value, next, ran, implied value next holds⟩

theorem yields_bind {rest : Value → StateT State (Except Error) Other} {mid : Value → State → Prop}
    {post : Other → State → Prop} (first : Yields state x mid)
    (second : ∀ value next, mid value next → Yields next (rest value) post) :
    Yields state (x >>= rest) post := by
  obtain ⟨value, next, ran, holds⟩ := first
  obtain ⟨result, last, ended, done⟩ := second value next holds
  refine ⟨result, last, ?_, done⟩
  rw [StateT.run_bind, ran]
  exact ended

theorem yields_map {f : Value → Other} {post : Other → State → Prop}
    (yields : Yields state x fun value next => post (f value) next) :
    Yields state (f <$> x) post := by
  rw [map_eq_pure_bind]
  exact yields_bind yields fun value next holds => yields_pure holds

/-- Work on a list: each element keeps the invariant and only extends the state. -/
theorem yields_mapM (invariant : State → Prop) (extends_ : State → State → Prop)
    (post : Value → Other → State → Prop) (refl : ∀ state, extends_ state state)
    (trans : ∀ first second third, extends_ first second → extends_ second third →
      extends_ first third) {f : Value → StateT State (Except Error) Other}
    (lasting : ∀ item result first second, extends_ first second → post item result first →
      post item result second) (items : List Value) (holds : invariant state)
    (each : ∀ item ∈ items, ∀ mid, extends_ state mid → invariant mid →
      Yields mid (f item) fun result next =>
        extends_ mid next ∧ invariant next ∧ post item result next) :
    Yields state (items.mapM f) fun results next => extends_ state next ∧ invariant next ∧
      List.Forall₂ (fun item result => post item result next) items results := by
  induction items generalizing state with
  | nil => exact yields_pure ⟨refl state, holds, List.Forall₂.nil⟩
  | cons item _ ih =>
    rw [List.mapM_cons]
    refine yields_bind (each item List.mem_cons_self state (refl state) holds) ?_
    rintro _ _ ⟨extended, kept, here⟩
    refine yields_bind (ih kept fun other mem later further invariantLater =>
      each other (List.mem_cons_of_mem item mem) later (trans _ _ _ extended further)
        invariantLater) ?_
    rintro _ _ ⟨further, keptLast, rest⟩
    exact yields_pure ⟨trans _ _ _ extended further, keptLast,
      List.Forall₂.cons (lasting _ _ _ _ further here) rest⟩

end Total
