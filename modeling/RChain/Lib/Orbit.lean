import Mathlib.Data.Set.Finite.Lemmas

/-!
# Orbits of a partial step

A deterministic step is repeated as long as it leads on. Among finitely many states the repetition
settles, at a state without a next one or at a state that is its own next one, exactly when no state
that was left is entered again.
-/

namespace Orbits

variable {State : Type*} (step : State → Option State) (start : State)

/-- The state after some steps, if there are that many. -/
def orbit : Nat → Option State
  | 0 => some start
  | n + 1 => (orbit n).bind step

/-- The step leads nowhere else. -/
def Rests (state : State) : Prop := ∀ next, step state = some next → next = state

def Settles : Prop := ∃ n state, orbit step start n = some state ∧ Rests step state

/-- A state that is seen again was not left in between. -/
def NeverReturns : Prop :=
  ∀ early late state, early < late → orbit step start early = some state →
    orbit step start late = some state → Rests step state

variable {step start} {state other : State} {early late : Nat}

theorem orbit_add (early more : Nat) :
    orbit step start (early + more) = (orbit step start early).bind fun state =>
      orbit step state more := by
  induction more with
  | zero => cases orbit step start early <;> rfl
  | succ more ih =>
    rw [← Nat.add_assoc, orbit, ih]
    cases orbit step start early <;> rfl

theorem orbit_rests (rests : Rests step state) {n : Nat} (found : orbit step state n = some other) :
    other = state := by
  induction n generalizing other with
  | zero => exact (Option.some.inj found).symm
  | succ n ih =>
    obtain ⟨middle, before, stepped⟩ := Option.bind_eq_some_iff.mp found
    rw [ih before] at stepped
    exact rests other stepped

/-- A state that is seen again is seen again at every later round. -/
theorem orbit_repeats {period : Nat} (again : orbit step state period = some state) (rounds : Nat) :
    orbit step state (rounds * period) = some state := by
  induction rounds with
  | zero => rw [Nat.zero_mul, orbit]
  | succ rounds ih => rw [Nat.succ_mul, orbit_add, ih, Option.bind_some, again]

theorem never_returns_of_settles (settles : Settles step start) : NeverReturns step start := by
  obtain ⟨n, last, reached, rests⟩ := settles
  intro early late state later first second
  obtain ⟨period, rfl⟩ := Nat.exists_eq_add_of_lt later
  rw [Nat.add_assoc, orbit_add, first, Option.bind_some] at second
  -- after enough rounds the state is seen where the orbit has settled
  have round : orbit step start (early + n * (period + 1)) = some state := by
    rw [orbit_add, first, Option.bind_some, orbit_repeats second]
  obtain ⟨more, enough⟩ := Nat.exists_eq_add_of_le
    ((Nat.le_mul_of_pos_right n (Nat.succ_pos period)).trans (Nat.le_add_left _ early))
  rw [enough, orbit_add, reached, Option.bind_some] at round
  rw [orbit_rests rests round]
  exact rests

/-- A measure that falls whenever the state changes. -/
theorem never_returns_of_measure (measure : State → Nat)
    (falls : ∀ n state next, orbit step start n = some state → step state = some next →
      next ≠ state → measure next < measure state) : NeverReturns step start := by
  have lasts {n more : Nat} {state other : State} (here : orbit step start n = some state)
      (later : orbit step start (n + more) = some other) : measure other ≤ measure state := by
    induction more generalizing other with
    | zero => rw [Option.some.inj (later.symm.trans here)]
    | succ more ih =>
      obtain ⟨middle, before, stepped⟩ := Option.bind_eq_some_iff.mp later
      by_cases stays : other = middle
      · exact stays ▸ ih before
      · exact (falls _ _ _ before stepped stays).le.trans (ih before)
  intro early late state later first second next stepped
  by_contra moves
  obtain ⟨more, rfl⟩ := Nat.exists_eq_add_of_lt later
  have after : orbit step start (early + 1) = some next := by
    rw [orbit, first]
    exact stepped
  rw [Nat.add_right_comm] at second
  exact absurd (falls early state next first stepped moves) (lasts after second).not_gt

theorem settles_of_never_returns (finite : {state | ∃ n, orbit step start n = some state}.Finite)
    (returns : NeverReturns step start) : Settles step start := by
  by_contra unsettled
  have goes (n : Nat) : ∃ state, orbit step start n = some state := by
    induction n with
    | zero => exact ⟨start, rfl⟩
    | succ n ih =>
      obtain ⟨state, found⟩ := ih
      by_contra stops
      refine unsettled ⟨n, state, found, fun next stepped => absurd ⟨next, ?_⟩ stops⟩
      rw [orbit, found, Option.bind_some, stepped]
  choose seen found using goes
  have within : Set.MapsTo seen Set.univ {state | ∃ n, orbit step start n = some state} :=
    fun n _ => ⟨n, found n⟩
  obtain ⟨early, _, late, _, differ, same⟩ :=
    Set.infinite_univ.exists_ne_map_eq_of_mapsTo within finite
  rcases lt_or_gt_of_ne differ with before | before
  · exact unsettled ⟨early, _, found early, returns early late _ before (found early)
      (same ▸ found late)⟩
  · exact unsettled ⟨late, _, found late, returns late early _ before (found late)
      (same ▸ found early)⟩

theorem settles_iff_never_returns
    (finite : {state | ∃ n, orbit step start n = some state}.Finite) :
    Settles step start ↔ NeverReturns step start :=
  ⟨never_returns_of_settles, settles_of_never_returns finite⟩

end Orbits
