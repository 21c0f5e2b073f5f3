import Mathlib.Algebra.BigOperators.Group.List.Basic
import RChain.Lib.Runs

/-!
# Threads over one shared state

Local states that take turns at steps on a state they share. A step of one thread changes its
own local state and the shared one. Facts about all interleavings are proved by the step rule,
sums over the threads by `sum_set`, and `exists_finished` runs every thread to its end.
-/

namespace Threads

open Relation List Option

variable {Shared Local : Type*}

/-- A shared state and the local states of all threads. -/
structure Pool (Shared Local : Type*) where
  shared : Shared
  locals : List Local

/-- The step of the thread with the given index; `none` if it has no step. -/
def Pool.step (move : Shared → Local → Option (Local × Shared)) (pool : Pool Shared Local)
    (index : Nat) : Option (Pool Shared Local) :=
  (pool.locals[index]?).bind fun old =>
    (move pool.shared old).map fun (new, shared) => ⟨shared, pool.locals.set index new⟩

/-- Some interleaving of steps leads from one pool to the other. -/
abbrev Reaches (move : Shared → Local → Option (Local × Shared)) :
    Pool Shared Local → Pool Shared Local → Prop :=
  ReflTransGen fun s t => ∃ index, s.step move index = some t

variable {move : Shared → Local → Option (Local × Shared)} {s t : Pool Shared Local} {index : Nat}

theorem step_iff : s.step move index = some t ↔
    ∃ old new shared, s.locals[index]? = some old ∧ move s.shared old = some (new, shared) ∧
      t = ⟨shared, s.locals.set index new⟩ := by
  constructor
  · intro stepped
    obtain ⟨old, present, rest⟩ := bind_eq_some_iff.mp stepped
    obtain ⟨⟨new, shared⟩, moved, same⟩ := map_eq_some_iff.mp rest
    exact ⟨old, new, shared, present, moved, same.symm⟩
  · rintro ⟨_, _, _, present, moved, rfl⟩
    simp only [Pool.step, present, bind_some, moved, map_some]

theorem reaches_of_run {schedule : List Nat}
    (ran : schedule.foldlM (Pool.step move) s = some t) : Reaches move s t :=
  Runs.reaches_of_schedule ran

theorem invariant_of_reaches {invariant : Pool Shared Local → Prop}
    (kept : ∀ {s t index}, invariant s → s.step move index = some t → invariant t)
    (initial : invariant s) (reached : Reaches move s t) : invariant t := by
  induction reached with
  | refl => exact initial
  | tail _ stepped ih =>
    obtain ⟨_, taken⟩ := stepped
    exact kept ih taken

theorem sum_set {M : Type*} [AddCommMonoid M] (value : Local → M) {locals : List Local}
    {old : Local} (new : Local) (present : locals[index]? = some old) :
    ((locals.set index new).map value).sum + value old = (locals.map value).sum + value new := by
  induction locals generalizing index with
  | nil => simp at present
  | cons _ _ ih =>
    cases index with
    | zero =>
      rw [getElem?_cons_zero, some.injEq] at present
      subst present
      simp only [set_cons_zero, map_cons, sum_cons]
      ac_rfl
    | succ =>
      rw [getElem?_cons_succ] at present
      simp only [set_cons_succ, map_cons, sum_cons, add_assoc, ih present]

theorem forall_set {property : Local → Prop} {locals : List Local} {new : Local}
    (others : ∀ thread ∈ locals, property thread) (replaced : property new) :
    ∀ thread ∈ locals.set index new, property thread := by
  intro thread mem
  rcases mem_or_eq_of_mem_set mem with old | rfl
  · exact others thread old
  · exact replaced

theorem exists_finished (size : Local → Nat)
    (smaller : ∀ shared old new next, move shared old = some (new, next) → size new < size old)
    (s : Pool Shared Local) :
    ∃ t, Reaches move s t ∧ ∀ thread ∈ t.locals, move t.shared thread = none := by
  induction count : (s.locals.map size).sum using Nat.strongRecOn generalizing s with
  | ind bound ih =>
    by_cases finished : ∀ thread ∈ s.locals, move s.shared thread = none
    · exact ⟨s, .refl, finished⟩
    · push Not at finished
      obtain ⟨old, mem, moves⟩ := finished
      obtain ⟨⟨new, shared⟩, moved⟩ := ne_none_iff_exists'.mp moves
      obtain ⟨index, present⟩ := getElem?_of_mem mem
      have shrunk := smaller _ _ _ _ moved
      have stepped : s.step move index = some ⟨shared, s.locals.set index new⟩ :=
        step_iff.mpr ⟨old, new, shared, present, moved, rfl⟩
      have sums := sum_set size new present
      have fewer : ((s.locals.set index new).map size).sum < bound := by omega
      obtain ⟨t, reached, done⟩ := ih _ fewer ⟨shared, s.locals.set index new⟩ rfl
      exact ⟨t, .head ⟨index, stepped⟩ reached, done⟩

end Threads
