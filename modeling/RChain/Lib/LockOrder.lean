import Mathlib.Order.Preorder.Finite

/-!
# Locks, their owners and their order

Tasks hold locks, each lock has at most one owner. Where every task takes its locks in the order
of a rank, the owners of locks cannot all wait for locks that are taken.
-/

namespace LockOrder

variable {Lock Task Rank : Type*}

/-- The owners of the locks and the lists of the locks that the tasks hold agree. -/
structure Held (owner : Lock → Option Task) (held : Task → List Lock) : Prop where
  owner_iff : ∀ {lock task}, owner lock = some task ↔ lock ∈ held task
  nodup : ∀ task, (held task).Nodup

namespace Held

variable {owner : Lock → Option Task} {held : Task → List Lock} {lock : Lock} {task : Task}

theorem initial : Held (fun _ : Lock => (none : Option Task)) fun _ => [] where
  owner_iff := by simp
  nodup _ := List.nodup_nil

variable [DecidableEq Lock] [DecidableEq Task]

theorem take (agree : Held owner held) (task : Task) (free : owner lock = none) :
    Held (Function.update owner lock (some task))
      (Function.update held task (held task ++ [lock])) := by
  have unheld (other : Task) : lock ∉ held other := by
    intro mem
    rw [← agree.owner_iff, free] at mem
    cases mem
  constructor
  · intro other holder
    by_cases here : other = lock
    · subst here
      by_cases taker : holder = task
      · subst taker
        simp
      · simp [taker, Ne.symm taker, unheld]
    · by_cases taker : holder = task
      · subst taker
        simp [here, agree.owner_iff]
      · simp [here, taker, agree.owner_iff]
  · intro holder
    by_cases taker : holder = task
    · subst taker
      simpa using (List.nodup_middle.mpr (by simpa using ⟨unheld holder, agree.nodup holder⟩) :
        (held holder ++ [lock]).Nodup)
    · simpa [taker] using agree.nodup holder

theorem release {rest : List Lock} (agree : Held owner held) (first : held task = lock :: rest) :
    Held (Function.update owner lock none) (Function.update held task rest) := by
  have distinct := agree.nodup task
  rw [first] at distinct
  obtain ⟨absent, nodup⟩ := List.nodup_cons.mp distinct
  have owned : owner lock = some task := agree.owner_iff.mpr (by simp [first])
  constructor
  · intro other holder
    by_cases here : other = lock
    · subst here
      by_cases taker : holder = task
      · subst taker
        simp [absent]
      · have unheld : other ∉ held holder := by
          intro mem
          rw [← agree.owner_iff, owned, Option.some.injEq] at mem
          exact taker mem.symm
        simp [taker, unheld]
    · by_cases taker : holder = task
      · subst taker
        simp [here, agree.owner_iff, first]
      · simp [here, taker, agree.owner_iff]
  · intro holder
    by_cases taker : holder = task
    · subst taker
      simpa using nodup
    · simpa [taker] using agree.nodup holder

end Held

/-- If every owner of a lock waits for a taken lock, and only for locks that rank above those it
owns, then no lock is taken. -/
theorem no_deadlock [PartialOrder Rank] {owner : Lock → Option Task} {waits : Task → Lock → Prop}
    (rank : Lock → Rank) (finite : Set.Finite {lock | owner lock ≠ none})
    (ascending : ∀ {task lock other}, waits task lock → owner other = some task →
      rank other < rank lock)
    (stuck : ∀ {task lock}, owner lock = some task → ∃ other, waits task other ∧ owner other ≠ none)
    (lock : Lock) : owner lock = none := by
  by_contra taken
  obtain ⟨_, mem, greatest⟩ := finite.exists_maximalFor rank _ ⟨lock, taken⟩
  obtain ⟨_, owned⟩ := Option.ne_none_iff_exists'.mp mem
  obtain ⟨_, waiting, otherTaken⟩ := stuck owned
  have above := ascending waiting owned
  exact absurd (greatest otherTaken above.le) above.not_ge

end LockOrder
