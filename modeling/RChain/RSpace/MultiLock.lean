import Mathlib.Data.List.Destutter
import RChain.Lib.LockOrder
import RChain.Lib.Runs

/-!
# The lock of a set of keys

`acquire` of the multi-lock as the steps that other tasks can come between: the lookup of the
mutex of a key, the insertion of a new mutex where none was found, and the lock of each mutex in
the order of the keys.
-/

namespace RChain.Concurrent

open LockOrder Relation List Function

/-- The map from keys to mutexes. A mutex is known by its number in the order of creation, and no
two keys share one. -/
structure LockMap (K : Type) where
  locks : K → Option Nat
  created : Nat
  bounded : ∀ {key lock}, locks key = some lock → lock < created
  injective : ∀ {key other lock}, locks key = some lock → locks other = some lock → key = other

/-- A multi-lock: its map, and the task that holds each of its mutexes. -/
structure MultiLock (K Task : Type) extends LockMap K where
  owner : Nat → Option Task

/-- How far a call of `acquire` is. -/
inductive Acquire (K : Type) where
  | lookUp (arcs : List Nat) (keys : List K)
  | insert (arcs : List Nat) (key : K) (keys : List K)
  | lock (guards arcs : List Nat)
  | run (guards : List Nat)
  | drop (guards : List Nat)
  | done
deriving DecidableEq

def Acquire.guards {K : Type} : Acquire K → List Nat
  | .lock guards _ => guards
  | .run guards => guards
  | .drop guards => guards
  | _ => []

def Acquire.Running {K : Type} (call : Acquire K) : Prop := ∃ guards, call = .run guards

section Steps

variable {K Task : Type} [LinearOrder K]

def LockMap.new : LockMap K where
  locks _ := none
  created := 0
  bounded := by simp
  injective := by simp

/-- `insert` of a new mutex. A mutex that another task has put there in the meantime is
replaced. -/
def LockMap.insert (map : LockMap K) (key : K) : LockMap K where
  locks := Function.update map.locks key (some map.created)
  created := map.created + 1
  bounded := by
    intro other _ found
    by_cases same : other = key
    · subst same
      simp at found
      omega
    · rw [Function.update_of_ne same] at found
      exact (map.bounded found).trans (Nat.lt_succ_self _)
  injective := by
    intro one two _ first second
    by_cases left : one = key <;> by_cases right : two = key
    · rw [left, right]
    · subst left
      rw [Function.update_self, Option.some.injEq] at first
      rw [Function.update_of_ne right] at second
      exact absurd (map.bounded second) (by omega)
    · subst right
      rw [Function.update_self, Option.some.injEq] at second
      rw [Function.update_of_ne left] at first
      exact absurd (map.bounded first) (by omega)
    · rw [Function.update_of_ne left] at first
      rw [Function.update_of_ne right] at second
      exact map.injective first second

def MultiLock.insert (m : MultiLock K Task) (key : K) : MultiLock K Task :=
  { m with toLockMap := m.toLockMap.insert key }

theorem insert_locks_self (m : MultiLock K Task) (key : K) :
    (m.insert key).locks key = some m.created := update_self ..

theorem insert_locks_of_ne (m : MultiLock K Task) {key other : K} (differ : other ≠ key) :
    (m.insert key).locks other = m.locks other := update_of_ne differ ..

def MultiLock.own (m : MultiLock K Task) (lock : Nat) (holder : Option Task) : MultiLock K Task :=
  { m with owner := Function.update m.owner lock holder }

/-- The keys, sorted and without the repetitions that then are neighbours. -/
def sortedKeys (keys : List K) : List K := (keys.insertionSort (· ≤ ·)).destutter (· ≠ ·)

def acquire (keys : List K) : Acquire K := .lookUp [] (sortedKeys keys)

/-- One step of a call; `none` if it waits for a mutex or has returned. -/
def MultiLock.step (m : MultiLock K Task) (task : Task) :
    Acquire K → Option (Acquire K × MultiLock K Task)
  | .lookUp arcs [] => some (.lock [] arcs, m)
  | .lookUp arcs (key :: keys) =>
    match m.locks key with
    | some existing => some (.lookUp (arcs ++ [existing]) keys, m)
    | none => some (.insert arcs key keys, m)
  | .insert arcs key keys => some (.lookUp (arcs ++ [m.created]) keys, m.insert key)
  | .lock guards [] => some (.run guards, m)
  | .lock guards (arc :: arcs) =>
    if m.owner arc = none then some (.lock (guards ++ [arc]) arcs, m.own arc (some task))
    else none
  | .run guards => some (.drop guards, m)
  | .drop [] => some (.done, m)
  | .drop (guard :: guards) => some (.drop guards, m.own guard none)
  | .done => none

/-- What a step can do: the call after it and the multi-lock it leaves. -/
inductive MultiLock.Moves (m : MultiLock K Task) (task : Task) :
    Acquire K → Acquire K → MultiLock K Task → Prop where
  | looked (arcs : List Nat) : m.Moves task (.lookUp arcs []) (.lock [] arcs) m
  | present (arcs : List Nat) (key : K) (keys : List K) {existing : Nat}
      (found : m.locks key = some existing) :
      m.Moves task (.lookUp arcs (key :: keys)) (.lookUp (arcs ++ [existing]) keys) m
  | absent (arcs : List Nat) (key : K) (keys : List K) (missing : m.locks key = none) :
      m.Moves task (.lookUp arcs (key :: keys)) (.insert arcs key keys) m
  | inserted (arcs : List Nat) (key : K) (keys : List K) :
      m.Moves task (.insert arcs key keys) (.lookUp (arcs ++ [m.created]) keys) (m.insert key)
  | locked (guards : List Nat) : m.Moves task (.lock guards []) (.run guards) m
  | took (guards : List Nat) (arc : Nat) (arcs : List Nat) (free : m.owner arc = none) :
      m.Moves task (.lock guards (arc :: arcs)) (.lock (guards ++ [arc]) arcs)
        (m.own arc (some task))
  | ran (guards : List Nat) : m.Moves task (.run guards) (.drop guards) m
  | dropped : m.Moves task (.drop []) .done m
  | released (guard : Nat) (guards : List Nat) :
      m.Moves task (.drop (guard :: guards)) (.drop guards) (m.own guard none)

section Equations

variable {m : MultiLock K Task} {task : Task} {arcs guards : List Nat} {key : K} {keys : List K}

theorem step_present {existing : Nat} (found : m.locks key = some existing) :
    m.step task (.lookUp arcs (key :: keys)) = some (.lookUp (arcs ++ [existing]) keys, m) := by
  simp only [MultiLock.step, found]

theorem step_absent (absent : m.locks key = none) :
    m.step task (.lookUp arcs (key :: keys)) = some (.insert arcs key keys, m) := by
  simp only [MultiLock.step, absent]

theorem step_free {arc : Nat} (free : m.owner arc = none) :
    m.step task (.lock guards (arc :: arcs)) =
      some (.lock (guards ++ [arc]) arcs, m.own arc (some task)) := by
  rw [MultiLock.step, if_pos free]

theorem step_cases (m : MultiLock K Task) (task : Task) (call : Acquire K) :
    (∃ after next, m.step task call = some (after, next) ∧ m.Moves task call after next) ∨
    m.step task call = none ∧ (call = .done ∨
      ∃ guards arc arcs, call = .lock guards (arc :: arcs) ∧ m.owner arc ≠ none) := by
  cases call with
  | lookUp _ keys =>
    cases keys with
    | nil => exact .inl ⟨_, _, rfl, .looked _⟩
    | cons key =>
      cases lookup : m.locks key with
      | none => exact .inl ⟨_, _, step_absent lookup, .absent _ _ _ lookup⟩
      | some => exact .inl ⟨_, _, step_present lookup, .present _ _ _ lookup⟩
  | insert => exact .inl ⟨_, _, rfl, .inserted _ _ _⟩
  | lock guards arcs =>
    cases arcs with
    | nil => exact .inl ⟨_, _, rfl, .locked _⟩
    | cons arc arcs =>
      by_cases free : m.owner arc = none
      · exact .inl ⟨_, _, step_free free, .took _ _ _ free⟩
      · exact .inr ⟨by rw [MultiLock.step, if_neg free], .inr ⟨guards, arc, arcs, rfl, free⟩⟩
  | run => exact .inl ⟨_, _, rfl, .ran _⟩
  | drop guards =>
    cases guards with
    | nil => exact .inl ⟨_, _, rfl, .dropped⟩
    | cons => exact .inl ⟨_, _, rfl, .released _ _⟩
  | done => exact .inr ⟨rfl, .inl rfl⟩

theorem moves_of_step {call after : Acquire K} {next : MultiLock K Task}
    (step : m.step task call = some (after, next)) : m.Moves task call after next := by
  rcases step_cases m task call with ⟨_, _, stepped, moves⟩ | ⟨stopped, _⟩
  · rw [stepped] at step
    cases step
    exact moves
  · rw [stopped] at step
    cases step

theorem step_eq_none {call : Acquire K} (stopped : m.step task call = none) : call = .done ∨
    ∃ guards arc arcs, call = .lock guards (arc :: arcs) ∧ m.owner arc ≠ none := by
  rcases step_cases m task call with ⟨_, _, stepped, _⟩ | ⟨_, waits⟩
  · rw [stepped] at stopped
    cases stopped
  · exact waits

end Equations

variable [DecidableEq Task]

/-- A multi-lock and the calls of all tasks. -/
structure System (K Task : Type) where
  lock : MultiLock K Task
  calls : Task → Acquire K

/-- All tasks call `acquire`, where no mutex is locked. -/
def System.start (map : LockMap K) (keys : Task → List K) : System K Task where
  lock := { map with owner := fun _ => none }
  calls task := acquire (keys task)

def System.step (s : System K Task) (task : Task) : Option (System K Task) :=
  (s.lock.step task (s.calls task)).map fun (call, lock) =>
    ⟨lock, Function.update s.calls task call⟩

def System.run (s : System K Task) (schedule : List Task) : Option (System K Task) :=
  schedule.foldlM System.step s

/-- Some interleaving of the steps of the tasks leads from one state to the other. -/
abbrev System.Reaches : System K Task → System K Task → Prop :=
  ReflTransGen fun s t => ∃ task, s.step task = some t

end Steps

section SortedKeys

variable {K : Type} [LinearOrder K]

theorem mem_sorted_keys {key : K} {keys : List K} : key ∈ sortedKeys keys ↔ key ∈ keys := by
  have kept (xs : List K) (x : K) : key ∈ xs.destutter' (· ≠ ·) x ↔ key = x ∨ key ∈ xs := by
    induction xs generalizing x with
    | nil => simp
    | cons y _ ih =>
      by_cases same : x = y
      · subst same
        rw [destutter'_cons_neg _ (by simp), ih]
        simp
      · rw [destutter'_cons_pos _ same, mem_cons, ih, mem_cons]
  unfold sortedKeys
  rw [← mem_insertionSort (· ≤ ·) (l := keys)]
  generalize keys.insertionSort (· ≤ ·) = sorted
  cases sorted with
  | nil => rfl
  | cons => rw [destutter_cons', kept, mem_cons]

theorem sorted_keys_ascending (keys : List K) : (sortedKeys keys).Pairwise (· < ·) := by
  have strict (xs : List K) (distinct : xs.IsChain (· ≠ ·)) (ordered : xs.Pairwise (· ≤ ·)) :
      xs.IsChain (· < ·) := by
    induction xs with
    | nil => exact .nil
    | cons x xs ih =>
      obtain ⟨least, rest⟩ := pairwise_cons.mp ordered
      cases xs with
      | nil => exact .singleton x
      | cons y =>
        obtain ⟨differ, later⟩ := isChain_cons_cons.mp distinct
        have below := lt_of_le_of_ne (least y mem_cons_self) differ
        exact isChain_cons_cons.mpr ⟨below, ih later rest⟩
  rw [← isChain_iff_pairwise]
  exact strict _ (isChain_destutter (· ≠ ·) _)
    ((pairwise_insertionSort (· ≤ ·) keys).sublist (destutter_sublist (· ≠ ·) _))

end SortedKeys

section Exclusion

variable {K Task : Type} [LinearOrder K] [DecidableEq Task] {m next : MultiLock K Task}
  {calls : Task → Acquire K} {task : Task} {call : Acquire K}

theorem held_step (agree : Held m.owner (Acquire.guards ∘ calls))
    (step : m.step task (calls task) = some (call, next)) :
    Held next.owner (Acquire.guards ∘ update calls task call) := by
  have unchanged (same : next.owner = m.owner) (guards : call.guards = (calls task).guards) :
      Held next.owner (Acquire.guards ∘ update calls task call) := by
    rw [comp_update, guards, same]
    exact (update_eq_self task (Acquire.guards ∘ calls)).symm ▸ agree
  rw [comp_update] at unchanged ⊢
  have moves := moves_of_step step
  generalize before : calls task = current at moves unchanged
  have held : (Acquire.guards ∘ calls) task = current.guards := congrArg Acquire.guards before
  cases moves with
  | took _ _ _ free =>
    have taken := agree.take task free
    rw [held] at taken
    exact taken
  | released => exact agree.release held
  | _ => exact unchanged rfl rfl

/-- A call that has the key among its keys uses this mutex for it. -/
def Acquire.Uses (key : K) (lock : Nat) : Acquire K → Prop
  | .lookUp arcs keys => lock ∈ arcs ∨ key ∈ keys
  | .insert arcs _ keys => lock ∈ arcs ∨ key ∈ keys
  | .lock guards arcs => lock ∈ guards ∨ lock ∈ arcs
  | .run guards => lock ∈ guards
  | .drop _ => True
  | .done => True

def Acquire.Spares (key : K) : Acquire K → Prop
  | .insert _ first _ => first ≠ key
  | _ => True

variable {key : K} {lock : Nat} {after : Acquire K}

omit [DecidableEq Task] in
theorem spares_step (found : m.locks key = some lock) (spares : call.Spares key)
    (step : m.step task call = some (after, next)) :
    next.locks key = some lock ∧ after.Spares key := by
  cases moves_of_step step with
  | absent _ _ _ missing =>
    refine ⟨found, fun same => ?_⟩
    rw [← same, missing] at found
    cases found
  | inserted => exact ⟨(insert_locks_of_ne m (Ne.symm spares)).trans found, trivial⟩
  | _ => exact ⟨found, trivial⟩

omit [DecidableEq Task] in
theorem uses_step (found : m.locks key = some lock) (uses : call.Uses key lock)
    (step : m.step task call = some (after, next)) :
    after.Uses key lock := by
  cases moves_of_step step with
  | looked => exact .inr (by simpa [Acquire.Uses] using uses)
  | present _ _ _ lookup =>
    rcases uses with among | mem
    · exact .inl (mem_append_left _ among)
    · rcases mem_cons.mp mem with same | later
      · rw [← same, found, Option.some.injEq] at lookup
        exact .inl (by simp [lookup])
      · exact .inr later
  | absent _ first _ missing =>
    have other : key ≠ first := by
      intro same
      rw [same, missing] at found
      cases found
    simpa [Acquire.Uses, other] using uses
  | inserted => exact uses.imp (mem_append_left _) id
  | locked => simpa [Acquire.Uses] using uses
  | took => simpa [Acquire.Uses, or_assoc] using uses
  | _ => trivial

/-- What holds in every interleaving of the calls: the guards own their mutexes, and for a key
that was in the map at the start all calls use the mutex it had then. -/
structure Orderly (map : LockMap K) (keys : Task → List K) (s : System K Task) : Prop where
  held : Held s.lock.owner (Acquire.guards ∘ s.calls)
  kept : ∀ {key lock}, map.locks key = some lock → s.lock.locks key = some lock
  spares : ∀ {key lock}, map.locks key = some lock → ∀ task, (s.calls task).Spares key
  uses : ∀ {key lock}, map.locks key = some lock → ∀ {task}, key ∈ keys task →
    (s.calls task).Uses key lock

variable {map : LockMap K} {keys : Task → List K} {s t : System K Task}

theorem system_step (step : s.step task = some t) : ∃ call,
    s.lock.step task (s.calls task) = some (call, t.lock) ∧
      t.calls = update s.calls task call := by
  obtain ⟨⟨call, _⟩, moved, rfl⟩ := Option.map_eq_some_iff.mp step
  exact ⟨call, moved, rfl⟩

theorem orderly_step (orderly : Orderly map keys s) (step : s.step task = some t) :
    Orderly map keys t := by
  obtain ⟨_, moved, calls⟩ := system_step step
  have preserved {key : K} {lock : Nat} (found : map.locks key = some lock) :=
    spares_step (orderly.kept found) (orderly.spares found task) moved
  constructor
  · rw [calls]
    exact held_step orderly.held moved
  · intro _ _ found
    exact (preserved found).1
  · intro _ _ found other
    rw [calls]
    by_cases same : other = task
    · subst same
      rw [update_self]
      exact (preserved found).2
    · rw [update_of_ne same]
      exact orderly.spares found other
  · intro _ _ found other mem
    rw [calls]
    by_cases same : other = task
    · subst same
      rw [update_self]
      exact uses_step (orderly.kept found) (orderly.uses found mem) moved
    · rw [update_of_ne same]
      exact orderly.uses found mem

theorem orderly_reached (reached : (System.start map keys).Reaches s) : Orderly map keys s := by
  induction reached with
  | refl =>
    exact ⟨Held.initial, fun found => found, fun _ _ => trivial,
      fun _ _ mem => .inr (mem_sorted_keys.mpr mem)⟩
  | tail _ step ih =>
    obtain ⟨_, moved⟩ := step
    exact orderly_step ih moved

theorem exclusive_of_mapped (reached : (System.start map keys).Reaches s) {one two : Task}
    (found : map.locks key = some lock) (first : key ∈ keys one) (second : key ∈ keys two)
    (runsOne : (s.calls one).Running) (runsTwo : (s.calls two).Running) :
    one = two := by
  have orderly := orderly_reached reached
  have owns {task : Task} (mem : key ∈ keys task) (runs : (s.calls task).Running) :
      s.lock.owner lock = some task := by
    obtain ⟨_, running⟩ := runs
    have uses := orderly.uses found mem
    rw [running] at uses
    apply orderly.held.owner_iff.mpr
    rw [comp_apply, running]
    exact uses
  exact Option.some.inj ((owns first runsOne).symm.trans (owns second runsTwo))

end Exclusion

section Overlap

variable {K Task : Type} [LinearOrder K] [DecidableEq Task] {s : System K Task}

/-- A task has the mutex of a key, from the map or put there by itself. -/
structure Found (key : K) (lock : Nat) (s t : System K Task) : Prop where
  mapped : t.lock.locks key = some lock
  others : ∀ other, other ≠ key → t.lock.locks other = s.lock.locks other
  created : s.lock.created ≤ t.lock.created
  owner : t.lock.owner = s.lock.owner
  origin : s.lock.locks key = some lock ∨ s.lock.created ≤ lock

variable {task : Task} {call : Acquire K} {lock : MultiLock K Task} {arcs : List Nat}
  {map : LockMap K}

theorem step_of_call {next : Acquire K} (before : s.calls task = call)
    (step : s.lock.step task call = some (next, lock)) :
    s.step task = some ⟨lock, update s.calls task next⟩ := by
  rw [System.step, before, step]
  rfl

theorem reaches_found {key : K} {keys : List K} (before : s.calls task = .lookUp arcs (key :: keys)) :
    ∃ t lock, s.Reaches t ∧ t.calls = update s.calls task (.lookUp (arcs ++ [lock]) keys) ∧
      Found key lock s t := by
  cases lookup : s.lock.locks key with
  | some existing =>
    have step := step_of_call before (step_present lookup)
    exact ⟨_, existing, .single ⟨task, step⟩, rfl,
      ⟨lookup, fun _ _ => rfl, le_rfl, rfl, .inl lookup⟩⟩
  | none =>
    have absent := step_of_call before (step_absent lookup)
    have inserted : (⟨s.lock, update s.calls task (.insert arcs key keys)⟩ :
        System K Task).step task = some _ := step_of_call (update_self _ _ _) rfl
    rw [update_idem] at inserted
    exact ⟨_, s.lock.created, .tail (.single ⟨task, absent⟩) ⟨task, inserted⟩, rfl,
      ⟨insert_locks_self s.lock key, fun _ => insert_locks_of_ne s.lock, Nat.le_succ _, rfl,
        .inr le_rfl⟩⟩

variable {one two : Task} {keys xs ys : List K} {left right : List Nat} {key : K}

/-- Two calls in the middle of their lookups have found no common mutex: what the second has
found stands in the map at its own keys, what the first has found does not, and no key that is
left to both is in the map. -/
structure Apart (one two : Task) (keys : List K) (left right : List Nat) (xs ys : List K)
    (s : System K Task) : Prop where
  firstCall : s.calls one = .lookUp left xs
  secondCall : s.calls two = .lookUp right ys
  free : ∀ lock, s.lock.owner lock = none
  firstNodup : left.Nodup
  secondNodup : right.Nodup
  firstOrder : xs.Pairwise (· < ·)
  secondOrder : ys.Pairwise (· < ·)
  within : ∀ key ∈ ys, key ∈ keys
  made : ∀ lock ∈ left, lock < s.lock.created
  firstKeys : ∀ lock ∈ left, ∀ key, s.lock.locks key = some lock → key ∉ xs ∧ key ∉ keys
  secondKeys : ∀ lock ∈ right, ∃ key ∈ keys, key ∉ ys ∧ s.lock.locks key = some lock
  unmapped : ∀ key ∈ xs, key ∈ keys → key ∈ ys ∧ s.lock.locks key = none

theorem nodup_snoc {A : Type} {xs : List A} {x : A} (nodup : xs.Nodup) (absent : x ∉ xs) :
    (xs ++ [x]).Nodup :=
  nodup_append.mpr ⟨nodup, nodup_singleton x, fun a mem b single same => by
    rw [mem_singleton] at single
    exact absent (single ▸ same ▸ mem)⟩

theorem not_mem_of_pairwise_lt (order : (key :: xs).Pairwise (· < ·)) : key ∉ xs :=
  fun mem => lt_irrefl key ((pairwise_cons.mp order).1 key mem)

theorem apart_first (differ : one ≠ two) (apart : Apart one two keys left right (key :: xs) ys s)
    (unshared : key ∉ ys) : ∃ t lock, s.Reaches t ∧
      Apart one two keys (left ++ [lock]) right xs ys t := by
  obtain ⟨t, lock, reached, calls, found⟩ := reaches_found apart.firstCall
  have passed := not_mem_of_pairwise_lt apart.firstOrder
  have foreign : key ∉ keys := fun mem =>
    unshared (apart.unmapped key mem_cons_self mem).1
  have new : lock ∉ left := by
    intro mem
    rcases found.origin with mapped | _
    · exact (apart.firstKeys lock mem key mapped).1 mem_cons_self
    · exact absurd (apart.made lock mem) (by omega)
  refine ⟨t, lock, reached, ?_⟩
  constructor
  · rw [calls, update_self]
  · rw [calls, update_of_ne differ.symm, apart.secondCall]
  · intro _
    rw [found.owner, apart.free]
  · exact nodup_snoc apart.firstNodup new
  · exact apart.secondNodup
  · exact apart.firstOrder.of_cons
  · exact apart.secondOrder
  · exact apart.within
  · intro other mem
    rcases mem_append.mp mem with old | single
    · exact (apart.made other old).trans_le found.created
    · rw [mem_singleton.mp single]
      exact t.lock.bounded found.mapped
  · intro other mem place mapped
    rcases mem_append.mp mem with old | single
    · have elsewhere : place ≠ key := by
        intro same
        rw [same, found.mapped, Option.some.injEq] at mapped
        exact new (mapped ▸ old)
      rw [found.others place elsewhere] at mapped
      have outside := apart.firstKeys other old place mapped
      exact ⟨fun later => outside.1 (mem_cons_of_mem key later), outside.2⟩
    · rw [mem_singleton.mp single] at mapped
      rw [t.lock.injective mapped found.mapped]
      exact ⟨passed, foreign⟩
  · intro other mem
    obtain ⟨place, among, gone, mapped⟩ := apart.secondKeys other mem
    have elsewhere : place ≠ key := fun same => foreign (same ▸ among)
    exact ⟨place, among, gone, (found.others place elsewhere).trans mapped⟩
  · intro place later among
    have elsewhere : place ≠ key := fun same => foreign (same ▸ among)
    rw [found.others place elsewhere]
    exact apart.unmapped place (mem_cons_of_mem key later) among

theorem apart_second (differ : one ≠ two) (apart : Apart one two keys left right xs (key :: ys) s)
    (unshared : key ∉ xs) : ∃ t lock, s.Reaches t ∧
      Apart one two keys left (right ++ [lock]) xs ys t := by
  obtain ⟨t, lock, reached, calls, found⟩ := reaches_found apart.secondCall
  have passed := not_mem_of_pairwise_lt apart.secondOrder
  have own : key ∈ keys := apart.within key mem_cons_self
  have new : lock ∉ right := by
    intro mem
    obtain ⟨_, _, gone, mapped⟩ := apart.secondKeys lock mem
    rcases found.origin with here | _
    · exact gone (s.lock.injective mapped here ▸ mem_cons_self)
    · exact absurd (s.lock.bounded mapped) (by omega)
  have foreign : lock ∉ left := by
    intro mem
    rcases found.origin with mapped | _
    · exact (apart.firstKeys lock mem key mapped).2 own
    · exact absurd (apart.made lock mem) (by omega)
  refine ⟨t, lock, reached, ?_⟩
  constructor
  · rw [calls, update_of_ne differ, apart.firstCall]
  · rw [calls, update_self]
  · intro _
    rw [found.owner, apart.free]
  · exact apart.firstNodup
  · exact nodup_snoc apart.secondNodup new
  · exact apart.firstOrder
  · exact apart.secondOrder.of_cons
  · exact fun place later => apart.within place (mem_cons_of_mem key later)
  · exact fun other mem => (apart.made other mem).trans_le found.created
  · intro other mem place mapped
    have elsewhere : place ≠ key := by
      intro same
      rw [same, found.mapped, Option.some.injEq] at mapped
      exact foreign (mapped ▸ mem)
    rw [found.others place elsewhere] at mapped
    exact apart.firstKeys other mem place mapped
  · intro other mem
    rcases mem_append.mp mem with old | single
    · obtain ⟨place, among, gone, mapped⟩ := apart.secondKeys other old
      have elsewhere : place ≠ key := fun same => gone (same ▸ mem_cons_self)
      exact ⟨place, among, fun later => gone (mem_cons_of_mem key later),
        (found.others place elsewhere).trans mapped⟩
    · rw [mem_singleton.mp single]
      exact ⟨key, own, passed, found.mapped⟩
  · intro place later among
    have elsewhere : place ≠ key := fun same => unshared (same ▸ later)
    obtain ⟨remains, absent⟩ := apart.unmapped place later among
    rw [found.others place elsewhere]
    exact ⟨(mem_cons.mp remains).resolve_left elsewhere, absent⟩

theorem apart_both (differ : one ≠ two)
    (apart : Apart one two keys left right (key :: xs) (key :: ys) s) : ∃ t first second,
      s.Reaches t ∧ Apart one two keys (left ++ [first]) (right ++ [second]) xs ys t := by
  have own : key ∈ keys := apart.within key mem_cons_self
  have absent := (apart.unmapped key mem_cons_self own).2
  let made := s.lock.created
  let firstLooked : System K Task := ⟨s.lock, update s.calls one (.insert left key xs)⟩
  let bothLooked : System K Task :=
    ⟨s.lock, update firstLooked.calls two (.insert right key ys)⟩
  let firstPut : System K Task := ⟨s.lock.insert key,
    update bothLooked.calls one (.lookUp (left ++ [made]) xs)⟩
  let t : System K Task := ⟨(s.lock.insert key).insert key,
    update firstPut.calls two (.lookUp (right ++ [made + 1]) ys)⟩
  have look : s.step one = some firstLooked := step_of_call apart.firstCall (step_absent absent)
  have lookToo : firstLooked.step two = some bothLooked :=
    step_of_call ((update_of_ne differ.symm ..).trans apart.secondCall) (step_absent absent)
  have put : bothLooked.step one = some firstPut :=
    step_of_call ((update_of_ne differ ..).trans (update_self ..)) rfl
  have putToo : firstPut.step two = some t :=
    step_of_call ((update_of_ne differ.symm ..).trans (update_self ..)) rfl
  have reached : s.Reaches t :=
    (((ReflTransGen.single ⟨one, look⟩).tail ⟨two, lookToo⟩).tail ⟨one, put⟩).tail ⟨two, putToo⟩
  have inMap : t.lock.locks key = some (made + 1) := insert_locks_self (s.lock.insert key) key
  have elsewhere (place : K) (other : place ≠ key) : t.lock.locks place = s.lock.locks place :=
    (insert_locks_of_ne _ other).trans (insert_locks_of_ne _ other)
  have ofOld {place : K} {lock : Nat} (old : lock < made + 1)
      (mapped : t.lock.locks place = some lock) :
      place ≠ key ∧ s.lock.locks place = some lock := by
    by_cases same : place = key
    · rw [same, inMap, Option.some.injEq] at mapped
      omega
    · exact ⟨same, elsewhere place same ▸ mapped⟩
  refine ⟨t, made, made + 1, reached, ?_⟩
  constructor
  · exact (update_of_ne differ ..).trans (update_self ..)
  · exact update_self ..
  · exact apart.free
  · exact nodup_snoc apart.firstNodup fun mem => absurd (apart.made made mem) (lt_irrefl made)
  · refine nodup_snoc apart.secondNodup fun mem => ?_
    obtain ⟨_, _, _, mapped⟩ := apart.secondKeys _ mem
    exact absurd (s.lock.bounded mapped) (by omega)
  · exact apart.firstOrder.of_cons
  · exact apart.secondOrder.of_cons
  · exact fun place later => apart.within place (mem_cons_of_mem key later)
  · intro lock mem
    change lock < made + 1 + 1
    rcases mem_append.mp mem with old | single
    · have before := apart.made lock old
      omega
    · rw [mem_singleton.mp single]
      omega
  · intro lock mem place mapped
    rcases mem_append.mp mem with old | single
    · have before := apart.made lock old
      obtain ⟨_, mapped⟩ := ofOld (by omega) mapped
      have outside := apart.firstKeys lock old place mapped
      exact ⟨fun later => outside.1 (mem_cons_of_mem key later), outside.2⟩
    · rw [mem_singleton.mp single] at mapped
      exact absurd (s.lock.bounded (ofOld (by omega) mapped).2) (by omega)
  · intro lock mem
    rcases mem_append.mp mem with old | single
    · obtain ⟨place, among, gone, mapped⟩ := apart.secondKeys lock old
      have other : place ≠ key := fun same => gone (same ▸ mem_cons_self)
      exact ⟨place, among, fun later => gone (mem_cons_of_mem key later),
        (elsewhere place other).trans mapped⟩
    · rw [mem_singleton.mp single]
      exact ⟨key, own, not_mem_of_pairwise_lt apart.secondOrder, inMap⟩
  · intro place later among
    have other : place ≠ key := fun same =>
      not_mem_of_pairwise_lt apart.firstOrder (same ▸ later)
    obtain ⟨remains, none⟩ := apart.unmapped place (mem_cons_of_mem key later) among
    exact ⟨(mem_cons.mp remains).resolve_left other, (elsewhere place other).trans none⟩

theorem apart_end (differ : one ≠ two) (apart : Apart one two keys left right xs ys s) :
    ∃ t left right, s.Reaches t ∧ Apart one two keys left right [] [] t := by
  induction size : xs.length + ys.length using Nat.strongRecOn generalizing s left right xs ys with
  | ind total ih =>
    -- The calls go through their keys together, in the order of the keys.
    have forward {t : System K Task} {left right : List Nat} {rest others : List K}
        (shorter : rest.length + others.length < total) (reached : s.Reaches t)
        (apart : Apart one two keys left right rest others t) :
        ∃ t left right, s.Reaches t ∧ Apart one two keys left right [] [] t := by
      obtain ⟨u, left, right, later, last⟩ := ih _ shorter apart rfl
      exact ⟨u, left, right, reached.trans later, last⟩
    cases xs with
    | nil =>
      cases ys with
      | nil => exact ⟨s, left, right, .refl, apart⟩
      | cons =>
        obtain ⟨_, _, reached, next⟩ := apart_second differ apart not_mem_nil
        exact forward (by simp at size ⊢; omega) reached next
    | cons x =>
      cases ys with
      | nil =>
        obtain ⟨_, _, reached, next⟩ := apart_first differ apart not_mem_nil
        exact forward (by simp at size ⊢; omega) reached next
      | cons y =>
        have least {z : K} {zs : List K} {w : K} (order : (z :: zs).Pairwise (· < ·))
            (below : w < z) : w ∉ z :: zs := by
          intro mem
          rcases mem_cons.mp mem with same | later
          · exact below.ne same
          · exact lt_asymm below ((pairwise_cons.mp order).1 w later)
        rcases lt_trichotomy x y with below | same | above
        · obtain ⟨_, _, reached, next⟩ :=
            apart_first differ apart (least apart.secondOrder below)
          exact forward (by simp at size ⊢; omega) reached next
        · subst same
          obtain ⟨_, _, _, reached, next⟩ := apart_both differ apart
          exact forward (by simp at size ⊢; omega) reached next
        · obtain ⟨_, _, reached, next⟩ :=
            apart_second differ apart (least apart.firstOrder above)
          exact forward (by simp at size ⊢; omega) reached next

theorem reaches_run {guards : List Nat} (before : s.calls task = .lock guards arcs)
    (nodup : arcs.Nodup) (free : ∀ arc ∈ arcs, s.lock.owner arc = none) : ∃ t, s.Reaches t ∧
      t.calls = update s.calls task (.run (guards ++ arcs)) ∧
      ∀ lock ∉ arcs, t.lock.owner lock = s.lock.owner lock := by
  induction arcs generalizing s guards with
  | nil =>
    have step := step_of_call before rfl
    exact ⟨_, .single ⟨task, step⟩, by rw [append_nil], fun _ _ => rfl⟩
  | cons arc arcs ih =>
    obtain ⟨absent, nodup⟩ := nodup_cons.mp nodup
    let locked : System K Task := ⟨s.lock.own arc (some task),
      update s.calls task (.lock (guards ++ [arc]) arcs)⟩
    have step : s.step task = some locked :=
      step_of_call before (step_free (free arc mem_cons_self))
    have later (lock : Nat) (mem : lock ∈ arcs) : locked.lock.owner lock = none := by
      have other : lock ≠ arc := fun same => absent (same ▸ mem)
      exact (update_of_ne other ..).trans (free lock (mem_cons_of_mem arc mem))
    obtain ⟨t, reached, calls, owners⟩ := ih (s := locked) (update_self ..) nodup later
    refine ⟨t, .head ⟨task, step⟩ reached, ?_, ?_⟩
    · rw [calls, update_idem, append_assoc, singleton_append]
    · intro lock outside
      have other : lock ≠ arc := fun same => outside (same ▸ mem_cons_self)
      exact (owners lock fun later => outside (mem_cons_of_mem arc later)).trans
        (update_of_ne other ..)

omit [DecidableEq Task] in
theorem apart_start {keys : Task → List K}
    (unmapped : ∀ key ∈ keys one, key ∈ keys two → map.locks key = none) :
    Apart one two (sortedKeys (keys two)) [] [] (sortedKeys (keys one)) (sortedKeys (keys two))
      (System.start map keys) where
  firstCall := rfl
  secondCall := rfl
  free _ := rfl
  firstNodup := nodup_nil
  secondNodup := nodup_nil
  firstOrder := sorted_keys_ascending _
  secondOrder := sorted_keys_ascending _
  within _ mem := mem
  made _ mem := absurd mem not_mem_nil
  firstKeys _ mem := absurd mem not_mem_nil
  secondKeys _ mem := absurd mem not_mem_nil
  unmapped key mem also :=
    ⟨also, unmapped key (mem_sorted_keys.mp mem) (mem_sorted_keys.mp also)⟩

theorem overlap_of_unmapped {keys : Task → List K} (differ : one ≠ two)
    (unmapped : ∀ key ∈ keys one, key ∈ keys two → map.locks key = none) :
    ∃ t, (System.start map keys).Reaches t ∧ (t.calls one).Running ∧ (t.calls two).Running := by
  obtain ⟨looked, left, right, reached, apart⟩ := apart_end differ (apart_start unmapped)
  have disjoint (lock : Nat) (mem : lock ∈ right) : lock ∉ left := by
    intro also
    obtain ⟨key, among, _, mapped⟩ := apart.secondKeys lock mem
    exact (apart.firstKeys lock also key mapped).2 among
  let firstWaits : System K Task :=
    ⟨looked.lock, update looked.calls one (.lock [] left)⟩
  have firstLooked : looked.step one = some firstWaits := step_of_call apart.firstCall rfl
  obtain ⟨firstRuns, locked, calls, owners⟩ := reaches_run (s := firstWaits)
    (update_self ..) apart.firstNodup fun arc _ => apart.free arc
  have waiting : firstRuns.calls two = .lookUp right [] := by
    rw [calls, update_of_ne differ.symm]
    exact (update_of_ne differ.symm ..).trans apart.secondCall
  let secondWaits : System K Task :=
    ⟨firstRuns.lock, update firstRuns.calls two (.lock [] right)⟩
  have secondLooked : firstRuns.step two = some secondWaits := step_of_call waiting rfl
  obtain ⟨bothRun, lockedToo, callsToo, _⟩ := reaches_run (s := secondWaits)
    (update_self ..) apart.secondNodup fun arc mem =>
      (owners arc (disjoint arc mem)).trans (apart.free arc)
  refine ⟨bothRun, ?_, ⟨left, ?_⟩, ⟨right, ?_⟩⟩
  · exact (((reached.tail ⟨one, firstLooked⟩).trans locked).tail ⟨two, secondLooked⟩).trans lockedToo
  · rw [callsToo, update_of_ne differ]
    refine (update_of_ne differ ..).trans ?_
    rw [calls, update_self, nil_append]
  · rw [callsToo, update_self, nil_append]

end Overlap

section Acquire

variable {K Task : Type} [LinearOrder K] [DecidableEq Task]

/-- Calls of `acquire` with a common key exclude each other in every interleaving if and only if
one of the keys they have in common has its mutex in the map before they start. -/
theorem acquire_exclusive_iff (map : LockMap K) (keys : Task → List K) :
    (∀ s, (System.start map keys).Reaches s → ∀ one two, one ≠ two →
      (∃ key ∈ keys one, key ∈ keys two) → ¬ ((s.calls one).Running ∧ (s.calls two).Running)) ↔
    ∀ one two, one ≠ two → (∃ key ∈ keys one, key ∈ keys two) →
      ∃ key ∈ keys one, key ∈ keys two ∧ (map.locks key).isSome := by
  constructor
  · intro exclusive one two differ common
    by_contra missing
    have unmapped (key : K) (first : key ∈ keys one) (second : key ∈ keys two) :
        map.locks key = none := by
      by_contra found
      exact missing ⟨key, first, second, Option.isSome_iff_ne_none.mpr found⟩
    obtain ⟨s, reached, runs⟩ := overlap_of_unmapped differ unmapped
    exact exclusive s reached one two differ common runs
  · intro mapped _ reached one two differ common runs
    obtain ⟨_, first, second, found⟩ := mapped one two differ common
    obtain ⟨_, found⟩ := Option.isSome_iff_exists.mp found
    exact differ (exclusive_of_mapped reached found first second runs.1 runs.2)

/-- Two tasks ask a new multi-lock for one key. Both look it up before either inserts its mutex,
so both lock a mutex of their own and run together. -/
theorem acquire_overlaps : ∃ s, (System.start LockMap.new fun _ : Bool => [1]).Reaches s ∧
    (s.calls false).Running ∧ (s.calls true).Running := by
  have ran : ∃ s, (System.start LockMap.new fun _ : Bool => [1]).run
      [false, true, false, true, false, false, false, true, true, true] = some s ∧
      s.calls false = .run [0] ∧ s.calls true = .run [1] := ⟨_, rfl, rfl, rfl⟩
  obtain ⟨s, schedule, first, second⟩ := ran
  exact ⟨s, Runs.reaches_of_schedule schedule, ⟨[0], first⟩, ⟨[1], second⟩⟩

end Acquire

end RChain.Concurrent
