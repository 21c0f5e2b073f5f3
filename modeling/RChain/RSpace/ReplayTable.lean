import RChain.RSpace.Replay

/-!
# The replay table along a replay

During a replay the table binds exactly the COMM events that the play space formed
later, in the order of the log: `Rigged` states this for the events of a log and the
COMM events still to come. Rigging establishes it, and removing the bindings of the
COMM due next keeps it, provided no later COMM equals that one.
-/

namespace RChain.TupleSpace

open List Function AList

variable {Hash : Type} [LinearOrder Hash]

/-- A row of the table: absent when there is nothing to bind. -/
def listed {Item : Type} (items : List Item) : Option (List Item) :=
  if items.isEmpty then none else some items

theorem listed_get_d {Item : Type} (items : List Item) : (listed items).getD [] = items := by
  cases items with
  | nil | cons => rfl

def Binds (table : AList (fun _ : Hash => List (Comm Hash))) (bound : Hash → List (Comm Hash)) :
    Prop :=
  ∀ key, table.lookup key = listed (bound key)

variable {table : AList (fun _ : Hash => List (Comm Hash))} {bound : Hash → List (Comm Hash)}
  {produces consumes : List Hash} {data : ReplayData Hash} {comm : Comm Hash}

theorem Binds.congr {other : Hash → List (Comm Hash)} (binds : Binds table bound)
    (same : ∀ key, bound key = other key) : Binds table other := by
  intro key
  rw [← same key]
  exact binds key

theorem bind_comm_binds (binds : Binds table bound) (key : Hash) (comm : Comm Hash) :
    Binds (bindComm table key comm) (update bound key (bound key ++ [comm])) := by
  intro other
  by_cases same : other = key
  · subst same
    rw [bindComm, lookup_insert, binds, listed_get_d, update_self, listed, if_neg (by simp)]
  · rw [bindComm, lookup_insert_ne same, binds, update_of_ne same]

theorem remove_binding_binds (binds : Binds table bound) (key : Hash) (comm : Comm Hash) :
    Binds (removeBinding table key comm)
      (update bound key ((bound key).eraseP (Comm.same · comm))) := by
  intro other
  have row := binds key
  unfold removeBinding
  cases found : table.lookup key with
  | none =>
    have empty : bound key = [] := by
      rw [← listed_get_d (bound key), ← row, found]
      rfl
    have unchanged : update bound key ((bound key).eraseP (Comm.same · comm)) = bound := by
      rw [empty, eraseP_nil, ← empty, update_eq_self]
    rw [unchanged]
    exact binds other
  | some comms =>
    have comms_eq : comms = bound key := by
      rw [← listed_get_d (bound key), ← row, found]
      rfl
    subst comms_eq
    dsimp only
    split_ifs with empty
    · by_cases same : other = key
      · subst same
        rw [lookup_erase, update_self, listed, if_pos empty]
      · rw [lookup_erase_ne same, binds, update_of_ne same]
    · by_cases same : other = key
      · subst same
        rw [lookup_insert, update_self, listed, if_neg empty]
      · rw [lookup_insert_ne same, binds, update_of_ne same]

def Comm.uses (comm : Comm Hash) (hash : Hash) : Nat :=
  (comm.produces.map (·.hash)).count hash

def boundToConsume (consumes : List Hash) (comms : List (Comm Hash)) (hash : Hash) :
    List (Comm Hash) :=
  if hash ∈ consumes then comms.filter fun comm => comm.consume.hash = hash else []

def boundToProduce (produces : List Hash) (comms : List (Comm Hash)) (hash : Hash) :
    List (Comm Hash) :=
  if hash ∈ produces then comms.flatMap fun comm => List.replicate (comm.uses hash) comm else []

/-- The table binds the events to these COMM events. -/
structure Rigged (consumes produces : List Hash) (comms : List (Comm Hash))
    (data : ReplayData Hash) : Prop where
  consume : Binds data.byConsume (boundToConsume consumes comms)
  produce : Binds data.byProduce (boundToProduce produces comms)

theorem bind_produces_binds (comm : Comm Hash) (refs : List (Produce Hash))
    (binds : Binds table bound) :
    Binds (refs.foldl (fun table produce => if produce.hash ∈ produces then
        bindComm table produce.hash comm else table) table)
      (fun hash => if hash ∈ produces then
        bound hash ++ replicate ((refs.map (·.hash)).count hash) comm else bound hash) := by
  induction refs generalizing table bound with
  | nil => simpa using binds
  | cons ref _ ih =>
    rw [foldl_cons]
    by_cases present : ref.hash ∈ produces
    · rw [if_pos present]
      apply (ih (bind_comm_binds binds ref.hash comm)).congr
      intro hash
      by_cases same : hash = ref.hash
      · subst same
        rw [if_pos present, if_pos present, update_self, map_cons,
          count_cons_self, append_assoc, replicate_succ]
        rfl
      · rw [update_of_ne same, map_cons, count_cons_of_ne (Ne.symm same)]
    · rw [if_neg present]
      apply (ih binds).congr
      intro hash
      by_cases same : hash = ref.hash
      · subst same
        rw [if_neg present, if_neg present]
      · rw [map_cons, count_cons_of_ne (Ne.symm same)]

theorem bind_events_rigged {comms : List (Comm Hash)} (rigged : Rigged consumes produces comms data)
    (comm : Comm Hash) :
    Rigged consumes produces (comms ++ [comm]) (bindEvents consumes produces data comm) := by
  constructor
  · unfold bindEvents
    dsimp only
    split_ifs with present
    · apply (bind_comm_binds rigged.consume comm.consume.hash comm).congr
      intro hash
      by_cases same : hash = comm.consume.hash
      · subst same
        simp [boundToConsume, present]
      · have different : ¬ comm.consume.hash = hash := fun equal => same equal.symm
        simp [boundToConsume, same, different]
    · apply rigged.consume.congr
      intro hash
      by_cases same : hash = comm.consume.hash
      · subst same
        simp [boundToConsume, present]
      · have different : ¬ comm.consume.hash = hash := fun equal => same equal.symm
        simp [boundToConsume, different]
  · apply (bind_produces_binds comm comm.produces rigged.produce).congr
    intro hash
    by_cases present : hash ∈ produces
    · simp [boundToProduce, present, Comm.uses]
    · simp [boundToProduce, present]

theorem build_rigged (log : List (Event Hash)) :
    Rigged (consumesOf log) (producesOf log) (commsOf log) (buildReplayData log) := by
  suffices general : ∀ (comms prior : List (Comm Hash)) (data : ReplayData Hash),
      Rigged (consumesOf log) (producesOf log) prior data →
      Rigged (consumesOf log) (producesOf log) (prior ++ comms)
        (comms.foldl (bindEvents (consumesOf log) (producesOf log)) data) by
    apply general (commsOf log) [] ⟨∅, ∅⟩
    constructor
    · intro _
      simp [boundToConsume, listed]
    · intro _
      simp [boundToProduce, listed]
  intro comms
  induction comms with
  | nil =>
    intro _ _ rigged
    simpa using rigged
  | cons comm _ ih =>
    intro prior _ rigged
    have step := ih (prior ++ [comm]) _ (bind_events_rigged rigged comm)
    rwa [append_assoc] at step

theorem comm_same_self (comm : Comm Hash) : Comm.same comm comm = true :=
  decide_eq_true ⟨rfl, rfl, rfl, rfl⟩

theorem erase_last (earlier : List (Comm Hash))
    (different : ∀ other ∈ earlier, Comm.same other comm = false) (rest : List (Comm Hash)) :
    (earlier ++ comm :: rest).eraseP (Comm.same · comm) = earlier ++ rest := by
  rw [eraseP_append_right _ fun other mem => by simp [different other mem]]
  exact congrArg (earlier ++ ·) (eraseP_cons_of_pos (comm_same_self comm))

theorem remove_produces_binds (refs : List (Produce Hash)) {earlier : Hash → List (Comm Hash)}
    (different : ∀ hash, ∀ other ∈ earlier hash, Comm.same other comm = false)
    (absent : ∀ hash, hash ∉ produces → earlier hash = [])
    (binds : Binds table fun hash => if hash ∈ produces then
      earlier hash ++ replicate ((refs.map (·.hash)).count hash) comm else []) :
    Binds (refs.foldl (fun table produce => removeBinding table produce.hash comm) table)
      earlier := by
  induction refs generalizing table with
  | nil =>
    apply binds.congr
    intro key
    split_ifs with present
    · simp
    · rw [absent key present]
  | cons ref _ ih =>
    rw [foldl_cons]
    apply ih
    apply (remove_binding_binds binds ref.hash comm).congr
    intro hash
    by_cases same : hash = ref.hash
    · subst same
      rw [update_self]
      split_ifs with present
      · rw [map_cons, count_cons_self, replicate_succ, erase_last _ (different ref.hash)]
      · rfl
    · rw [update_of_ne same, map_cons, count_cons_of_ne (Ne.symm same)]

/-- The COMM due next is the last of the table; with its bindings removed the later ones are
left. -/
theorem remove_bindings_rigged {later : List (Comm Hash)}
    (different : ∀ other ∈ later, Comm.same other comm = false)
    (rigged : Rigged consumes produces (later ++ [comm]) data) :
    Rigged consumes produces later (removeBindingsFor data comm) := by
  constructor
  · apply (remove_binding_binds rigged.consume comm.consume.hash comm).congr
    intro hash
    by_cases same : hash = comm.consume.hash
    · subst same
      rw [update_self, boundToConsume, boundToConsume]
      split_ifs
      · have last := erase_last (later.filter fun other => other.consume.hash = comm.consume.hash)
          (fun other mem => different other (mem_filter.mp mem).1) []
        rw [append_nil] at last
        simpa using last
      · rfl
    · have unequal : ¬ comm.consume.hash = hash := fun equal => same equal.symm
      rw [update_of_ne same]
      simp [boundToConsume, unequal]
  · have row : Binds data.byProduce fun hash => if hash ∈ produces then
        boundToProduce produces later hash ++
          replicate ((comm.produces.map (·.hash)).count hash) comm else [] := by
      apply rigged.produce.congr
      intro hash
      by_cases present : hash ∈ produces
      · simp [boundToProduce, present, Comm.uses]
      · simp [boundToProduce, present]
    apply remove_produces_binds comm.produces _ _ row
    · intro _ _ mem
      unfold boundToProduce at mem
      split_ifs at mem
      · rcases mem_flatMap.mp mem with ⟨source, listed, copy⟩
        rw [(mem_replicate.mp copy).2]
        exact different source listed
      · exact absurd mem not_mem_nil
    · intro _ missing
      rw [boundToProduce, if_neg missing]

theorem rigged_empty (rigged : Rigged consumes produces [] data) : data.isEmpty = true := by
  have empty : ∀ (table : AList (fun _ : Hash => List (Comm Hash))),
      (∀ key, table.lookup key = none) → table.entries.isEmpty = true := by
    intro _ missing
    rw [List.isEmpty_iff]
    apply eq_nil_iff_forall_not_mem.mpr
    intro _ mem
    have found := mem_lookup_iff.mpr mem
    rw [missing] at found
    exact absurd found (Option.not_mem_none _)
  rw [ReplayData.isEmpty, Bool.and_eq_true]
  constructor
  · apply empty
    intro key
    rw [rigged.consume key]
    simp [boundToConsume, listed]
  · apply empty
    intro key
    rw [rigged.produce key]
    simp [boundToProduce, listed]

end RChain.TupleSpace
