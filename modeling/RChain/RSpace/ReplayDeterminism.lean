import RChain.RSpace.PlayRun
import RChain.RSpace.ReplayTable

/-!
# Replay determinism

A replay rigged with the log of a play run does what the play run did, as long as joins
list no channel twice, no consume and no persistent produce is repeated, and no
continuation that a produce can reach is complete before the produce. The proof is a
simulation: both spaces hold the same rows and counters, and the table of the replay
binds the COMM events the play run has still to form.
-/

namespace RChain.TupleSpace

open Runs List

variable {C P A K Hash : Type} [DecidableEq C] [LinearOrder Hash]

section Rows

variable (config : Config C P A K Hash) (space : Space C P A K Hash) (log : List (Event Hash))
  (counter : Hash → Nat) (table : ReplayData Hash) {patterns : List P}

theorem replay_consume_rows {channels : List C} (accepted : refusal channels patterns = none)
    (continuation : K) (persist : Bool) (peeks : IndexSet) :
    replayConsume config spaceStore channels patterns continuation persist peeks
        ⟨⟨space, log, counter⟩, table⟩ =
      let consumeRef := Consume.apply config channels patterns continuation persist
      let wk : WaitingContinuation P K Hash := ⟨patterns, continuation, persist, peeks, consumeRef⟩
      let comms := (table.byConsume.lookup consumeRef.hash).getD []
      match comms.findSome? (replayedConsume config space channels patterns counter) with
      | none =>
        (.ok none, ⟨⟨storeWaitingContinuation spaceStore channels wk space, log, counter⟩, table⟩)
      | some dataCandidates =>
        let commRef := Comm.apply dataCandidates consumeRef peeks counter
        if comms.any (Comm.same · commRef) then
          (.ok (wrapResult channels wk dataCandidates),
            ⟨⟨storePersistentData spaceStore dataCandidates space, log, counter⟩,
              removeBindingsFor table commRef⟩)
        else (.error .replayCommNotInTrace, ⟨⟨space, log, counter⟩, table⟩) := by
  have fits := (accepted_iff channels patterns).mp accepted
  simp only [replayConsume, if_neg fits.1, fits.2, ne_eq, not_true_eq_false, if_false,
    replayLockedConsume, ReplayRSpace.withStore, consume_candidates_rows]
  cases table.byConsume.lookup
      (Consume.apply config channels patterns continuation persist).hash with
  | none | some => rfl

theorem replay_produce_rows {channel : C} {datum : Datum A Hash}
    (origin : datum.source = Produce.apply config channel datum.a datum.persist) :
    replayProduce config spaceStore channel datum.a datum.persist ⟨⟨space, log, counter⟩, table⟩ =
      let comms := (table.byProduce.lookup datum.source.hash).getD []
      let counter := counted counter datum.persist datum.source
      match comms.findSome? (replayedProduce config space channel datum counter) with
      | none => (.ok none, ⟨⟨spaceStore.putDatum channel datum space, log, counter⟩, table⟩)
      | some pc => handleMatch spaceStore pc comms ⟨⟨space, log, counter⟩, table⟩ := by
  obtain ⟨data, persist, _⟩ := datum
  dsimp only at origin
  subst origin
  have joins : spaceStore.getJoins channel space = (space.allJoins channel, space) := rfl
  have counting : (if persist then counter
      else incrementCounter counter (Produce.apply config channel data persist)) =
        counted counter persist (Produce.apply config channel data persist) := rfl
  simp only [replayProduce, replayLockedProduce, ReplayRSpace.withStore, joins, counting,
    produce_candidates_rows]
  cases table.byProduce.lookup (Produce.apply config channel data persist).hash with
  | none | some => rfl

def withLog {Result : Type} (outcome : Result × RSpace (Space C P A K Hash) Hash)
    (log : List (Event Hash)) : Result × RSpace (Space C P A K Hash) Hash :=
  (outcome.1, ⟨outcome.2.store, outcome.2.eventLog ++ log, outcome.2.produceCounter⟩)

theorem perform_log (operation : Operation C P A K) :
    perform config spaceStore ⟨space, log, counter⟩ operation =
      withLog (perform config spaceStore ⟨space, [], counter⟩ operation) log := by
  cases operation with
  | consume channels patterns continuation persist peeks =>
    simp only [perform]
    cases accepted : refusal channels patterns with
    | some =>
      rw [consume_refused config spaceStore accepted, consume_refused config spaceStore accepted]
      rfl
    | none =>
      have fits := (accepted_iff channels patterns).mp accepted
      have rows := fun log => consume_rows config space channels patterns continuation persist peeks
        log counter fits.1 fits.2
      rw [rows, rows]
      dsimp only
      cases matchContinuation config.matcher channels
          (fun channel => some (sortedData (space.data channel))) patterns with
      | none | some => rfl
  | produce channel data persist =>
    simp only [perform]
    rw [produce_rows, produce_rows]
    dsimp only
    cases produceCandidate config space channel
        ⟨data, persist, Produce.apply config channel data persist⟩ with
    | none | some => rfl

theorem run_log (operations : List (Operation C P A K)) :
    runAll (perform config spaceStore) operations ⟨space, log, counter⟩ =
      withLog (runAll (perform config spaceStore) operations ⟨space, [], counter⟩) log := by
  induction operations generalizing space log counter with
  | nil => rfl
  | cons operation operations ih =>
    have step := perform_log config space log counter operation
    rcases outcome : perform config spaceStore ⟨space, [], counter⟩ operation with
      ⟨_, ⟨store, events, count⟩⟩
    rw [outcome] at step
    have longer := ih store (events ++ log) count
    have shorter := ih store events count
    simp only [runAll, withLog, step, outcome, longer, shorter, append_assoc]

def eventsOf (operations : List (Operation C P A K)) : List (Event Hash) :=
  (runAll (perform config spaceStore) operations ⟨space, [], counter⟩).2.eventLog

theorem events_cons {operation : Operation C P A K} {operations : List (Operation C P A K)}
    {result : Except RSpaceError (ActionResult C P A K)} {store : Space C P A K Hash}
    {events : List (Event Hash)} {count : Hash → Nat} (outcome : perform config spaceStore
      ⟨space, [], counter⟩ operation = (result, ⟨store, events, count⟩)) :
    eventsOf config space counter (operation :: operations) =
      eventsOf config store count operations ++ events := by
  have rest := run_log config store events count operations
  simp only [eventsOf, runAll, outcome, rest, withLog]

end Rows

def SettledRun (config : Config C P A K Hash) (operations : List (Operation C P A K))
    (start : RSpace (Space C P A K Hash) Hash) : Prop :=
  Guarded (fun state operation => (perform config spaceStore state operation).2)
    (fun state operation => Settled config state.store operation) operations start

section Simulation

variable {config : Config C P A K Hash} {named : Hash → List C → Prop}
  {operations : List (Operation C P A K)} {space : Space C P A K Hash} {counter : Hash → Nat}

theorem settled_run_log {log other : List (Event Hash)}
    (settled : SettledRun config operations ⟨space, log, counter⟩) :
    SettledRun config operations ⟨space, other, counter⟩ := by
  induction operations generalizing space log other counter with
  | nil => trivial
  | cons _ _ ih =>
    refine ⟨settled.1, ?_⟩
    have tail := settled.2
    dsimp only at tail ⊢
    rw [perform_log] at tail ⊢
    exact ih tail

theorem later_comms (lawful : config.Lawful) (ready : Ready config named space operations)
    (settled : SettledRun config operations ⟨space, [], counter⟩) {comm : Comm Hash}
    (logged : comm ∈ commsOf (eventsOf config space counter operations)) :
    LaterComm config named space counter operations comm := by
  induction operations generalizing space counter with
  | nil => exact absurd logged not_mem_nil
  | cons operation _ ih =>
    have step := play_step config space [] counter operation
    rw [events_cons config space counter rfl, commsOf, filterMap_append, mem_append] at logged
    rcases logged with rest | first
    · exact later_comm_step step (ih (ready_step step lawful ready) (settled_run_log settled.2) rest)
    · exact later_of_step lawful ready settled.1 step first

section Selection

variable {space : Space C P A K Hash} {counter : Hash → Nat}

theorem replayed_subset (comm : Comm Hash) (counter : Hash → Nat) (channel : C)
    (datum : Datum A Hash) (c : C) (data : List (Datum A Hash)) :
    participants comm counter (withReplayed channel datum c data) ⊆
      withProduced channel datum c data := by
  intro _ mem
  have offered := (mem_filter.mp mem).1
  unfold withReplayed at offered
  unfold withProduced
  split_ifs at offered ⊢
  · rcases mem_cons.mp offered with flight | stored
    · exact mem_cons.mpr (.inl flight)
    · exact mem_cons_of_mem _ ((sorted_data_perm data).mem_iff.mpr stored)
  · exact (sorted_data_perm data).mem_iff.mpr offered

variable {patterns : List P} {channel : C} {datum : Datum A Hash}
  {items : List (ConsumeCandidate C A Hash)} {operations : List (Operation C P A K)} {data : A}
  {persist : Bool}

theorem search_join_none_iff
    (select : List (WaitingContinuation P K Hash × Nat) → List (WaitingContinuation P K Hash × Nat))
    (prepare : C → List (Datum A Hash) → List (IndexedDatum A Hash)) (channels : List C) :
    searchJoin config space select prepare channels = none ↔
      ∀ candidate ∈ select (space.allContinuations channels).zipIdx,
        matchContinuation config.matcher channels (fun c => some (prepare c (space.data c)))
          candidate.1.patterns = none := by
  rw [searchJoin, extractFirstMatch, findSome?_eq_none_iff]
  constructor
  · intro failed candidate mem
    exact Option.map_eq_none_iff.mp (failed candidate ((sort_by_key_perm _ _).mem_iff.mpr mem))
  · intro failed candidate mem
    exact Option.map_eq_none_iff.mpr (failed candidate ((sort_by_key_perm _ _).mem_iff.mp mem))

theorem replayed_join_none {channels : List C} (distinct : channels.Nodup)
    (failed : searchJoin config space id (withProduced channel datum) channels = none)
    (comm : Comm Hash) :
    searchJoin config space (ofConsume comm)
      (fun c data => participants comm counter (withReplayed channel datum c data)) channels =
        none := by
  rw [search_join_none_iff] at failed ⊢
  intro candidate mem
  apply match_none_of_subset distinct _ (fun c => withProduced channel datum c (space.data c))
  · intro c _
    exact replayed_subset comm counter channel datum c (space.data c)
  · exact failed candidate (mem_filter.mp mem).1

omit [DecidableEq C] in
theorem participates_formed (items : List (ConsumeCandidate C A Hash)) (consumeRef : Consume Hash)
    (peeks : IndexSet) (counter : Hash → Nat) (datum : Datum A Hash) :
    (Comm.apply items consumeRef peeks counter).participates counter datum = true ↔
      ∃ item ∈ items, item.datum.source.hash = datum.source.hash := by
  rw [← comm_apply_mem items consumeRef peeks counter, Comm.participates, Bool.and_eq_true,
    decide_eq_true_iff]
  constructor
  · exact And.left
  · intro mem
    refine ⟨mem, ?_⟩
    rw [comm_apply_repeated mem]
    simp

theorem select_participant (lawful : config.Lawful) {channels : List C} (distinct : channels.Nodup)
    {data : C → List (IndexedDatum A Hash)} (sourced : SourcedData config data)
    (matched : matchContinuation config.matcher channels (fun c => some (data c)) patterns =
      some items) {pair : C × P} (mem : pair ∈ channels.zip patterns)
    {item : ConsumeCandidate C A Hash}
    (selected : selectDatum config.matcher pair.1 pair.2 (data pair.1) = some item)
    {row : List (Datum A Hash)} (stored : data pair.1 = sortedData row) (consumeRef : Consume Hash)
    (peeks : IndexSet) :
    selectDatum config.matcher pair.1 pair.2
      (participants (Comm.apply items consumeRef peeks counter) counter (indexed row)) =
        some item := by
  have kept : participants (Comm.apply items consumeRef peeks counter) counter (indexed row) =
      (sortedData row).filter fun entry => entry.1.source.hash = item.datum.source.hash := by
    rw [sortedData, sort_filter_key, participants]
    apply filter_congr
    intro entry listed
    have source : entry.1.source = Produce.apply config pair.1 entry.1.a entry.1.persist := by
      apply sourced pair.1 entry
      rw [stored]
      exact (sorted_data_perm row).mem_iff.mpr listed
    have on_channel := source_on_channel lawful distinct sourced matched mem selected
      entry.1.a entry.1.persist
    rw [← source] at on_channel
    rw [Bool.eq_iff_iff, participates_formed, on_channel, decide_eq_true_iff]
    exact eq_comm
  rw [kept, selectDatum]
  rw [stored, selectDatum] at selected
  apply find_some_filter _ _ selected
  intro _ _ accepted
  rcases Option.map_eq_some_iff.mp accepted with ⟨_, _, same⟩
  rw [← same]
  exact decide_eq_true rfl

theorem find_some_transfer {Item Result : Type} {search other : Item → Option Result}
    {items : List Item} {result : Result} (found : items.findSome? search = some result)
    (missed : ∀ item ∈ items, search item = none → other item = none)
    (hit : ∀ item ∈ items, search item = some result → other item = some result) :
    items.findSome? other = some result := by
  induction items with
  | nil => exact found
  | cons item _ ih =>
    rw [findSome?_cons] at found ⊢
    cases outcome : search item with
    | none =>
      rw [outcome] at found
      rw [missed item mem_cons_self outcome]
      exact ih found (fun other mem => missed other (mem_cons_of_mem _ mem))
        (fun other mem => hit other (mem_cons_of_mem _ mem))
    | some =>
      rw [outcome] at found
      rw [hit item mem_cons_self (outcome.trans found)]

theorem sort_of_consume (comm : Comm Hash)
    (candidates : List (WaitingContinuation P K Hash × Nat)) :
    sortByKey (·.1.source.hash) (ofConsume comm candidates) =
      (sortByKey (·.1.source.hash) candidates).filter
        fun candidate => candidate.1.source.hash = comm.consume.hash := by
  rw [sort_filter_key]
  apply List.Pairwise.insertionSort_eq
  apply pairwise_of_forall_mem_list
  intro _ leftMember _ rightMember
  have leftHash := (mem_filter.mp leftMember).2
  have rightHash := (mem_filter.mp rightMember).2
  rw [decide_eq_true_iff] at leftHash rightHash
  exact le_of_eq (leftHash.trans rightHash.symm)

abbrev formedComm (pc : ProduceCandidate C P A K Hash) (counter : Hash → Nat) : Comm Hash :=
  Comm.apply pc.dataCandidates pc.continuation.source pc.continuation.peeks counter

variable {pc : ProduceCandidate C P A K Hash} (lawful : config.Lawful)
  (origin : datum.source = Produce.apply config channel datum.a datum.persist)
  (ready : Ready config named space (.produce channel datum.a datum.persist :: operations))

include lawful origin ready

theorem replayed_produce_same
    (settled : Settled config space (.produce channel datum.a datum.persist))
    (selected : produceCandidate config space channel datum = some pc) :
    replayedProduce config space channel datum counter (formedComm pc counter) = some pc := by
  have found := candidate_found config space selected
  have join := ready.joined channel pc.channels found.1
  have sourced := offered_sourced ready.sourced origin
  -- The match of the selected continuation, over the participating data.
  have rematched : matchContinuation config.matcher pc.channels
      (fun c => some (participants (formedComm pc counter) counter
        (withReplayed channel datum c (space.data c)))) pc.continuation.patterns =
          some pc.dataCandidates := by
    apply match_some_of_select join.2 pc.continuation.patterns _ found.2.2 _
    intro pair mem item _ chosen
    by_cases same : pair.1 = channel
    · rcases pair with ⟨place, _⟩
      dsimp only at same chosen ⊢
      subst same
      rcases flight_source selected join.2 settled mem with
        ⟨flight, present, source, chosen', accepted⟩
      have equal : flight = item := Option.some.inj (chosen'.symm.trans chosen)
      subst equal
      have takes_part : (formedComm pc counter).participates counter datum = true :=
        (participates_formed _ _ _ _ _).mpr ⟨flight, present, by rw [source]⟩
      rw [withReplayed, if_pos rfl, participants, filter_cons, if_pos takes_part, selectDatum,
        findSome?_cons, accepted]
    · have row : withReplayed channel datum pair.1 (space.data pair.1) =
          indexed (space.data pair.1) := if_neg same
      rw [row]
      apply select_participant lawful join.2 sourced found.2.2 mem chosen
      exact if_neg same
  apply find_some_transfer selected
  · intro other mem failed
    exact replayed_join_none (ready.joined channel other mem).2 failed _
  · intro other _ hit
    have place : pc.channels = other := by
      rcases exists_of_findSome?_eq_some hit with ⟨_, _, matched⟩
      rcases Option.map_eq_some_iff.mp matched with ⟨_, _, same⟩
      rw [← same]
    subst place
    rw [searchJoin, extractFirstMatch] at hit ⊢
    rw [sort_of_consume]
    have kept := find_some_filter _
      (fun candidate => decide (candidate.1.source.hash = pc.continuation.source.hash)) hit (by
        intro _ _ outcome
        rcases Option.map_eq_some_iff.mp outcome with ⟨_, _, same⟩
        rw [← same]
        exact decide_eq_true rfl)
    apply find_some_transfer kept
    · intro _ _ outcome
      rw [Option.map_eq_none_iff] at outcome ⊢
      apply match_none_of_subset join.2 _ _ _ _ outcome
      intro c _
      exact replayed_subset _ counter channel _ c (space.data c)
    · intro candidate _ outcome
      rcases Option.map_eq_some_iff.mp outcome with ⟨_, _, same⟩
      have wc : candidate.1 = pc.continuation := by rw [← same]
      have index : candidate.2 = pc.continuationIndex := by rw [← same]
      rw [wc, index, rematched]
      rfl

theorem later_not_formed
    (functional : ∀ hash left right, named hash left → named hash right → left.Perm right)
    {later : Space C P A K Hash} {comm : Comm Hash} (comes : LaterComm config named later
      (counted counter datum.persist datum.source) operations comm) :
    replayedProduce config space channel datum (counted counter datum.persist datum.source) comm =
      none := by
  rw [replayedProduce, findSome?_eq_none_iff]
  intro join joined
  rw [search_join_none_iff]
  intro candidate selected
  rcases mem_filter.mp selected with ⟨listed, consumeHash⟩
  rw [decide_eq_true_iff] at consumeHash
  have waiting : candidate.1 ∈ space.allContinuations join := fst_mem_of_mem_zipIdx listed
  have known := ready.known join candidate.1 waiting
  rcases comes with ⟨operation, mem, same⟩ | ⟨_, source, value, kept, mem,
    ⟨_, named_there, on_join⟩, only, repeated⟩
  · apply absurd same
    rw [← consumeHash]
    exact ready.newConsumes join candidate.1 waiting operation (mem_cons_of_mem _ mem)
  · rw [consumeHash] at known
    have place : source ∈ join := (functional _ _ _ named_there known.1).mem_iff.mp on_join
    rcases exists_pair known.2 place with ⟨pattern, paired⟩
    rw [match_eq_none_iff (ready.joined channel join joined).2]
    refine ⟨(source, pattern), paired, ?_⟩
    intro entry offered
    exfalso
    rcases entry with ⟨⟨offered_value, offered_persist, ref⟩, _⟩
    have sourced : ref = Produce.apply config source offered_value offered_persist :=
      offered_sourced ready.sourced origin source _
        (replayed_subset comm _ channel _ source (space.data source) offered)
    rcases mem_filter.mp offered with ⟨present, takes_part⟩
    rw [Comm.participates, Bool.and_eq_true, decide_eq_true_iff] at takes_part
    subst sourced
    have equal := only offered_value offered_persist takes_part.1
    rcases produce_hash_injective lawful equal with ⟨_, values, flags⟩
    subst values
    subst flags
    cases kept with
    | false =>
      have counts := takes_part.2
      have less := repeated rfl
      rw [Bool.false_or, beq_iff_eq] at counts
      exact absurd counts (Nat.ne_of_lt less)
    | true =>
      have fresh := pairwise_cons.mp ready.unrepeated
      have old : ⟨value, true, Produce.apply config source value true⟩ ∉ space.data source := by
        intro stored
        exact ready.newProduces source _ stored _ (mem_cons_of_mem _ mem) rfl
      unfold withReplayed at present
      split_ifs at present with same
      · rcases mem_cons.mp present with flight | stored
        · cases flight
          subst same
          exact fresh.1 _ mem (.inr ⟨Option.some_ne_none _, rfl⟩)
        · exact old (mem_indexed stored)
      · exact old (mem_indexed present)

omit lawful origin ready in
theorem replayed_produce_congr {left right : Comm Hash} (same : Comm.same left right = true) :
    replayedProduce config space channel datum counter left =
      replayedProduce config space channel datum counter right := by
  rcases of_decide_eq_true same with ⟨consumes, produces, _, repeated⟩
  have select : ofConsume left = (ofConsume right : List (WaitingContinuation P K Hash × Nat) → _) := by
    funext candidates
    rw [ofConsume, ofConsume, consumes]
  have takes_part : left.participates counter = (right.participates counter : Datum A Hash → Bool) := by
    funext datum
    rw [Comm.participates, Comm.participates, produces, Comm.repeated, Comm.repeated, repeated]
  simp only [replayedProduce, select, participants, takes_part]

end Selection

section Step

variable {space : Space C P A K Hash} {counter : Hash → Nat}
  {operation : Operation C P A K} {operations : List (Operation C P A K)}
  {result : Except RSpaceError (ActionResult C P A K)} {next : RSpace (Space C P A K Hash) Hash}
  {consumes produces : List Hash} {later : List (Comm Hash)} {table : ReplayData Hash}

variable {patterns : List P} {continuation : K} {persist : Bool} {peeks : IndexSet}
  {items : List (ConsumeCandidate C A Hash)}

variable {channels : List C} {consumeRef : Consume Hash}
  (origin : consumeRef = Consume.apply config channels patterns continuation persist)
  (ready : Ready config named space
    (.consume channels patterns continuation persist peeks :: operations))

section

include origin ready

theorem later_other_consume {comm : Comm Hash}
    (comes : LaterComm config named (storePersistentData spaceStore items space) counter operations
      comm) : comm.consume.hash ≠ consumeRef.hash := by
  intro same
  rw [origin] at same
  rcases comes with ⟨other, mem, hash⟩ | ⟨⟨place, wc, waiting, hash⟩, _⟩
  · apply (pairwise_cons.mp ready.unrepeated).1 other mem
    rw [same] at hash
    exact .inl ⟨Option.some_ne_none _, hash.symm⟩
  · rw [store_persistent_data_rows] at waiting
    apply ready.newConsumes place wc waiting _ mem_cons_self
    rw [hash, same]
    rfl

theorem replay_take (lawful : config.Lawful) (accepted : refusal channels patterns = none)
    (matched : matchContinuation config.matcher channels
      (fun channel => some (sortedData (space.data channel))) patterns = some items)
    (comes : ∀ comm ∈ later, LaterComm config named (storePersistentData spaceStore items space)
      counter operations comm)
    (bound : consumeRef.hash ∈ consumes) (rigged : Rigged consumes produces
      (later ++ [Comm.apply items consumeRef peeks counter]) table) :
    let rest := removeBindingsFor table (Comm.apply items consumeRef peeks counter)
    replayConsume config spaceStore channels patterns continuation persist peeks
        ⟨⟨space, [], counter⟩, table⟩ =
      (.ok (wrapResult channels ⟨patterns, continuation, persist, peeks, consumeRef⟩ items),
        ⟨⟨storePersistentData spaceStore items space, [], counter⟩, rest⟩) ∧
      Rigged consumes produces later rest := by
  have distinct := (ready.listing channels patterns continuation persist peeks mem_cons_self).1
  have others : ∀ comm ∈ later, comm.consume.hash ≠ consumeRef.hash := fun comm mem =>
    later_other_consume origin ready (comes comm mem)
  have row : (table.byConsume.lookup consumeRef.hash).getD [] =
      [Comm.apply items consumeRef peeks counter] := by
    rw [rigged.consume, listed_get_d, boundToConsume, if_pos bound, filter_append,
      filter_eq_nil_iff.mpr fun comm mem => by simpa using others comm mem]
    simp [Comm.apply]
  have again : replayedConsume config space channels patterns counter
      (Comm.apply items consumeRef peeks counter) = some items := by
    apply match_some_of_select distinct patterns (fun channel => sortedData (space.data channel))
      matched _
    intro _ mem _ _ selected
    exact select_participant lawful distinct (stored_sourced ready.sourced) matched mem selected
      rfl consumeRef peeks
  constructor
  · subst origin
    rw [replay_consume_rows config space [] counter table accepted]
    simp only [row, findSome?_cons, any_cons, comm_same_self, again, Bool.true_or, if_true]
  · apply remove_bindings_rigged _ rigged
    intro other mem
    apply decide_eq_false
    rintro ⟨same, _⟩
    exact others other mem same

end

variable (lawful : config.Lawful)
  (functional : ∀ hash left right, named hash left → named hash right → left.Perm right)
include lawful functional

theorem replay_fire {channel : C} {datum : Datum A Hash}
    (origin : datum.source = Produce.apply config channel datum.a datum.persist)
    (ready : Ready config named space (.produce channel datum.a datum.persist :: operations))
    (settled : Settled config space (.produce channel datum.a datum.persist))
    {pc : ProduceCandidate C P A K Hash}
    (selected : produceCandidate config space channel datum = some pc)
    {after : Space C P A K Hash} {counted : Hash → Nat}
    (counts : counted = TupleSpace.counted counter datum.persist datum.source)
    (comes : ∀ comm ∈ later, LaterComm config named after counted operations comm)
    (bound : datum.source.hash ∈ produces)
    (rigged : Rigged consumes produces (later ++ [formedComm pc counted]) table) :
    ∃ rest, replayProduce config spaceStore channel datum.a datum.persist
        ⟨⟨space, [], counter⟩, table⟩ =
      (.ok (wrapResult pc.channels pc.continuation pc.dataCandidates),
        ⟨⟨removeMatchedDatumAndJoin spaceStore pc.channels pc.dataCandidates
          (withoutMatched space pc), [], counted⟩, rest⟩) ∧
      Rigged consumes produces later rest := by
  have found := candidate_found config space selected
  have join := ready.joined channel pc.channels found.1
  have known := ready.known pc.channels pc.continuation (candidate_waiting selected)
  rcases exists_pair known.2 join.1 with ⟨_, paired⟩
  rcases flight_source selected join.2 settled paired with ⟨item, listing, source, _⟩
  generalize formed_eq : formedComm pc counted = formed at rigged
  have mem : datum.source.hash ∈ formed.produces.map (·.hash) := by
    rw [← formed_eq]
    exact (comm_apply_mem _ _ _ _ _).mpr ⟨item, listing, by rw [source]⟩
  have unformed : ∀ comm ∈ later, replayedProduce config space channel datum counted comm = none := by
    intro comm present
    rw [counts] at comes ⊢
    exact later_not_formed lawful origin ready functional (comes comm present)
  have forms : replayedProduce config space channel datum counted formed = some pc := by
    rw [← formed_eq]
    exact replayed_produce_same lawful origin ready settled selected
  have different : ∀ other ∈ later, Comm.same other formed = false := by
    intro other present
    by_contra equal
    rw [Bool.not_eq_false] at equal
    have missing := unformed other present
    rw [replayed_produce_congr equal, forms] at missing
    exact absurd missing (by nofun)
  -- The comms bound to the produce: later ones, then copies of the one being formed.
  have row : (table.byProduce.lookup datum.source.hash).getD [] =
      later.flatMap (fun comm => replicate (comm.uses datum.source.hash) comm) ++
        replicate (formed.uses datum.source.hash) formed := by
    rw [rigged.produce, listed_get_d, boundToProduce, if_pos bound, flatMap_append]
    simp
  have used : formed.uses datum.source.hash ≠ 0 :=
    Nat.pos_iff_ne_zero.mp (count_pos_iff.mpr mem)
  have first : ((table.byProduce.lookup datum.source.hash).getD []).findSome?
      (replayedProduce config space channel datum counted) = some pc := by
    obtain ⟨_, copies⟩ := Nat.exists_eq_succ_of_ne_zero used
    rw [row, findSome?_append, findSome?_eq_none_iff.mpr, Option.none_or, copies,
      replicate_succ, findSome?_cons, forms]
    intro _ present
    rcases mem_flatMap.mp present with ⟨original, listed, copy⟩
    rw [(mem_replicate.mp copy).2]
    exact unformed original listed
  refine ⟨removeBindingsFor table formed, ?_, remove_bindings_rigged different rigged⟩
  have recorded : ((table.byProduce.lookup datum.source.hash).getD []).any (Comm.same · formed) =
      true := by
    rw [any_eq_true]
    refine ⟨formed, ?_, comm_same_self formed⟩
    rw [row]
    exact mem_append_right _ (mem_replicate.mpr ⟨used, rfl⟩)
  rw [replay_produce_rows config space [] counter table origin]
  simp only [← counts, first, handleMatch, formed_eq, recorded, if_true]
  rfl

theorem replay_step (ready : Ready config named space (operation :: operations))
    (settled : Settled config space operation)
    (step : PlayStep config space [] counter operation result next)
    (comes : ∀ comm ∈ later, LaterComm config named next.store next.produceCounter operations comm)
    (consumed : ∀ hash ∈ consumesOf next.eventLog, hash ∈ consumes)
    (produced : ∀ hash ∈ producesOf next.eventLog, hash ∈ produces)
    (rigged : Rigged consumes produces (later ++ commsOf next.eventLog) table) :
    ∃ rest, replayPerform config spaceStore ⟨⟨space, [], counter⟩, table⟩ operation =
        (result, ⟨⟨next.store, [], next.produceCounter⟩, rest⟩) ∧
      Rigged consumes produces later rest := by
  cases step with
  | refuse _ _ continuation persist peeks _ refused =>
    rw [commsOf, filterMap_nil, append_nil] at rigged
    refine ⟨table, ?_, rigged⟩
    unfold refusal at refused
    simp only [replayPerform, replayConsume]
    split_ifs at refused ⊢
    · cases refused
      rfl
    · cases refused
      rfl
  | wait channels patterns continuation persist peeks accepted unmatched =>
    have plain : Rigged consumes produces (later ++ []) table := rigged
    rw [append_nil] at plain
    have distinct := (ready.listing channels patterns continuation persist peeks mem_cons_self).1
    have nothing : ((table.byConsume.lookup
        (Consume.apply config channels patterns continuation persist).hash).getD []).findSome?
        (replayedConsume config space channels patterns counter) = none :=
      findSome?_eq_none_iff.mpr fun comm _ => match_none_of_subset distinct patterns
        (fun channel => sortedData (space.data channel)) _
        (fun _ _ _ mem => (sorted_data_perm _).mem_iff.mpr (mem_filter.mp mem).1) unmatched
    refine ⟨table, ?_, plain⟩
    rw [replayPerform, replay_consume_rows config space [] counter table accepted]
    simp only [nothing]
  | take _ _ _ _ _ accepted _ matched =>
    have bound := consumed _ mem_cons_self
    exact ⟨_, replay_take rfl ready lawful accepted matched comes bound rigged⟩
  | store channel data persist unmatched =>
    have plain : Rigged consumes produces (later ++ []) table := rigged
    rw [append_nil] at plain
    refine ⟨table, ?_, plain⟩
    have rows := replay_produce_rows config space [] counter table
      (rfl : (⟨data, persist, Produce.apply config channel data persist⟩ : Datum A Hash).source = _)
    rw [replayPerform, rows]
    dsimp only
    rw [produceCandidate, findSome?_eq_none_iff] at unmatched
    rw [findSome?_eq_none_iff.mpr]
    intro comm _
    rw [replayedProduce, findSome?_eq_none_iff]
    intro join mem
    exact replayed_join_none (ready.joined channel join mem).2 (unmatched join mem) comm
  | fire _ _ _ _ selected =>
    have bound := produced _ mem_cons_self
    exact replay_fire lawful functional rfl ready settled selected rfl comes bound rigged

end Step

theorem replay_run (lawful : config.Lawful)
    (functional : ∀ hash left right, named hash left → named hash right → left.Perm right)
    (ready : Ready config named space operations)
    (settled : SettledRun config operations ⟨space, [], counter⟩) {consumes produces : List Hash}
    {table : ReplayData Hash}
    (consumed : ∀ hash ∈ consumesOf (eventsOf config space counter operations), hash ∈ consumes)
    (produced : ∀ hash ∈ producesOf (eventsOf config space counter operations), hash ∈ produces)
    (rigged : Rigged consumes produces (commsOf (eventsOf config space counter operations)) table) :
    let played := runAll (perform config spaceStore) operations ⟨space, [], counter⟩
    ∃ rest, runAll (replayPerform config spaceStore) operations ⟨⟨space, [], counter⟩, table⟩ =
        (played.1, ⟨⟨played.2.store, [], played.2.produceCounter⟩, rest⟩) ∧
      Rigged consumes produces [] rest := by
  induction operations generalizing space counter table with
  | nil => exact ⟨table, rfl, rigged⟩
  | cons operation operations ih =>
    have step := play_step config space [] counter operation
    rcases outcome : perform config spaceStore ⟨space, [], counter⟩ operation with
      ⟨_, ⟨store, events, count⟩⟩
    rw [outcome] at step
    have ready_next := ready_step step lawful ready
    have settled_next : SettledRun config operations ⟨store, [], count⟩ := by
      have tail := settled.2
      dsimp only at tail
      rw [outcome] at tail
      exact settled_run_log tail
    rw [events_cons config space counter outcome] at consumed produced rigged
    simp only [consumesOf, producesOf, commsOf, filterMap_append] at consumed produced rigged
    rcases replay_step lawful functional ready settled.1 step
      (fun comm mem => later_comms lawful ready_next settled_next mem)
      (fun hash mem => consumed hash (mem_append_right _ mem))
      (fun hash mem => produced hash (mem_append_right _ mem)) rigged with
      ⟨_, replayed, remaining⟩
    rcases ih ready_next settled_next (fun hash mem => consumed hash (mem_append_left _ mem))
      (fun hash mem => produced hash (mem_append_left _ mem)) remaining with
      ⟨final, run, empty⟩
    refine ⟨final, ?_, empty⟩
    have played := run_log config store events count operations
    simp only [runAll, withLog, replayed, outcome, run, played]

end Simulation

def Operation.channels : Operation C P A K → List C
  | .consume channels _ _ _ _ => channels
  | .produce _ _ _ => []

/-- Rows as the operations of a tuple space leave them: data and continuations carry the events
they came from. -/
structure WellSourced (config : Config C P A K Hash) (space : Space C P A K Hash) : Prop where
  data : ∀ channel, ∀ datum ∈ space.data channel,
    datum.source = Produce.apply config channel datum.a datum.persist
  aligned : ∀ channels, ∀ wc ∈ space.allContinuations channels,
    wc.patterns.length = channels.length
  identified : ∀ left right, ∀ wc ∈ space.allContinuations left,
    ∀ other ∈ space.allContinuations right, wc.source.hash = other.source.hash → left.Perm right
  joined : ∀ channel, ∀ join ∈ space.allJoins channel, channel ∈ join

/-- Joins list no channel twice, and no consume and no persistent produce of the run happened
before, in the run or in what the rows hold. -/
structure Replayable (config : Config C P A K Hash) (space : Space C P A K Hash)
    (operations : List (Operation C P A K)) : Prop where
  joins : ∀ channel, ∀ join ∈ space.allJoins channel, join.Nodup
  distinct : ∀ operation ∈ operations, operation.channels.Nodup
  newConsumes : ∀ channels, ∀ wc ∈ space.allContinuations channels, ∀ operation ∈ operations,
    operation.consumeHash config ≠ some wc.source.hash
  newProduces : ∀ channel, ∀ datum ∈ space.data channel, ∀ operation ∈ operations,
    operation.persistentHash config ≠ some datum.source.hash
  unrepeated : operations.Pairwise fun earlier later => ¬ Repeats config earlier later

section Main

variable {config : Config C P A K Hash} {space : Space C P A K Hash}
  {operations : List (Operation C P A K)}

/-- The channels that the consume of a hash names, in the rows or in the run. -/
def namedChannels (config : Config C P A K Hash) (space : Space C P A K Hash)
    (operations : List (Operation C P A K)) (hash : Hash) (channels : List C) : Prop :=
  (∃ wc ∈ space.allContinuations channels, wc.source.hash = hash) ∨
    ∃ operation ∈ operations, operation.consumeHash config = some hash ∧
      operation.channels = channels

omit [DecidableEq C] in
theorem named_channels_perm (sourced : WellSourced config space)
    (replayable : Replayable config space operations) (hash : Hash) (left right : List C)
    (first : namedChannels config space operations hash left)
    (second : namedChannels config space operations hash right) : left.Perm right := by
  rcases first with ⟨wc, waiting, same⟩ | ⟨operation, mem, same, listed⟩
  · rcases second with ⟨other, stored, equal⟩ | ⟨operation, mem, equal, _⟩
    · exact sourced.identified left right wc waiting other stored (same.trans equal.symm)
    · rw [← same] at equal
      exact absurd equal (replayable.newConsumes left wc waiting operation mem)
  · rcases second with ⟨wc, waiting, equal⟩ | ⟨other, present, equal, elsewhere⟩
    · rw [← equal] at same
      exact absurd same (replayable.newConsumes right wc waiting operation mem)
    · have symmetric : Std.Symm fun earlier later : Operation C P A K =>
          ¬ Repeats config earlier later := by
        constructor
        intro _ _ apart repeats
        apply apart
        rcases repeats with ⟨present, equal⟩ | ⟨present, equal⟩
        · exact .inl ⟨equal ▸ present, equal.symm⟩
        · exact .inr ⟨equal ▸ present, equal.symm⟩
      by_cases one : operation = other
      · rw [← listed, ← elsewhere, one]
      · apply absurd (.inl ⟨by rw [same]; exact Option.some_ne_none _, same.trans equal.symm⟩)
          (replayable.unrepeated.forall mem present one)

omit [DecidableEq C] in
theorem ready_of_replayable (sourced : WellSourced config space)
    (replayable : Replayable config space operations) :
    Ready config (namedChannels config space operations) space operations where
  sourced := sourced.data
  known := fun channels wc waiting =>
    ⟨.inl ⟨wc, waiting, rfl⟩, sourced.aligned channels wc waiting⟩
  joined := fun channel join mem =>
    ⟨sourced.joined channel join mem, replayable.joins channel join mem⟩
  newConsumes := replayable.newConsumes
  newProduces := replayable.newProduces
  unrepeated := replayable.unrepeated
  listing := fun _ _ _ _ _ mem =>
    ⟨replayable.distinct _ mem, .inr ⟨_, mem, rfl, rfl⟩⟩

/-- A replay rigged with the log of a play run gives the same results, leaves the same rows and
uses every recorded COMM. -/
theorem replay_matches_play (lawful : config.Lawful) (reader : HistoryReader C P A K Hash)
    (start : HotStoreState C P A K Hash) (operations : List (Operation C P A K))
    (sourced : WellSourced config (view reader start))
    (replayable : Replayable config (view reader start) operations)
    (settled : Guarded (fun state operation => (perform config (inMemHotStore reader) state
        operation).2) (fun state operation => Settled config (view reader state.store) operation)
      operations ⟨start, [], fun _ => 0⟩) :
    let played := runAll (perform config (inMemHotStore reader)) operations
      ⟨start, [], fun _ => 0⟩
    let replayed := runAll (replayPerform config (inMemHotStore reader)) operations
      (rig start played.2.eventLog)
    replayed.1 = played.1 ∧ view reader replayed.2.space.store = view reader played.2.store ∧
      checkReplayData replayed.2 = true := by
  intro played replayed
  have morphism := view_morphism reader
  have play : runAll (perform config spaceStore) operations
      ⟨view reader start, [], fun _ => 0⟩ = (played.1, played.2.map (view reader)) :=
    run_all_map (RSpace.map (view reader)) (perform_morphism config morphism) operations
      ⟨start, [], fun _ => 0⟩
  have replay : runAll (replayPerform config spaceStore) operations
      ⟨⟨view reader start, [], fun _ => 0⟩, buildReplayData played.2.eventLog⟩ =
        (replayed.1, replayed.2.map (view reader)) :=
    run_all_map (ReplayRSpace.map (view reader)) (replay_perform_morphism config morphism)
      operations (rig start played.2.eventLog)
  have guarded : SettledRun config operations ⟨view reader start, [], fun _ => 0⟩ :=
    guarded_map (RSpace.map (view reader))
      (fun state operation => congrArg Prod.snd (perform_morphism config morphism state operation))
      (fun _ _ met => met) operations ⟨start, [], fun _ => 0⟩ settled
  have events : eventsOf config (view reader start) (fun _ => 0) operations =
      played.2.eventLog := by
    rw [eventsOf, play]
    rfl
  have rigged := build_rigged played.2.eventLog
  rcases replay_run lawful (named_channels_perm sourced replayable)
    (ready_of_replayable sourced replayable) guarded
    (by rw [events]; exact fun _ member => member)
    (by rw [events]; exact fun _ member => member)
    (by rw [events]; exact rigged) with ⟨rest, same, empty⟩
  rw [replay, play] at same
  rcases Prod.ext_iff.mp same with ⟨results, states⟩
  refine ⟨results, congrArg (fun state => state.space.store) states, ?_⟩
  have table : replayed.2.replayData = rest := congrArg ReplayRSpace.replayData states
  rw [checkReplayData, table]
  exact rigged_empty empty

end Main

/-- A join, two equal produces, a match through the join and a persistent consume with a
peek. -/
def mixedRun : List (Operation Nat Nat Nat Nat) :=
  [.consume [1, 2] [0, 0] 7 false IndexSet.empty, .produce 1 5 false, .produce 1 5 false,
    .produce 2 6 false, .produce 3 4 true, .consume [1, 3] [5, 0] 8 true IndexSet.first]

omit [LinearOrder Hash] in
theorem empty_well_sourced (config : Config C P A K Hash) :
    WellSourced config (view HistoryReader.empty HotStoreState.empty) where
  data := fun _ _ stored => absurd stored not_mem_nil
  aligned := fun _ _ waiting => absurd waiting not_mem_nil
  identified := fun _ _ _ waiting => absurd waiting not_mem_nil
  joined := fun _ _ joined => absurd joined not_mem_nil

theorem mixed_run_replayable :
    Replayable naturalConfig (view HistoryReader.empty HotStoreState.empty) mixedRun where
  joins := fun _ _ joined => absurd joined not_mem_nil
  distinct := by decide
  newConsumes := fun _ _ waiting => absurd waiting not_mem_nil
  newProduces := fun _ _ stored => absurd stored not_mem_nil
  unrepeated := by decide +kernel

theorem replay_matches_play_mixed_run :
    let played := runAll (perform naturalConfig (inMemHotStore HistoryReader.empty)) mixedRun
      ⟨HotStoreState.empty, [], fun _ => 0⟩
    let replayed := runAll (replayPerform naturalConfig (inMemHotStore HistoryReader.empty))
      mixedRun (rig HotStoreState.empty played.2.eventLog)
    replayed.1 = played.1 ∧
      view HistoryReader.empty replayed.2.space.store = view HistoryReader.empty played.2.store ∧
      checkReplayData replayed.2 = true :=
  replay_matches_play natural_lawful HistoryReader.empty HotStoreState.empty mixedRun
    (empty_well_sourced naturalConfig) mixed_run_replayable (by decide +kernel)

/-- Two data on one channel, then a consume that takes both of them. -/
def repeatedChannel : List (Operation Nat Nat Nat Nat) :=
  [.produce 1 5 false, .produce 1 6 false, .consume [1, 1] [0, 0] 7 false IndexSet.empty]

/-- Play tries the data in the order of their hashes, replay in the order of the store: the two
patterns get the data the other way round. -/
theorem replay_swaps_repeated_channel :
    let played := runAll (perform naturalConfig (inMemHotStore HistoryReader.empty))
      repeatedChannel RSpace.fresh
    let replayed := runAll (replayPerform naturalConfig (inMemHotStore HistoryReader.empty))
      repeatedChannel (rig HotStoreState.empty played.2.eventLog)
    played.1.map Except.toOption ≠ replayed.1.map Except.toOption := by
  decide +kernel

end RChain.TupleSpace
