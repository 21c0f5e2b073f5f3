import RChain.RSpace.Refinement

/-!
# The replay tuple space

Source: `rspace/src/replay_rspace.rs`.

A replay space is rigged with the log of a play space. A consume or a produce is run
against the COMM events that the log records for it: the first of them that can be
formed from the present data and continuations is taken, and the COMM formed must be
one of the recorded ones. `checkReplayData` fails when a recorded COMM was not used.
A produce or a consume is looked up by its hash.
-/

namespace RChain.TupleSpace

/-- The recorded COMM events of each consume and of each produce. -/
structure ReplayData (Hash : Type) where
  byConsume : AList (fun _ : Hash => List (Comm Hash))
  byProduce : AList (fun _ : Hash => List (Comm Hash))

variable {State Other C P A K Hash : Type} [DecidableEq C] [LinearOrder Hash]

def bindComm (table : AList (fun _ : Hash => List (Comm Hash))) (key : Hash) (comm : Comm Hash) :
    AList (fun _ : Hash => List (Comm Hash)) :=
  table.insert key ((table.lookup key).getD [] ++ [comm])

/-- The body shared by `remove_consume_binding` and `remove_produce_binding`. -/
def removeBinding (table : AList (fun _ : Hash => List (Comm Hash))) (key : Hash)
    (comm : Comm Hash) : AList (fun _ : Hash => List (Comm Hash)) :=
  match table.lookup key with
  | none => table
  | some comms =>
    if (comms.eraseP (Comm.same · comm)).isEmpty then table.erase key
    else table.insert key (comms.eraseP (Comm.same · comm))

def producesOf (log : List (Event Hash)) : List Hash :=
  log.filterMap fun event =>
    match event with
    | .produce produce => some produce.hash
    | _ => none

def consumesOf (log : List (Event Hash)) : List Hash :=
  log.filterMap fun event =>
    match event with
    | .consume consume => some consume.hash
    | _ => none

def commsOf (log : List (Event Hash)) : List (Comm Hash) :=
  log.filterMap fun event =>
    match event with
    | .comm comm => some comm
    | _ => none

/-- Bind a COMM to its consume and its produces, as far as these are events of the log. -/
def bindEvents (consumes produces : List Hash) (data : ReplayData Hash) (comm : Comm Hash) :
    ReplayData Hash where
  byConsume :=
    if comm.consume.hash ∈ consumes then bindComm data.byConsume comm.consume.hash comm
    else data.byConsume
  byProduce := comm.produces.foldl
    (fun table produce => if produce.hash ∈ produces then bindComm table produce.hash comm
      else table)
    data.byProduce

def buildReplayData (log : List (Event Hash)) : ReplayData Hash :=
  (commsOf log).foldl (bindEvents (consumesOf log) (producesOf log)) ⟨∅, ∅⟩

def removeBindingsFor (data : ReplayData Hash) (comm : Comm Hash) : ReplayData Hash where
  byConsume := removeBinding data.byConsume comm.consume.hash comm
  byProduce := comm.produces.foldl (fun table produce => removeBinding table produce.hash comm)
    data.byProduce

def ReplayData.isEmpty (data : ReplayData Hash) : Bool :=
  data.byConsume.entries.isEmpty && data.byProduce.entries.isEmpty

structure ReplayRSpace (State Hash : Type) where
  space : RSpace State Hash
  replayData : ReplayData Hash

def Comm.repeated (comm : Comm Hash) (hash : Hash) : Nat :=
  ((comm.timesRepeated.find? fun entry => entry.1 = hash).map (·.2)).getD 0

def Comm.participates (comm : Comm Hash) (counter : Hash → Nat) (datum : Datum A Hash) : Bool :=
  decide (datum.source.hash ∈ comm.produces.map (·.hash)) &&
    (datum.persist || counter datum.source.hash == comm.repeated datum.source.hash)

def participants (comm : Comm Hash) (counter : Hash → Nat) (data : List (IndexedDatum A Hash)) :
    List (IndexedDatum A Hash) :=
  data.filter fun entry => comm.participates counter entry.1

variable (config : Config C P A K Hash) (store : HotStore State C P A K Hash)

def runMatcherConsume (channels : List C) (patterns : List P) (counter : Hash → Nat)
    (comm : Comm Hash) (state : State) : Option (List (ConsumeCandidate C A Hash)) × State :=
  let (channelToIndexedData, next) :=
    fetchData store (fun _ data => participants comm counter (indexed data)) channels state
  (matchContinuation config.matcher channels channelToIndexedData patterns, next)

/-- The data a replayed produce offers: the datum being produced first on its own channel, then
the stored data as they lie in the store. -/
def withReplayed (channel : C) (datum : Datum A Hash) (c : C) (data : List (Datum A Hash)) :
    List (IndexedDatum A Hash) :=
  if c = channel then (datum, -1) :: indexed data else indexed data

def ofConsume (comm : Comm Hash) (candidates : List (WaitingContinuation P K Hash × Nat)) :
    List (WaitingContinuation P K Hash × Nat) :=
  candidates.filter fun candidate => candidate.1.source.hash = comm.consume.hash

def runMatcherProduce (channel : C) (datum : Datum A Hash) (groupedChannels : List (List C))
    (counter : Hash → Nat) (comm : Comm Hash) (state : State) :
    Option (ProduceCandidate C P A K Hash) × State :=
  searchJoins config store (ofConsume comm)
    (fun c data => participants comm counter (withReplayed channel datum c data))
    groupedChannels state

def firstComm {Candidate : Type} (run : Comm Hash → State → Option Candidate × State) :
    List (Comm Hash) → State → Option Candidate × State
  | [], state => (none, state)
  | comm :: comms, state =>
    match run comm state with
    | (some candidate, next) => (some candidate, next)
    | (none, next) => firstComm run comms next

def getCommAndConsumeCandidates (channels : List C) (patterns : List P) (counter : Hash → Nat) :
    List (Comm Hash) → State → Option (List (ConsumeCandidate C A Hash)) × State :=
  firstComm (runMatcherConsume config store channels patterns counter)

def getCommOrProduceCandidate (channel : C) (datum : Datum A Hash) (groupedChannels : List (List C))
    (counter : Hash → Nat) :
    List (Comm Hash) → State → Option (ProduceCandidate C P A K Hash) × State :=
  firstComm (runMatcherProduce config store channel datum groupedChannels counter)

def ReplayRSpace.withStore (replay : ReplayRSpace State Hash) (state : State) :
    ReplayRSpace State Hash :=
  { replay with space := { replay.space with store := state } }

def replayLockedConsume (channels : List C) (patterns : List P) (continuation : K) (persist : Bool)
    (peeks : IndexSet) (consumeRef : Consume Hash) (replay : ReplayRSpace State Hash) :
    Except RSpaceError (ActionResult C P A K) × ReplayRSpace State Hash :=
  let wk : WaitingContinuation P K Hash :=
    { patterns := patterns, continuation := continuation, persist := persist, peeks := peeks,
      source := consumeRef }
  let counter := replay.space.produceCounter
  match replay.replayData.byConsume.lookup consumeRef.hash with
  | none => (.ok none,
      replay.withStore (storeWaitingContinuation store channels wk replay.space.store))
  | some comms =>
    let (found, next) := getCommAndConsumeCandidates config store channels patterns counter comms
      replay.space.store
    match found with
    | none => (.ok none, replay.withStore (storeWaitingContinuation store channels wk next))
    | some dataCandidates =>
      let commRef := Comm.apply dataCandidates consumeRef peeks counter
      if comms.any (Comm.same · commRef) then
        (.ok (wrapResult channels wk dataCandidates),
          { space := { replay.space with store := storePersistentData store dataCandidates next }
            replayData := removeBindingsFor replay.replayData commRef })
      else (.error .replayCommNotInTrace, replay.withStore next)

def handleMatch (pc : ProduceCandidate C P A K Hash) (comms : List (Comm Hash))
    (replay : ReplayRSpace State Hash) :
    Except RSpaceError (ActionResult C P A K) × ReplayRSpace State Hash :=
  let wk := pc.continuation
  let commRef := Comm.apply pc.dataCandidates wk.source wk.peeks replay.space.produceCounter
  if comms.any (Comm.same · commRef) then
    let withoutContinuation :=
      if wk.persist then replay.space.store
      else store.removeContinuation pc.channels pc.continuationIndex replay.space.store
    (.ok (wrapResult pc.channels wk pc.dataCandidates),
      { space :=
          { replay.space with
            store := removeMatchedDatumAndJoin store pc.channels pc.dataCandidates
              withoutContinuation }
        replayData := removeBindingsFor replay.replayData commRef })
  else (.error .replayCommNotInTrace, replay)

def replayLockedProduce (channel : C) (data : A) (persist : Bool) (produceRef : Produce Hash)
    (replay : ReplayRSpace State Hash) :
    Except RSpaceError (ActionResult C P A K) × ReplayRSpace State Hash :=
  let (groupedChannels, read) := store.getJoins channel replay.space.store
  let counter :=
    if persist then replay.space.produceCounter
    else incrementCounter replay.space.produceCounter produceRef
  let counted : ReplayRSpace State Hash :=
    { replay with space := { replay.space with store := read, produceCounter := counter } }
  let datum : Datum A Hash := { a := data, persist := persist, source := produceRef }
  match replay.replayData.byProduce.lookup produceRef.hash with
  | none => (.ok none, counted.withStore (store.putDatum channel datum read))
  | some comms =>
    let (found, next) := getCommOrProduceCandidate config store channel datum groupedChannels
      counter comms read
    match found with
    | none => (.ok none, counted.withStore (store.putDatum channel datum next))
    | some pc => handleMatch store pc comms (counted.withStore next)

def replayConsume (channels : List C) (patterns : List P) (continuation : K) (persist : Bool)
    (peeks : IndexSet) (replay : ReplayRSpace State Hash) :
    Except RSpaceError (ActionResult C P A K) × ReplayRSpace State Hash :=
  if channels = [] then (.error .channelsEmpty, replay)
  else if channels.length ≠ patterns.length then (.error .lengthMismatch, replay)
  else
    replayLockedConsume config store channels patterns continuation persist peeks
      (Consume.apply config channels patterns continuation persist) replay

def replayProduce (channel : C) (data : A) (persist : Bool) (replay : ReplayRSpace State Hash) :
    Except RSpaceError (ActionResult C P A K) × ReplayRSpace State Hash :=
  -- The second locking phase reads the joins once more.
  let read := (store.getJoins channel replay.space.store).2
  replayLockedProduce config store channel data persist
    (Produce.apply config channel data persist) (replay.withStore read)

def replayPerform (replay : ReplayRSpace State Hash) :
    Operation C P A K → Except RSpaceError (ActionResult C P A K) × ReplayRSpace State Hash
  | .consume channels patterns continuation persist peeks =>
    replayConsume config store channels patterns continuation persist peeks replay
  | .produce channel data persist => replayProduce config store channel data persist replay

def rig (state : State) (log : List (Event Hash)) : ReplayRSpace State Hash where
  space := ⟨state, [], fun _ => 0⟩
  replayData := buildReplayData log

def checkReplayData (replay : ReplayRSpace State Hash) : Bool :=
  replay.replayData.isEmpty

def ReplayRSpace.map (map : State → Other) (replay : ReplayRSpace State Hash) :
    ReplayRSpace Other Hash where
  space := replay.space.map map
  replayData := replay.replayData

section Morphism

variable {source : HotStore State C P A K Hash} {target : HotStore Other C P A K Hash}
  {map : State → Other} (config : Config C P A K Hash)

omit [LinearOrder Hash] in
theorem first_comm_morphism {Candidate : Type} {run : Comm Hash → State → Option Candidate × State}
    {other : Comm Hash → Other → Option Candidate × Other}
    (each : ∀ comm state, other comm (map state) = ((run comm state).1, map (run comm state).2))
    (comms : List (Comm Hash)) (state : State) :
    firstComm other comms (map state) =
      ((firstComm run comms state).1, map (firstComm run comms state).2) := by
  induction comms generalizing state with
  | nil => rfl
  | cons comm _ ih =>
    simp only [firstComm, each]
    generalize run comm state = found
    cases found with
    | mk candidate next =>
      cases candidate with
      | none => exact ih next
      | some => rfl

section

variable (morphism : StoreMorphism source target map)

include morphism

theorem consume_candidates_morphism (channels : List C) (patterns : List P) (counter : Hash → Nat)
    (comms : List (Comm Hash)) (state : State) :
    getCommAndConsumeCandidates config target channels patterns counter comms (map state) =
      ((getCommAndConsumeCandidates config source channels patterns counter comms state).1,
        map (getCommAndConsumeCandidates config source channels patterns counter comms state).2) := by
  apply first_comm_morphism
  intro _ _
  simp only [runMatcherConsume, fetch_data_morphism morphism]

theorem produce_candidates_morphism (channel : C) (datum : Datum A Hash) (grouped : List (List C))
    (counter : Hash → Nat) (comms : List (Comm Hash)) (state : State) :
    getCommOrProduceCandidate config target channel datum grouped counter comms (map state) =
      ((getCommOrProduceCandidate config source channel datum grouped counter comms state).1,
        map (getCommOrProduceCandidate config source channel datum grouped counter comms state).2) :=
  first_comm_morphism (fun _ _ => search_joins_morphism config morphism _ _ _ _) comms state

theorem replay_consume_morphism (channels : List C) (patterns : List P) (continuation : K)
    (persist : Bool) (peeks : IndexSet) (replay : ReplayRSpace State Hash) :
    replayConsume config target channels patterns continuation persist peeks (replay.map map) =
      ((replayConsume config source channels patterns continuation persist peeks replay).1,
        (replayConsume config source channels patterns continuation persist peeks replay).2.map
          map) := by
  unfold replayConsume
  split_ifs
  · rfl
  · rfl
  · simp only [replayLockedConsume, ReplayRSpace.map, RSpace.map, ReplayRSpace.withStore,
      store_waiting_continuation_morphism morphism, consume_candidates_morphism config morphism]
    cases replay.replayData.byConsume.lookup
        (Consume.apply config channels patterns continuation persist).hash with
    | none => rfl
    | some comms =>
      dsimp only
      generalize getCommAndConsumeCandidates config source channels patterns
        replay.space.produceCounter comms replay.space.store = found
      cases found with
      | mk candidates =>
        cases candidates with
        | none => rfl
        | some =>
          simp only [store_persistent_data_morphism morphism]
          split_ifs
          · rfl
          · rfl

theorem replay_produce_morphism (channel : C) (data : A) (persist : Bool)
    (replay : ReplayRSpace State Hash) :
    replayProduce config target channel data persist (replay.map map) =
      ((replayProduce config source channel data persist replay).1,
        (replayProduce config source channel data persist replay).2.map map) := by
  simp only [replayProduce, replayLockedProduce, ReplayRSpace.map, RSpace.map,
    ReplayRSpace.withStore, morphism.getJoins, produce_candidates_morphism config morphism]
  cases replay.replayData.byProduce.lookup (Produce.apply config channel data persist).hash with
  | none => simp only [morphism.putDatum]
  | some comms =>
    dsimp only
    generalize getCommOrProduceCandidate config source channel _ _ _ comms _ = found
    cases found with
    | mk candidate =>
      cases candidate with
      | none => simp only [morphism.putDatum]
      | some =>
        simp only [handleMatch, morphism.removeContinuation]
        generalize (if persist then replay.space.produceCounter else _) = counted
        split_ifs
        · simp only [remove_matched_morphism morphism]
        · simp only [remove_matched_morphism morphism]
        · rfl

theorem replay_perform_morphism (replay : ReplayRSpace State Hash) (operation : Operation C P A K) :
    replayPerform config target (replay.map map) operation =
      ((replayPerform config source replay operation).1,
        (replayPerform config source replay operation).2.map map) := by
  cases operation with
  | consume channels patterns continuation persist peeks =>
    exact replay_consume_morphism config morphism channels patterns continuation persist peeks
      replay
  | produce channel data persist =>
    exact replay_produce_morphism config morphism channel data persist replay

end

end Morphism

section Rows

variable (config : Config C P A K Hash) (space : Space C P A K Hash)

omit [LinearOrder Hash] in
theorem first_comm_rows {Candidate : Type} {run : Comm Hash → State → Option Candidate × State}
    {state : State} (keeps : ∀ comm, (run comm state).2 = state) (comms : List (Comm Hash)) :
    firstComm run comms state = (comms.findSome? fun comm => (run comm state).1, state) := by
  induction comms with
  | nil => rfl
  | cons comm _ ih =>
    have kept := keeps comm
    simp only [firstComm, List.findSome?_cons]
    generalize run comm state = found at kept ⊢
    cases found with
    | mk candidate =>
      dsimp only at kept ⊢
      subst kept
      cases candidate with
      | none => exact ih
      | some => rfl

def replayedConsume (channels : List C) (patterns : List P) (counter : Hash → Nat)
    (comm : Comm Hash) : Option (List (ConsumeCandidate C A Hash)) :=
  matchContinuation config.matcher channels
    (fun channel => some (participants comm counter (indexed (space.data channel)))) patterns

def replayedProduce (channel : C) (datum : Datum A Hash) (counter : Hash → Nat)
    (comm : Comm Hash) : Option (ProduceCandidate C P A K Hash) :=
  (space.allJoins channel).findSome? (searchJoin config space (ofConsume comm)
    fun c data => participants comm counter (withReplayed channel datum c data))

theorem consume_candidates_rows (channels : List C) (patterns : List P) (counter : Hash → Nat)
    (comms : List (Comm Hash)) :
    getCommAndConsumeCandidates config spaceStore channels patterns counter comms space =
      (comms.findSome? (replayedConsume config space channels patterns counter), space) := by
  rw [getCommAndConsumeCandidates, first_comm_rows]
  · congr 2
    funext comm
    exact match_fetched_rows config space
      (fun _ data => participants comm counter (indexed data)) channels patterns
  · intro comm
    exact (fetch_data_rows space
      (fun _ data => participants comm counter (indexed data)) channels).1

theorem produce_candidates_rows (channel : C) (datum : Datum A Hash) (counter : Hash → Nat)
    (comms : List (Comm Hash)) :
    getCommOrProduceCandidate config spaceStore channel datum (space.allJoins channel) counter
        comms space =
      (comms.findSome? (replayedProduce config space channel datum counter), space) := by
  rw [getCommOrProduceCandidate, first_comm_rows]
  · congr 2
    funext comm
    exact congrArg Prod.fst (search_joins_rows config space _ _ _)
  · intro _
    exact congrArg Prod.snd (search_joins_rows config space _ _ _)

end Rows

end RChain.TupleSpace
