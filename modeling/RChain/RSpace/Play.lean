import RChain.RSpace.HotStore
import RChain.RSpace.SpaceMatcher

/-!
# The play tuple space: consume, produce and install

Source: `rspace/src/rspace.rs`.

The operations run under locks on the channels they touch, so they are atomic here.
They are written against the `HotStore` trait. An assertion of the source that fails
is an error result; the record of installs is written and never read, and is left out.
-/

namespace RChain.TupleSpace

inductive RSpaceError where
  | channelsEmpty
  | lengthMismatch
  | installNotAllowed
  | replayCommNotInTrace
deriving DecidableEq

@[ext]
structure RSpace (State Hash : Type) where
  store : State
  eventLog : List (Event Hash)
  produceCounter : Hash → Nat

variable {State C P A K Hash : Type} [DecidableEq C] [LinearOrder Hash]

def RSpace.fresh : RSpace (HotStoreState C P A K Hash) Hash where
  store := HotStoreState.empty
  eventLog := []
  produceCounter := fun _ => 0

def RSpace.logComm (space : RSpace State Hash) (comm : Comm Hash) : RSpace State Hash :=
  { space with eventLog := Event.comm comm :: space.eventLog }

def RSpace.logConsume (space : RSpace State Hash) (consumeRef : Consume Hash) :
    RSpace State Hash :=
  { space with eventLog := Event.consume consumeRef :: space.eventLog }

def incrementCounter (counter : Hash → Nat) (produceRef : Produce Hash) : Hash → Nat :=
  Function.update counter produceRef.hash (counter produceRef.hash + 1)

def RSpace.logProduce (space : RSpace State Hash) (produceRef : Produce Hash) (persist : Bool) :
    RSpace State Hash :=
  { space with
    eventLog := Event.produce produceRef :: space.eventLog
    produceCounter :=
      if persist then space.produceCounter
      else incrementCounter space.produceCounter produceRef }

def indexed (data : List (Datum A Hash)) : List (IndexedDatum A Hash) :=
  data.zipIdx.map fun entry => (entry.1, (entry.2 : Int))

/-- Content-addressed order: stored data by produce hash. -/
def sortedData (data : List (Datum A Hash)) : List (IndexedDatum A Hash) :=
  sortByKey (·.1.source.hash) (indexed data)

variable (config : Config C P A K Hash) (store : HotStore State C P A K Hash)

/-- Read the data of each channel and prepare it for the matcher. -/
def fetchData (prepare : C → List (Datum A Hash) → List (IndexedDatum A Hash)) (channels : List C)
    (state : State) : (C → Option (List (IndexedDatum A Hash))) × State :=
  channels.foldl
    (fun acc channel =>
      let (data, next) := store.getData channel acc.2
      (Function.update acc.1 channel (some (prepare channel data)), next))
    (fun _ => none, state)

def storeWaitingContinuation (channels : List C) (wc : WaitingContinuation P K Hash) (state : State) :
    State :=
  channels.foldl (fun next channel => store.putJoin channel channels next)
    (store.putContinuation channels wc state)

def storePersistentData (dataCandidates : List (ConsumeCandidate C A Hash)) (state : State) :
    State :=
  (sortByKey (fun candidate => OrderDual.toDual candidate.datumIndex) dataCandidates).foldl
    (fun next candidate =>
      if candidate.datum.persist then next
      else store.removeDatum candidate.channel candidate.datumIndex next)
    state

def removeMatchedDatumAndJoin (channels : List C)
    (dataCandidates : List (ConsumeCandidate C A Hash)) (state : State) : State :=
  (sortByKey (fun candidate => OrderDual.toDual candidate.datumIndex) dataCandidates).foldl
    (fun next candidate =>
      store.removeJoin candidate.channel channels
        (if 0 ≤ candidate.datumIndex ∧ candidate.datum.persist = false then
          store.removeDatum candidate.channel candidate.datumIndex next
        else next))
    state

omit [DecidableEq C] [LinearOrder Hash] in
/-- What the removal of data keeps, the removal of matched data keeps. -/
theorem store_persistent_keeps (invariant : State → Prop) {store : HotStore State C P A K Hash}
    (removeDatum : ∀ channel index state, invariant state →
      invariant (store.removeDatum channel index state))
    (items : List (ConsumeCandidate C A Hash)) {state : State} (initial : invariant state) :
    invariant (storePersistentData store items state) := by
  refine List.foldlRecOn _ _ initial ?_
  intro _ kept _ _
  split_ifs
  · exact kept
  · exact removeDatum _ _ _ kept

omit [DecidableEq C] [LinearOrder Hash] in
theorem remove_matched_keeps (invariant : State → Prop) {store : HotStore State C P A K Hash}
    {channels : List C}
    (removeDatum : ∀ channel index state, invariant state →
      invariant (store.removeDatum channel index state))
    (removeJoin : ∀ channel state, invariant state →
      invariant (store.removeJoin channel channels state))
    (items : List (ConsumeCandidate C A Hash)) {state : State} (initial : invariant state) :
    invariant (removeMatchedDatumAndJoin store channels items state) := by
  refine List.foldlRecOn _ _ initial ?_
  intro _ kept _ _
  apply removeJoin
  split_ifs
  · exact removeDatum _ _ _ kept
  · exact kept

def wrapResult (channels : List C) (wk : WaitingContinuation P K Hash)
    (dataCandidates : List (ConsumeCandidate C A Hash)) : ActionResult C P A K :=
  some
    ({ continuation := wk.continuation
       persistent := wk.persist
       channels := channels
       patterns := wk.patterns
       peek := !wk.peeks.elements.isEmpty },
      dataCandidates.map fun dc =>
        { channel := dc.channel
          matchedDatum := dc.datum.a
          removedDatum := dc.removedDatum
          persistent := dc.datum.persist })

/-- The data a produce offers: the datum being produced first on its own channel, then the
stored data in content order. -/
def withProduced (channel : C) (datum : Datum A Hash) (c : C) (data : List (Datum A Hash)) :
    List (IndexedDatum A Hash) :=
  if c = channel then (datum, -1) :: sortedData data else sortedData data

/-- The search of a produce through joins: the first join, in order, with a candidate. `select`
picks the continuations to try and `prepare` the data to try them on. -/
def searchJoins (config : Config C P A K Hash) (store : HotStore State C P A K Hash)
    (select : List (WaitingContinuation P K Hash × Nat) → List (WaitingContinuation P K Hash × Nat))
    (prepare : C → List (Datum A Hash) → List (IndexedDatum A Hash)) :
    List (List C) → State → Option (ProduceCandidate C P A K Hash) × State
  | [], state => (none, state)
  | channels :: groupedChannels, state =>
    let (conts, afterConts) := store.getContinuations channels state
    let (channelToIndexedData, afterData) := fetchData store prepare channels afterConts
    match extractFirstMatch config.matcher channels (select conts.zipIdx)
        channelToIndexedData with
    | some pc => (some pc, afterData)
    | none => searchJoins config store select prepare groupedChannels afterData

def extractProduceCandidate (batChannel : C) (datum : Datum A Hash) :
    List (List C) → State → Option (ProduceCandidate C P A K Hash) × State :=
  searchJoins config store id (withProduced batChannel datum)

def processMatchFound (pc : ProduceCandidate C P A K Hash) (space : RSpace State Hash) :
    ActionResult C P A K × RSpace State Hash :=
  let wk := pc.continuation
  let comm := Comm.apply pc.dataCandidates wk.source wk.peeks space.produceCounter
  let logged := space.logComm comm
  let withoutContinuation :=
    if wk.persist then logged.store
    else store.removeContinuation pc.channels pc.continuationIndex logged.store
  (wrapResult pc.channels wk pc.dataCandidates,
    { logged with
      store := removeMatchedDatumAndJoin store pc.channels pc.dataCandidates
        withoutContinuation })

def lockedConsume (channels : List C) (patterns : List P) (continuation : K) (persist : Bool)
    (peeks : IndexSet) (consumeRef : Consume Hash) (space : RSpace State Hash) :
    ActionResult C P A K × RSpace State Hash :=
  let logged := space.logConsume consumeRef
  let (channelToIndexedData, fetched) :=
    fetchData store (fun _ => sortedData) channels logged.store
  let wk : WaitingContinuation P K Hash :=
    { patterns := patterns, continuation := continuation, persist := persist, peeks := peeks,
      source := consumeRef }
  match matchContinuation config.matcher channels channelToIndexedData patterns with
  | none => (none, { logged with store := storeWaitingContinuation store channels wk fetched })
  | some dataCandidates =>
    let comm := Comm.apply dataCandidates consumeRef peeks logged.produceCounter
    (wrapResult channels wk dataCandidates,
      { logged.logComm comm with
        store := storePersistentData store dataCandidates fetched })

def lockedProduce (channel : C) (data : A) (persist : Bool) (produceRef : Produce Hash)
    (space : RSpace State Hash) : ActionResult C P A K × RSpace State Hash :=
  let (groupedChannels, read) := store.getJoins channel space.store
  let logged := space.logProduce produceRef persist
  let datum : Datum A Hash := { a := data, persist := persist, source := produceRef }
  let (extracted, searched) :=
    extractProduceCandidate config store channel datum groupedChannels read
  match extracted with
  | none => (none, { logged with store := store.putDatum channel datum searched })
  | some pc => processMatchFound store pc { logged with store := searched }

def lockedInstall (channels : List C) (patterns : List P) (continuation : K)
    (space : RSpace State Hash) : Except RSpaceError (Option (K × List A)) × RSpace State Hash :=
  let consumeRef := Consume.apply config channels patterns continuation true
  let (existing, read) := store.getContinuations channels space.store
  if existing.any fun wc => wc.source.hash = consumeRef.hash then
    (.ok none, { space with store := read })
  else
    let (channelToIndexedData, fetched) := fetchData store (fun _ => indexed) channels read
    match matchContinuation config.matcher channels channelToIndexedData patterns with
    | some _ => (.error .installNotAllowed, { space with store := fetched })
    | none =>
      let wc : WaitingContinuation P K Hash :=
        { patterns := patterns, continuation := continuation, persist := true,
          peeks := IndexSet.empty, source := consumeRef }
      (.ok none,
        { space with
          store := channels.foldl (fun next channel => store.installJoin channel channels next)
            (store.installContinuation channels wc fetched) })

def consume (channels : List C) (patterns : List P) (continuation : K) (persist : Bool)
    (peeks : IndexSet) (space : RSpace State Hash) :
    Except RSpaceError (ActionResult C P A K) × RSpace State Hash :=
  if channels = [] then (.error .channelsEmpty, space)
  else if channels.length ≠ patterns.length then (.error .lengthMismatch, space)
  else
    let consumeRef := Consume.apply config channels patterns continuation persist
    let (result, next) :=
      lockedConsume config store channels patterns continuation persist peeks consumeRef space
    (.ok result, next)

def produce (channel : C) (data : A) (persist : Bool) (space : RSpace State Hash) :
    Except RSpaceError (ActionResult C P A K) × RSpace State Hash :=
  let produceRef := Produce.apply config channel data persist
  -- The second locking phase reads the joins once more.
  let read := (store.getJoins channel space.store).2
  let (result, next) :=
    lockedProduce config store channel data persist produceRef { space with store := read }
  (.ok result, next)

def install (channels : List C) (patterns : List P) (continuation : K) (space : RSpace State Hash) :
    Except RSpaceError (Option (K × List A)) × RSpace State Hash :=
  if channels.length ≠ patterns.length then (.error .lengthMismatch, space)
  else lockedInstall config store channels patterns continuation space

/-- A consume or a produce with its arguments. -/
inductive Operation (C P A K : Type) where
  | consume (channels : List C) (patterns : List P) (continuation : K) (persist : Bool)
      (peeks : IndexSet)
  | produce (channel : C) (data : A) (persist : Bool)

/-- A call of the tuple-space interface. -/
inductive Call (C P A K : Type) where
  | operation (operation : Operation C P A K)
  | install (channels : List C) (patterns : List P) (continuation : K)

def perform (space : RSpace State Hash) :
    Operation C P A K → Except RSpaceError (ActionResult C P A K) × RSpace State Hash
  | .consume channels patterns continuation persist peeks =>
    consume config store channels patterns continuation persist peeks space
  | .produce channel data persist => produce config store channel data persist space

def afterCall (space : RSpace State Hash) : Call C P A K → RSpace State Hash
  | .operation operation => (perform config store space operation).2
  | .install channels patterns continuation =>
    (install config store channels patterns continuation space).2

end RChain.TupleSpace
