import RChain.RSpace.History
import RChain.RSpace.Play

/-!
# Checkpoints and resets

Source: `create_checkpoint` and `reset` of `rspace/src/rspace.rs`, and under
`rspace/src/history`: `history.rs`, `history_repository.rs`, `cold_store.rs`,
`root_repository.rs`, `instances/rspace_history_reader_impl.rs`.

A checkpoint writes the rows of the overlay to the cold store as leaves, points the
history at them and starts an empty overlay on the new root. The history is used
through its trait; `History.Lawful` is what the trait promises. The native store has no
part in consumes and produces and is left out.
-/

namespace RChain.TupleSpace

open BitCodec List

variable {Trie C P A K Hash : Type} [DecidableEq C] [LinearOrder Hash]

/-- The `History` trait, as functions on a state. -/
structure History (Trie Hash : Type) where
  root : Trie → Hash
  read : Trie → List Byte → Option Hash
  process : Trie → List (HistoryAction Hash) → Trie
  reset : Trie → Hash → Trie

/-- A batch without duplicate keys is applied, and a reset to the root of a state reads as the
state does. -/
structure History.Lawful (history : History Trie Hash) : Prop where
  read_inserted : ∀ trie actions key hash, hasNoDuplicates actions = true →
    HistoryAction.insert key hash ∈ actions →
      history.read (history.process trie actions) key = some hash
  read_deleted : ∀ trie actions key, hasNoDuplicates actions = true →
    HistoryAction.delete key ∈ actions → history.read (history.process trie actions) key = none
  read_other : ∀ trie actions key, hasNoDuplicates actions = true →
    key ∉ actions.map HistoryAction.key →
      history.read (history.process trie actions) key = history.read trie key
  read_reset : ∀ trie key,
    history.read (history.reset trie (history.root trie)) key = history.read trie key

/-- The history, the roots it had and the cold store. -/
structure Repository (Trie Hash : Type) where
  history : Trie
  roots : List Hash
  leaves : Hash → Option (List Byte)

inductive CheckpointError where
  | duplicateActions
  | unknownRoot
deriving DecidableEq

inductive ReadError where
  | codec
  | unexpectedLeaf (sought : String)
deriving DecidableEq

def leafOfTag (tag : Nat) (bytes : List Byte) : Option PersistedData :=
  match tag with
  | 0 => some (.joinsLeaf bytes)
  | 1 => some (.dataLeaf bytes)
  | 2 => some (.continuationsLeaf bytes)
  | 3 => some (.nativeLeaf bytes)
  | _ => none

def readPersistedData : Reader PersistedData := do
  let tag ← readBits 2
  let bytes ← readSizeHead
  StateT.lift (leafOfTag tag bytes)

def decodePersistedData (bytes : List Byte) : Option PersistedData :=
  StateT.run' readPersistedData (writeBytes bytes)

def putLeaves (leaves : Hash → Option (List Byte)) (written : List (Hash × PersistedData)) :
    Hash → Option (List Byte) :=
  written.foldl
    (fun store leaf => Function.update store leaf.1 (some (encodePersistedData leaf.2))) leaves

def putAbsent (leaves : Hash → Option (List Byte)) (cold : List (Hash × PersistedData)) :
    Hash → Option (List Byte) :=
  putLeaves leaves (cold.filter fun leaf => (leaves leaf.1).isNone)

def coldActions (config : Config C P A K Hash) (state : HotStoreState C P A K Hash) :
    List (Hash × PersistedData) :=
  (storageActions config state).filterMap fun action => action.1.2.map fun leaf => (action.1.1, leaf)

section Reader

variable (config : Config C P A K Hash) (history : History Trie Hash)
  (repository : Repository Trie Hash)

/-- The leaf the cold store holds for a hash found in the history. -/
def leafAt (leaves : Hash → Option (List Byte)) (found : Option Hash) :
    Except ReadError (Option PersistedData) :=
  match found.bind leaves with
  | none => .ok none
  | some bytes =>
    match decodePersistedData bytes with
    | none => .error .codec
    | some leaf => .ok (some leaf)

def fetchLeaf (tag : Byte) (hash : Hash) : Except ReadError (Option PersistedData) :=
  let target := history.reset repository.history (history.root repository.history)
  leafAt repository.leaves (history.read target (keySegment config.blake tag hash))

/-- One kind of rows: its tag, its leaves and its codec. -/
structure RowKind (Item : Type) where
  tag : Byte
  name : String
  leaf : List Byte → PersistedData
  contents : PersistedData → Option (List Byte)
  encode : List Item → List Byte
  decode : List Byte → Option (List Item)

def dataRows : RowKind (Datum A Hash) where
  tag := datumTag
  name := "data"
  leaf := .dataLeaf
  contents := fun leaf => match leaf with
    | .dataLeaf bytes => some bytes
    | _ => none
  encode := encodeDatums config
  decode := decodeDatums config

def continuationRows : RowKind (WaitingContinuation P K Hash) where
  tag := kontTag
  name := "continuations"
  leaf := .continuationsLeaf
  contents := fun leaf => match leaf with
    | .continuationsLeaf bytes => some bytes
    | _ => none
  encode := encodeContinuations config
  decode := decodeContinuations config

def joinRows : RowKind (List C) where
  tag := joinsTag
  name := "joins"
  leaf := .joinsLeaf
  contents := fun leaf => match leaf with
    | .joinsLeaf bytes => some bytes
    | _ => none
  encode := encodeJoins config
  decode := decodeJoins config

def readRow {Item : Type} (kind : RowKind Item) (hash : Hash) : Except ReadError (List Item) :=
  match fetchLeaf config history repository kind.tag hash with
  | .error error => .error error
  | .ok none => .ok []
  | .ok (some leaf) =>
    match kind.contents leaf with
    | none => .error (.unexpectedLeaf kind.name)
    | some bytes =>
      match kind.decode bytes with
      | none => .error .codec
      | some row => .ok row

def readData (channel : C) : Except ReadError (List (Datum A Hash)) :=
  readRow config history repository (dataRows config)
    (hashChannel config.blake config.channels channel)

def readContinuations (channels : List C) : Except ReadError (List (WaitingContinuation P K Hash)) :=
  readRow config history repository (continuationRows config)
    (hashChannels config.blake config.channels channels)

def readJoins (channel : C) : Except ReadError (List (List C)) :=
  readRow config history repository (joinRows config)
    (hashChannel config.blake config.channels channel)

def rowsOf {Item : Type} (read : Except ReadError (List Item)) : List Item :=
  read.toOption.getD []

def historyReader : HistoryReader C P A K Hash where
  getContinuations := fun channels => rowsOf (readContinuations config history repository channels)
  getData := fun channel => rowsOf (readData config history repository channel)
  getJoins := fun channel => rowsOf (readJoins config history repository channel)

end Reader

/-- A tuple space with its history. -/
structure Backed (Trie C P A K Hash : Type) where
  repository : Repository Trie Hash
  space : RSpace (HotStoreState C P A K Hash) Hash

structure Checkpoint (Hash : Type) where
  root : Hash
  log : List (Event Hash)

section Operations

variable (config : Config C P A K Hash) (history : History Trie Hash)

def createCheckpoint (backed : Backed Trie C P A K Hash) :
    Except CheckpointError (Checkpoint Hash × Backed Trie C P A K Hash) :=
  let actions := historyActions config backed.space.store
  let leaves := putAbsent backed.repository.leaves (coldActions config backed.space.store)
  if hasNoDuplicates actions then
    let next := history.process backed.repository.history actions
    .ok (⟨history.root next, backed.space.eventLog⟩,
      ⟨⟨next, history.root next :: backed.repository.roots, leaves⟩, RSpace.fresh⟩)
  else .error .duplicateActions

def reset (root : Hash) (backed : Backed Trie C P A K Hash) :
    Except CheckpointError (Backed Trie C P A K Hash) :=
  if root ∈ backed.repository.roots then
    .ok ⟨{ backed.repository with history := history.reset backed.repository.history root },
      RSpace.fresh⟩
  else .error .unknownRoot

def Backed.store (backed : Backed Trie C P A K Hash) :
    HotStore (HotStoreState C P A K Hash) C P A K Hash :=
  inMemHotStore (historyReader config history backed.repository)

def Backed.rows (backed : Backed Trie C P A K Hash) : Space C P A K Hash :=
  view (historyReader config history backed.repository) backed.space.store

end Operations

/-- A space over an empty history and an empty cold store. -/
def Backed.initial (history : History Trie Hash) (trie : Trie) : Backed Trie C P A K Hash :=
  ⟨⟨trie, [history.root trie], fun _ => none⟩, RSpace.fresh⟩

/-- An operation, a checkpoint, or a checkpoint with a reset to the root it returned. -/
inductive Step (C P A K : Type) where
  | operation (operation : Operation C P A K)
  | checkpoint
  | checkpointReset

inductive Outcome (C P A K : Type) where
  | returned (result : Except RSpaceError (ActionResult C P A K))
  | checkpointed (error : Option CheckpointError)

def Outcome.matched : Outcome C P A K → ActionResult C P A K
  | .returned (.ok result) => result
  | .returned (.error _) => none
  | .checkpointed _ => none

/-- One step of a space with a history. A checkpoint that fails leaves the space. -/
def backedStep (config : Config C P A K Hash) (history : History Trie Hash)
    (backed : Backed Trie C P A K Hash) :
    Step C P A K → Outcome C P A K × Backed Trie C P A K Hash
  | .operation operation =>
    let (result, space) := perform config (backed.store config history) backed.space operation
    (.returned result, { backed with space := space })
  | .checkpoint =>
    match createCheckpoint config history backed with
    | .error error => (.checkpointed (some error), backed)
    | .ok (_, next) => (.checkpointed none, next)
  | .checkpointReset =>
    match createCheckpoint config history backed with
    | .error error => (.checkpointed (some error), backed)
    | .ok (checkpoint, next) =>
      match reset history checkpoint.root next with
      | .error error => (.checkpointed (some error), next)
      | .ok last => (.checkpointed none, last)

def plainStep (config : Config C P A K Hash) (store : HotStore (HotStoreState C P A K Hash) C P A K Hash)
    (space : RSpace (HotStoreState C P A K Hash) Hash) :
    Step C P A K → Outcome C P A K × RSpace (HotStoreState C P A K Hash) Hash
  | .operation operation =>
    let (result, next) := perform config store space operation
    (.returned result, next)
  | .checkpoint => (.checkpointed none, space)
  | .checkpointReset => (.checkpointed none, space)

def HistoryAction.value {Hash : Type} : HistoryAction Hash → Option Hash
  | .insert _ hash => some hash
  | .delete _ => none

def tableHistory (root : Hash) : History (List Byte → Option Hash) Hash where
  root := fun _ => root
  read := fun table key => table key
  process := fun table actions =>
    actions.foldl (fun next action => Function.update next action.key action.value) table
  reset := fun table _ => table

omit [LinearOrder Hash] in
theorem table_other (actions : List (HistoryAction Hash)) (table : List Byte → Option Hash)
    {key : List Byte} (other : key ∉ actions.map HistoryAction.key) :
    actions.foldl (fun next action => Function.update next action.key action.value) table key =
      table key := by
  induction actions generalizing table with
  | nil => rfl
  | cons _ _ ih =>
    rw [map_cons, mem_cons, not_or] at other
    rw [foldl_cons, ih _ other.2, Function.update_of_ne other.1]

omit [LinearOrder Hash] in
theorem table_applied (actions : List (HistoryAction Hash)) (table : List Byte → Option Hash)
    (distinct : (actions.map HistoryAction.key).Nodup) {action : HistoryAction Hash}
    (mem : action ∈ actions) :
    actions.foldl (fun next action => Function.update next action.key action.value) table
      action.key = action.value := by
  induction actions generalizing table with
  | nil => exact absurd mem not_mem_nil
  | cons _ _ ih =>
    rw [map_cons, nodup_cons] at distinct
    rw [foldl_cons]
    rcases mem_cons.mp mem with same | listed
    · rw [same, table_other _ _ distinct.1, Function.update_self]
    · exact ih _ distinct.2 listed

omit [LinearOrder Hash] in
theorem table_history_lawful (root : Hash) : (tableHistory root).Lawful where
  read_inserted := fun trie actions _ _ distinct mem =>
    table_applied actions trie (of_decide_eq_true distinct) mem
  read_deleted := fun trie actions _ distinct mem =>
    table_applied actions trie (of_decide_eq_true distinct) mem
  read_other := fun trie actions _ _ other => table_other actions trie other
  read_reset := fun _ _ => rfl

end RChain.TupleSpace
