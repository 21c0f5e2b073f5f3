import RChain.RSpace.Checkpoint
import RChain.RSpace.Refinement

/-!
# The native store, failed checkpoints and soft checkpoints

Source: `rspace/src/native_store.rs`, `create_checkpoint`, `create_soft_checkpoint` and
`revert_to_soft_checkpoint` of `rspace/src/rspace.rs`, `do_checkpoint_with_native` of
`rspace/src/history/history_repository.rs`, and the memo table of `rspace/src/hot_store.rs`.

The stores below a checkpoint are used through their interfaces, and any call on them may fail. A
soft checkpoint leaves the memo of history reads out, so a reverted space starts an empty memo: what
it reads is the same, since every memo agrees with the history.
-/

namespace RChain.TupleSpace

open BitCodec

/-- Written keys and tombstones since the last checkpoint; a key has an area and a hash. -/
abbrev NativeOverlay (Hash : Type) [LinearOrder Hash] :=
  AList fun _ : Byte × Hash => Option (List Byte)

inductive NativeStoreAction (Hash : Type) where
  | put (area : Byte) (key : Hash) (value : List Byte)
  | delete (area : Byte) (key : Hash)

variable {Trie Disk State Other C P A K Hash : Type} [DecidableEq C] [LinearOrder Hash]

/-- The pending mutations, and the overlay after they are taken. -/
def drainChanges (overlay : NativeOverlay Hash) :
    List (NativeStoreAction Hash) × NativeOverlay Hash :=
  (overlay.entries.map fun entry =>
    match entry.2 with
    | some value => .put entry.1.1 entry.1.2 value
    | none => .delete entry.1.1 entry.1.2, ∅)

def calculateNativeStorageAction (config : Config C P A K Hash) :
    NativeStoreAction Hash → (Hash × Option PersistedData) × HistoryAction Hash
  | .put area key value => insertLeaf config (keySegment config.blake area key) (.nativeLeaf value)
  | .delete area key => ((key, none), .delete (keySegment config.blake area key))

/-- The leaf store, the history and the roots that a checkpoint writes to. -/
structure HistoryStores (Trie Disk Hash : Type) where
  contains : List Hash → ExceptT String (StateM Disk) (List Bool)
  put : List (Hash × PersistedData) → ExceptT String (StateM Disk) Unit
  process : Trie → List (HistoryAction Hash) → ExceptT String (StateM Disk) Trie
  root : Trie → Hash
  commit : Hash → ExceptT String (StateM Disk) Unit

def doCheckpointWithNative (config : Config C P A K Hash) (stores : HistoryStores Trie Disk Hash)
    (history : Trie) (changes : List (HotStoreTrieAction C P A K Hash))
    (native : List (NativeStoreAction Hash)) : ExceptT String (StateM Disk) Trie := do
  let storage := native.map (calculateNativeStorageAction config)
  let actions := changes.map (calculateStorageAction config) ++ storage
  let cold := actions.filterMap fun action => action.1.2.map fun leaf => (action.1.1, leaf)
  if cold ≠ [] then
    let present ← stores.contains (cold.map Prod.fst)
    stores.put ((cold.zip present).filterMap fun (leaf, found) => if found then none else some leaf)
  let next ← stores.process history (actions.map (·.2))
  stores.commit (stores.root next)
  return next

/-- A tuple space with its history and the native overlay. -/
structure Live (Trie State Hash : Type) [LinearOrder Hash] where
  history : Trie
  space : RSpace State Hash
  overlay : NativeOverlay Hash

/-- `create_checkpoint`: the overlay is drained before the history is written. -/
def createCheckpointWithNative (config : Config C P A K Hash)
    (stores : HistoryStores Trie Disk Hash) (live : Live Trie (HotStoreState C P A K Hash) Hash)
    (disk : Disk) :
    Except String (Checkpoint Hash) × Live Trie (HotStoreState C P A K Hash) Hash × Disk :=
  let hot := (changes live.space.store).map (transform config)
  let (native, drained) := drainChanges live.overlay
  match (doCheckpointWithNative config stores live.history hot native).run disk with
  | (.error error, after) => (.error error, { live with overlay := drained }, after)
  | (.ok next, after) =>
    (.ok ⟨stores.root next, live.space.eventLog⟩, ⟨next, RSpace.fresh, drained⟩, after)

omit [DecidableEq C] in
/-- A checkpoint that fails leaves everything as it was exactly when nothing native is pending. -/
theorem failed_checkpoint_unchanged_iff (config : Config C P A K Hash)
    (stores : HistoryStores Trie Disk Hash) (live : Live Trie (HotStoreState C P A K Hash) Hash)
    (disk : Disk) {error : String}
    (failed : (createCheckpointWithNative config stores live disk).1 = .error error) :
    (createCheckpointWithNative config stores live disk).2.1 = live ↔ live.overlay = ∅ := by
  have after : (createCheckpointWithNative config stores live disk).2.1 =
      { live with overlay := ∅ } := by
    unfold createCheckpointWithNative at failed ⊢
    dsimp only [drainChanges] at failed ⊢
    split at failed
    · rfl
    · cases failed
  rw [after]
  constructor
  · intro same
    exact congrArg Live.overlay same.symm
  · intro empty
    rw [← empty]

/-- Stores over a history that cannot be written. -/
def failingStores : HistoryStores Unit Unit (List Byte) where
  contains := fun keys => pure (keys.map fun _ => false)
  put := fun _ => pure ()
  process := fun _ _ => throw "history store unavailable"
  root := fun _ => []
  commit := fun _ => pure ()

def nativeLive (overlay : NativeOverlay (List Byte)) :
    Live Unit (HotStoreState Nat Nat Nat Nat (List Byte)) (List Byte) :=
  ⟨(), RSpace.fresh, overlay⟩

/-- A pending native value is gone after the failure, and no retry can write it. -/
theorem failed_checkpoint_loses_native :
    let live := nativeLive ((∅ : NativeOverlay (List Byte)).insert (3, []) (some [1]))
    (createCheckpointWithNative naturalConfig failingStores live ()).1 =
        .error "history store unavailable" ∧
      (createCheckpointWithNative naturalConfig failingStores live ()).2.1.overlay.lookup (3, []) =
        none ∧
      live.overlay.lookup (3, []) = some (some [1]) :=
  ⟨rfl, rfl, rfl⟩

theorem failed_checkpoint_without_native :
    (createCheckpointWithNative naturalConfig failingStores (nativeLive ∅) ()).2.1 = nativeLive ∅ :=
  (failed_checkpoint_unchanged_iff naturalConfig failingStores (nativeLive ∅) () rfl).mpr rfl

section Soft

variable {reader : HistoryReader C P A K Hash} {Key Row : Type} [DecidableEq Key] {read : Key → Row}

/-- A memo table agrees with the reads it stands for. -/
abbrev Memo (read : Key → Row) :=
  { rows : AList fun _ : Key => Row // ∀ key row, rows.lookup key = some row → row = read key }

/-- Read through a memo. -/
def Memo.fetch (memo : Memo read) (key : Key) : Row :=
  rowOr memo.1 key (read key)

theorem Memo.fetch_eq (memo : Memo read) (key : Key) : memo.fetch key = read key := by
  unfold fetch rowOr
  cases found : memo.1.lookup key with
  | none => rfl
  | some row => exact memo.2 key row found

theorem memo_fill (memo : Memo read) (key other : Key) (row : Row)
    (found : (fillRow memo.1 key (read key)).lookup other = some row) : row = read other := by
  unfold fillRow at found
  split_ifs at found
  · exact memo.2 other row found
  · by_cases same : other = key
    · subst same
      rw [AList.lookup_insert, Option.some.injEq] at found
      exact found.symm
    · rw [AList.lookup_insert_ne same] at found
      exact memo.2 other row found

def Memo.fill (memo : Memo read) (key : Key) : Memo read :=
  ⟨fillRow memo.1 key (read key), memo_fill memo key⟩

theorem memo_empty (read : Key → Row) (key : Key) (row : Row)
    (found : (∅ : AList fun _ : Key => Row).lookup key = some row) : row = read key := by
  cases found

/-- The rows read from history so far. -/
structure HistoryStoreCache (reader : HistoryReader C P A K Hash) where
  continuations : Memo reader.getContinuations
  datums : Memo reader.getData
  joins : Memo reader.getJoins

def HistoryStoreCache.empty : HistoryStoreCache reader where
  continuations := ⟨∅, memo_empty _⟩
  datums := ⟨∅, memo_empty _⟩
  joins := ⟨∅, memo_empty _⟩

/-- The history as the memo shows it. -/
def HistoryStoreCache.view (cache : HistoryStoreCache reader) : HistoryReader C P A K Hash where
  getContinuations := cache.continuations.fetch
  getData := cache.datums.fetch
  getJoins := cache.joins.fetch

omit [LinearOrder Hash] in
theorem HistoryStoreCache.view_eq (cache : HistoryStoreCache reader) : cache.view = reader := by
  cases reader
  simp only [view, HistoryReader.mk.injEq]
  exact ⟨funext cache.continuations.fetch_eq, funext cache.datums.fetch_eq,
    funext cache.joins.fetch_eq⟩

def HistoryStoreCache.fillContinuations (cache : HistoryStoreCache reader) (channels : List C) :
    HistoryStoreCache reader :=
  { cache with continuations := cache.continuations.fill channels }

def HistoryStoreCache.fillData (cache : HistoryStoreCache reader) (channel : C) :
    HistoryStoreCache reader :=
  { cache with datums := cache.datums.fill channel }

def HistoryStoreCache.fillJoins (cache : HistoryStoreCache reader) (channel : C) :
    HistoryStoreCache reader :=
  { cache with joins := cache.joins.fill channel }

/-- The overlay with its memo. -/
abbrev CachedState (reader : HistoryReader C P A K Hash) :=
  HotStoreState C P A K Hash × HistoryStoreCache reader

/-- The hot store as the source has it: every operation but an install reads the history through the
memo first. -/
def cachedHotStore (reader : HistoryReader C P A K Hash) :
    HotStore (CachedState reader) C P A K Hash where
  getContinuations := fun channels (state, cache) =>
    let (row, next) := (inMemHotStore cache.view).getContinuations channels state
    (row, next, cache.fillContinuations channels)
  putContinuation := fun channels wc (state, cache) =>
    ((inMemHotStore cache.view).putContinuation channels wc state, cache.fillContinuations channels)
  installContinuation := fun channels wc (state, cache) =>
    ((inMemHotStore cache.view).installContinuation channels wc state, cache)
  removeContinuation := fun channels index (state, cache) =>
    ((inMemHotStore cache.view).removeContinuation channels index state,
      cache.fillContinuations channels)
  getData := fun channel (state, cache) =>
    let (row, next) := (inMemHotStore cache.view).getData channel state
    (row, next, cache.fillData channel)
  putDatum := fun channel datum (state, cache) =>
    ((inMemHotStore cache.view).putDatum channel datum state, cache.fillData channel)
  removeDatum := fun channel index (state, cache) =>
    ((inMemHotStore cache.view).removeDatum channel index state, cache.fillData channel)
  getJoins := fun channel (state, cache) =>
    let (row, next) := (inMemHotStore cache.view).getJoins channel state
    (row, next, cache.fillJoins channel)
  putJoin := fun channel join (state, cache) =>
    ((inMemHotStore cache.view).putJoin channel join state, cache.fillJoins channel)
  installJoin := fun channel join (state, cache) =>
    ((inMemHotStore cache.view).installJoin channel join state, cache)
  removeJoin := fun channel join (state, cache) =>
    ((inMemHotStore cache.view).removeJoin channel join state, cache.fillJoins channel)

omit [LinearOrder Hash] in
theorem cached_morphism :
    StoreMorphism (cachedHotStore reader) (inMemHotStore reader) Prod.fst := by
  constructor <;> intros <;> simp only [cachedHotStore, HistoryStoreCache.view_eq]

/-- A call of the tuple space or of the native store. -/
inductive LiveCall (C P A K Hash : Type) where
  | operation (operation : Operation C P A K)
  | install (channels : List C) (patterns : List P) (continuation : K)
  | nativeGet (area : Byte) (key : Hash)
  | nativePut (area : Byte) (key : Hash) (value : List Byte)
  | nativeDelete (area : Byte) (key : Hash)

inductive Answer (C P A K : Type) where
  | acted (result : Except RSpaceError (ActionResult C P A K))
  | installed (result : Except RSpaceError (Option (K × List A)))
  | value (found : Except String (Option (List Byte)))
  | done

def Live.map (map : State → Other) (live : Live Trie State Hash) : Live Trie Other Hash where
  history := live.history
  space := live.space.map map
  overlay := live.overlay

variable (config : Config C P A K Hash)
  (nativeReader : Byte → Hash → Except String (Option (List Byte)))

/-- One call; a native read looks at the overlay first. -/
def liveStep (store : HotStore State C P A K Hash) (live : Live Trie State Hash) :
    LiveCall C P A K Hash → Answer C P A K × Live Trie State Hash
  | .operation operation =>
    let (result, space) := perform config store live.space operation
    (.acted result, { live with space := space })
  | .install channels patterns continuation =>
    let (result, space) := install config store channels patterns continuation live.space
    (.installed result, { live with space := space })
  | .nativeGet area key =>
    (.value (match live.overlay.lookup (area, key) with
      | some value => .ok value
      | none => nativeReader area key), live)
  | .nativePut area key value =>
    (.done, { live with overlay := live.overlay.insert (area, key) (some value) })
  | .nativeDelete area key =>
    (.done, { live with overlay := live.overlay.insert (area, key) none })

def liveRun (store : HotStore State C P A K Hash) (live : Live Trie State Hash) :
    List (LiveCall C P A K Hash) → List (Answer C P A K) × Live Trie State Hash
  | [] => ([], live)
  | call :: calls =>
    let (answer, next) := liveStep config nativeReader store live call
    let (answers, last) := liveRun store next calls
    (answer :: answers, last)

theorem live_run_morphism {source : HotStore State C P A K Hash}
    {target : HotStore Other C P A K Hash} {map : State → Other}
    (morphism : StoreMorphism source target map) (calls : List (LiveCall C P A K Hash))
    (live : Live Trie State Hash) :
    liveRun config nativeReader target (live.map map) calls =
      ((liveRun config nativeReader source live calls).1,
        (liveRun config nativeReader source live calls).2.map map) := by
  have step (live : Live Trie State Hash) (call : LiveCall C P A K Hash) :
      liveStep config nativeReader target (live.map map) call =
        ((liveStep config nativeReader source live call).1,
          (liveStep config nativeReader source live call).2.map map) := by
    cases call with
    | operation => simp only [liveStep, Live.map, perform_morphism config morphism]
    | install => simp only [liveStep, Live.map, install_morphism config morphism]
    | nativeGet | nativePut | nativeDelete => rfl
  induction calls generalizing live with
  | nil => rfl
  | cons _ _ ih => simp only [liveRun, step, ih]

structure SoftCheckpoint (C P A K Hash : Type) [LinearOrder Hash] where
  cacheSnapshot : HotStoreState C P A K Hash
  log : List (Event Hash)
  produceCounter : Hash → Nat
  nativeSnapshot : NativeOverlay Hash

/-- The log and the counters are moved into the checkpoint. -/
def createSoftCheckpoint (live : Live Trie (CachedState reader) Hash) :
    SoftCheckpoint C P A K Hash × Live Trie (CachedState reader) Hash :=
  (⟨live.space.store.1, live.space.eventLog, live.space.produceCounter, live.overlay⟩,
    { live with space := ⟨live.space.store, [], fun _ => 0⟩ })

/-- The saved overlay over the history, with a memo of its own. -/
def revertToSoftCheckpoint (checkpoint : SoftCheckpoint C P A K Hash)
    (live : Live Trie (CachedState reader) Hash) : Live Trie (CachedState reader) Hash where
  history := live.history
  space := ⟨(checkpoint.cacheSnapshot, .empty), checkpoint.log, checkpoint.produceCounter⟩
  overlay := checkpoint.nativeSnapshot

theorem live_run_history (store : HotStore State C P A K Hash)
    (calls : List (LiveCall C P A K Hash)) (live : Live Trie State Hash) :
    (liveRun config nativeReader store live calls).2.history = live.history := by
  induction calls generalizing live with
  | nil => rfl
  | cons call _ ih =>
    refine (ih _).trans ?_
    cases call <;> rfl

/-- Whatever is called between a soft checkpoint and its revert, the space is as it was, and every
later run gives the same answers and ends in the same space. -/
theorem soft_checkpoint_exact (live : Live Trie (CachedState reader) Hash)
    (between later : List (LiveCall C P A K Hash)) :
    let saved := createSoftCheckpoint live
    let reverted := revertToSoftCheckpoint saved.1
      (liveRun config nativeReader (cachedHotStore reader) saved.2 between).2
    reverted.map Prod.fst = live.map Prod.fst ∧
      (liveRun config nativeReader (cachedHotStore reader) reverted later).1 =
        (liveRun config nativeReader (cachedHotStore reader) live later).1 ∧
      (liveRun config nativeReader (cachedHotStore reader) reverted later).2.map Prod.fst =
        (liveRun config nativeReader (cachedHotStore reader) live later).2.map Prod.fst := by
  intro saved reverted
  have same : reverted.map Prod.fst = live.map Prod.fst := by
    have kept := live_run_history config nativeReader (cachedHotStore reader) between saved.2
    simp only [reverted, saved, revertToSoftCheckpoint, Live.map] at kept ⊢
    rw [kept]
    rfl
  have runs (start : Live Trie (CachedState reader) Hash) :=
    live_run_morphism config nativeReader cached_morphism later start
  have pairs := (runs reverted).symm.trans (same ▸ runs live)
  exact ⟨same, Prod.mk.inj pairs⟩

end Soft

end RChain.TupleSpace
