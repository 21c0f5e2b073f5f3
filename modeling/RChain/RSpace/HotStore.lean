import RChain.RSpace.Internal
import Mathlib.Data.List.AList

/-!
# The hot store

Source: `rspace/src/hot_store.rs`.

`HotStore` is the trait of the source; `inMemHotStore` is its one implementation, an
overlay that copies a row from the history snapshot the first time the row is touched.
The history reads are memoized in the source; as the snapshot does not change, the
memo table is left out. A history read is a total function here: what a checkpoint
wrote always decodes.

`Space` is what the store is for: rows of data, continuations and joins, with no
overlay. `view_morphism` says that every operation of the in-memory store is the
operation of the same name on the rows it shows.
-/

namespace RChain.TupleSpace

/-- The `HotStore` trait, as functions on a state. -/
structure HotStore (State C P A K Hash : Type) where
  getContinuations : List C → State → List (WaitingContinuation P K Hash) × State
  putContinuation : List C → WaitingContinuation P K Hash → State → State
  installContinuation : List C → WaitingContinuation P K Hash → State → State
  removeContinuation : List C → Nat → State → State
  getData : C → State → List (Datum A Hash) × State
  putDatum : C → Datum A Hash → State → State
  removeDatum : C → Int → State → State
  getJoins : C → State → List (List C) × State
  putJoin : C → List C → State → State
  installJoin : C → List C → State → State
  removeJoin : C → List C → State → State

structure HotStoreState (C P A K Hash : Type) where
  continuations : AList (fun _ : List C => List (WaitingContinuation P K Hash))
  installedContinuations : AList (fun _ : List C => WaitingContinuation P K Hash)
  data : AList (fun _ : C => List (Datum A Hash))
  joins : AList (fun _ : C => List (List C))
  installedJoins : AList (fun _ : C => List (List C))

/-- The snapshot below the overlay. -/
structure HistoryReader (C P A K Hash : Type) where
  getContinuations : List C → List (WaitingContinuation P K Hash)
  getData : C → List (Datum A Hash)
  getJoins : C → List (List C)

variable {C P A K Hash : Type} [DecidableEq C]

def HistoryReader.empty : HistoryReader C P A K Hash where
  getContinuations := fun _ => []
  getData := fun _ => []
  getJoins := fun _ => []

def HotStoreState.empty : HotStoreState C P A K Hash where
  continuations := ∅
  installedContinuations := ∅
  data := ∅
  joins := ∅
  installedJoins := ∅

/-- The row the overlay holds for a key, else the one of the snapshot. -/
def rowOr {Key Row : Type} [DecidableEq Key] (rows : AList (fun _ : Key => Row)) (key : Key)
    (fromHistory : Row) : Row :=
  (rows.lookup key).getD fromHistory

/-- The overlay after the row of a key was read. -/
def fillRow {Key Row : Type} [DecidableEq Key] (rows : AList (fun _ : Key => Row)) (key : Key)
    (fromHistory : Row) : AList (fun _ : Key => Row) :=
  if key ∈ rows then rows else rows.insert key fromHistory

/-- The row of `remove_datum`: an index out of range removes nothing. -/
def removeAt {Item : Type} (row : List Item) (index : Int) : List Item :=
  if 0 ≤ index ∧ index.toNat < row.length then row.eraseIdx index.toNat else row

def pushJoin (row : List (List C)) (join : List C) : List (List C) :=
  if join ∈ row then row else join :: row

/-- The index into the overlay row, when `index` counts an installed continuation first. -/
def storedIndex (installed : Bool) (index : Nat) : Nat :=
  if installed then index - 1 else index

def inMemHotStore (reader : HistoryReader C P A K Hash) :
    HotStore (HotStoreState C P A K Hash) C P A K Hash where
  getContinuations := fun channels state =>
    let row := rowOr state.continuations channels (reader.getContinuations channels)
    ((state.installedContinuations.lookup channels).toList ++ row,
      { state with
        continuations :=
          fillRow state.continuations channels (reader.getContinuations channels) })
  putContinuation := fun channels wc state =>
    { state with
      continuations := state.continuations.insert channels
        (wc :: rowOr state.continuations channels (reader.getContinuations channels)) }
  installContinuation := fun channels wc state =>
    { state with installedContinuations := state.installedContinuations.insert channels wc }
  removeContinuation := fun channels index state =>
    let installed := decide (channels ∈ state.installedContinuations)
    if installed && index == 0 then state
    else
      { state with
        continuations := state.continuations.insert channels
          ((rowOr state.continuations channels (reader.getContinuations channels)).eraseIdx
            (storedIndex installed index)) }
  getData := fun channel state =>
    (rowOr state.data channel (reader.getData channel),
      { state with
        data := fillRow state.data channel (reader.getData channel) })
  putDatum := fun channel datum state =>
    { state with
      data := state.data.insert channel
        (datum :: rowOr state.data channel (reader.getData channel)) }
  removeDatum := fun channel index state =>
    { state with
      data := state.data.insert channel
        (removeAt (rowOr state.data channel (reader.getData channel)) index) }
  getJoins := fun channel state =>
    ((state.installedJoins.lookup channel).getD [] ++
        rowOr state.joins channel (reader.getJoins channel),
      { state with
        joins := fillRow state.joins channel (reader.getJoins channel) })
  putJoin := fun channel join state =>
    { state with
      joins := state.joins.insert channel
        (pushJoin (rowOr state.joins channel (reader.getJoins channel)) join) }
  installJoin := fun channel join state =>
    { state with
      installedJoins := state.installedJoins.insert channel
        (pushJoin ((state.installedJoins.lookup channel).getD []) join) }
  removeJoin := fun channel join state =>
    { state with
      joins := state.joins.insert channel
        ((rowOr state.joins channel (reader.getJoins channel)).erase join) }

/-- The rows of a tuple space. -/
@[ext]
structure Space (C P A K Hash : Type) where
  continuations : List C → List (WaitingContinuation P K Hash)
  installedContinuations : List C → Option (WaitingContinuation P K Hash)
  data : C → List (Datum A Hash)
  joins : C → List (List C)
  installedJoins : C → List (List C)

/-- What `get_continuations` shows. -/
def Space.allContinuations (space : Space C P A K Hash) (channels : List C) :
    List (WaitingContinuation P K Hash) :=
  (space.installedContinuations channels).toList ++ space.continuations channels

/-- What `get_joins` shows. -/
def Space.allJoins (space : Space C P A K Hash) (channel : C) : List (List C) :=
  space.installedJoins channel ++ space.joins channel

def spaceStore : HotStore (Space C P A K Hash) C P A K Hash where
  getContinuations := fun channels space => (space.allContinuations channels, space)
  putContinuation := fun channels wc space =>
    { space with
      continuations :=
        Function.update space.continuations channels (wc :: space.continuations channels) }
  installContinuation := fun channels wc space =>
    { space with
      installedContinuations :=
        Function.update space.installedContinuations channels (some wc) }
  removeContinuation := fun channels index space =>
    let installed := (space.installedContinuations channels).isSome
    if installed && index == 0 then space
    else
      { space with
        continuations := Function.update space.continuations channels
          ((space.continuations channels).eraseIdx (storedIndex installed index)) }
  getData := fun channel space => (space.data channel, space)
  putDatum := fun channel datum space =>
    { space with data := Function.update space.data channel (datum :: space.data channel) }
  removeDatum := fun channel index space =>
    { space with data := Function.update space.data channel (removeAt (space.data channel) index) }
  getJoins := fun channel space => (space.allJoins channel, space)
  putJoin := fun channel join space =>
    { space with
      joins :=
        Function.update space.joins channel (pushJoin (space.joins channel) join) }
  installJoin := fun channel join space =>
    { space with
      installedJoins :=
        Function.update space.installedJoins channel (pushJoin (space.installedJoins channel) join) }
  removeJoin := fun channel join space =>
    { space with joins := Function.update space.joins channel ((space.joins channel).erase join) }

def view (reader : HistoryReader C P A K Hash) (state : HotStoreState C P A K Hash) :
    Space C P A K Hash where
  continuations := fun channels =>
    rowOr state.continuations channels (reader.getContinuations channels)
  installedContinuations := state.installedContinuations.lookup
  data := fun channel => rowOr state.data channel (reader.getData channel)
  joins := fun channel => rowOr state.joins channel (reader.getJoins channel)
  installedJoins := fun channel => (state.installedJoins.lookup channel).getD []

theorem row_or_insert {Key Row : Type} [DecidableEq Key] (rows : AList (fun _ : Key => Row))
    (history : Key → Row) (key : Key) (row : Row) :
    (fun k => rowOr (rows.insert key row) k (history k)) =
      Function.update (fun k => rowOr rows k (history k)) key row := by
  funext k
  by_cases same : k = key
  · subst same
    simp [rowOr]
  · simp [rowOr, AList.lookup_insert_ne same, Function.update_of_ne same]

theorem row_or_fill {Key Row : Type} [DecidableEq Key] (rows : AList (fun _ : Key => Row))
    (history : Key → Row) (key : Key) :
    (fun k => rowOr (fillRow rows key (history key)) k (history k)) =
      fun k => rowOr rows k (history k) := by
  unfold fillRow
  split_ifs with present
  · rfl
  · rw [row_or_insert]
    have missing : rows.lookup key = none := AList.lookup_eq_none.mpr present
    funext k
    by_cases same : k = key
    · subst same
      simp [rowOr, missing]
    · rw [Function.update_of_ne same]

/-- A map of states under which the operations of two stores correspond. -/
structure StoreMorphism {State Other : Type} (source : HotStore State C P A K Hash)
    (target : HotStore Other C P A K Hash) (map : State → Other) : Prop where
  getContinuations : ∀ channels state, target.getContinuations channels (map state) =
    ((source.getContinuations channels state).1, map (source.getContinuations channels state).2)
  putContinuation : ∀ channels wc state,
    target.putContinuation channels wc (map state) = map (source.putContinuation channels wc state)
  installContinuation : ∀ channels wc state, target.installContinuation channels wc (map state) =
    map (source.installContinuation channels wc state)
  removeContinuation : ∀ channels index state,
    target.removeContinuation channels index (map state) =
      map (source.removeContinuation channels index state)
  getData : ∀ channel state, target.getData channel (map state) =
    ((source.getData channel state).1, map (source.getData channel state).2)
  putDatum : ∀ channel datum state,
    target.putDatum channel datum (map state) = map (source.putDatum channel datum state)
  removeDatum : ∀ channel index state,
    target.removeDatum channel index (map state) = map (source.removeDatum channel index state)
  getJoins : ∀ channel state, target.getJoins channel (map state) =
    ((source.getJoins channel state).1, map (source.getJoins channel state).2)
  putJoin : ∀ channel join state,
    target.putJoin channel join (map state) = map (source.putJoin channel join state)
  installJoin : ∀ channel join state,
    target.installJoin channel join (map state) = map (source.installJoin channel join state)
  removeJoin : ∀ channel join state,
    target.removeJoin channel join (map state) = map (source.removeJoin channel join state)

theorem view_morphism (reader : HistoryReader C P A K Hash) :
    StoreMorphism (inMemHotStore reader) spaceStore (view reader) := by
  constructor
  case getContinuations =>
    intro channels state
    refine Prod.ext rfl ?_
    apply Space.ext <;> try rfl
    exact (row_or_fill state.continuations reader.getContinuations channels).symm
  case putContinuation =>
    intro channels _ state
    apply Space.ext <;> try rfl
    exact (row_or_insert state.continuations reader.getContinuations channels _).symm
  case installContinuation =>
    intro channels _ _
    refine Space.ext rfl ?_ rfl rfl rfl
    funext other
    by_cases same : other = channels
    · subst same
      simp [spaceStore, inMemHotStore, view]
    · simp [spaceStore, inMemHotStore, view, AList.lookup_insert_ne same, same]
  case removeContinuation =>
    intro channels _ state
    have installed : (state.installedContinuations.lookup channels).isSome =
        decide (channels ∈ state.installedContinuations) := by
      rw [Bool.eq_iff_iff, decide_eq_true_iff, AList.lookup_isSome]
    simp only [spaceStore, inMemHotStore, view, installed]
    split_ifs
    · rfl
    · apply Space.ext <;> try rfl
      exact (row_or_insert state.continuations reader.getContinuations channels _).symm
  case getData =>
    intro channel state
    refine Prod.ext rfl ?_
    apply Space.ext <;> try rfl
    exact (row_or_fill state.data reader.getData channel).symm
  case putDatum =>
    intro channel _ state
    apply Space.ext <;> try rfl
    exact (row_or_insert state.data reader.getData channel _).symm
  case removeDatum =>
    intro channel _ state
    apply Space.ext <;> try rfl
    exact (row_or_insert state.data reader.getData channel _).symm
  case getJoins =>
    intro channel state
    refine Prod.ext rfl ?_
    apply Space.ext <;> try rfl
    exact (row_or_fill state.joins reader.getJoins channel).symm
  case putJoin =>
    intro channel _ state
    apply Space.ext <;> try rfl
    exact (row_or_insert state.joins reader.getJoins channel _).symm
  case installJoin =>
    intro channel _ _
    apply Space.ext <;> try rfl
    funext other
    by_cases same : other = channel
    · subst same
      simp [spaceStore, inMemHotStore, view]
    · simp [spaceStore, inMemHotStore, view, AList.lookup_insert_ne same, same]
  case removeJoin =>
    intro channel _ state
    apply Space.ext <;> try rfl
    exact (row_or_insert state.joins reader.getJoins channel _).symm

end RChain.TupleSpace
