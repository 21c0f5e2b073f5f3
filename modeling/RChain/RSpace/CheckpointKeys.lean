import RChain.Lib.Runs
import RChain.RSpace.History
import RChain.RSpace.Play

/-!
# When a checkpoint finds distinct keys

The overlay gains a continuation row only for a channel list that a call looks at: the
channels of a consume or an install, or a join of a produced channel. `Preserves` is
the induction rule behind this: what every store operation keeps, with the continuation
rows restricted to some lists, every call keeps.
-/

namespace RChain.TupleSpace

open Runs List

variable {State C P A K Hash : Type} [DecidableEq C] [LinearOrder Hash]

/-- Every operation of the store keeps the invariant; continuation rows may be touched for the
allowed channel lists only. -/
structure Preserves (store : HotStore State C P A K Hash) (invariant : State → Prop)
    (allowed : List C → Prop) : Prop where
  getContinuations : ∀ channels state, allowed channels → invariant state →
    invariant (store.getContinuations channels state).2
  putContinuation : ∀ channels wc state, allowed channels → invariant state →
    invariant (store.putContinuation channels wc state)
  installContinuation : ∀ channels wc state, allowed channels → invariant state →
    invariant (store.installContinuation channels wc state)
  removeContinuation : ∀ channels index state, allowed channels → invariant state →
    invariant (store.removeContinuation channels index state)
  getData : ∀ channel state, invariant state → invariant (store.getData channel state).2
  putDatum : ∀ channel datum state, invariant state →
    invariant (store.putDatum channel datum state)
  removeDatum : ∀ channel index state, invariant state →
    invariant (store.removeDatum channel index state)
  getJoins : ∀ channel state, invariant state → invariant (store.getJoins channel state).2
  putJoin : ∀ channel join state, invariant state → invariant (store.putJoin channel join state)
  installJoin : ∀ channel join state, invariant state →
    invariant (store.installJoin channel join state)
  removeJoin : ∀ channel join state, invariant state →
    invariant (store.removeJoin channel join state)

section Calls

variable {store : HotStore State C P A K Hash} {invariant : State → Prop} {allowed : List C → Prop}
  (config : Config C P A K Hash)

section

variable (preserves : Preserves store invariant allowed)

include preserves

omit [LinearOrder Hash] in
theorem fetch_data_preserves (prepare : C → List (Datum A Hash) → List (IndexedDatum A Hash))
    (channels : List C) (state : State) (initial : invariant state) :
    invariant (fetchData store prepare channels state).2 := by
  unfold fetchData
  generalize (fun _ => none : C → Option (List (IndexedDatum A Hash))) = found
  induction channels generalizing state found with
  | nil => exact initial
  | cons channel _ ih => exact ih _ (preserves.getData channel state initial) _

end

section

variable (preserves : Preserves store invariant allowed)

include preserves

theorem search_joins_preserves
    (select : List (WaitingContinuation P K Hash × Nat) → List (WaitingContinuation P K Hash × Nat))
    (prepare : C → List (Datum A Hash) → List (IndexedDatum A Hash)) (grouped : List (List C))
    (listed : ∀ join ∈ grouped, allowed join) (state : State) (initial : invariant state) :
    invariant (searchJoins config store select prepare grouped state).2 ∧
      ∀ pc ∈ (searchJoins config store select prepare grouped state).1, allowed pc.channels := by
  induction grouped generalizing state with
  | nil => exact ⟨initial, fun _ impossible => absurd impossible (Option.not_mem_none _)⟩
  | cons channels _ ih =>
    have head := listed channels mem_cons_self
    have read := preserves.getContinuations channels state head initial
    have fetched := fetch_data_preserves preserves prepare channels _ read
    have tail := ih (fun join mem => listed join (mem_cons_of_mem _ mem)) _ fetched
    simp only [searchJoins]
    cases found : extractFirstMatch config.matcher channels
        (select (store.getContinuations channels state).1.zipIdx)
        (fetchData store prepare channels (store.getContinuations channels state).2).1 with
    | none => exact tail
    | some pc =>
      refine ⟨fetched, ?_⟩
      rintro _ ⟨⟩
      rcases exists_of_findSome?_eq_some found with ⟨_, _, matched⟩
      rcases Option.map_eq_some_iff.mp matched with ⟨_, _, same⟩
      rw [← same]
      exact head

theorem consume_preserves (channels : List C) (patterns : List P) (continuation : K)
    (persist : Bool) (peeks : IndexSet) (space : RSpace State Hash) (listed : allowed channels)
    (initial : invariant space.store) :
    invariant (consume config store channels patterns continuation persist peeks space).2.store := by
  unfold consume
  split_ifs
  · exact initial
  · exact initial
  · have fetched := fetch_data_preserves preserves (fun _ => sortedData) channels space.store initial
    simp only [lockedConsume, RSpace.logConsume]
    cases matchContinuation config.matcher channels
        (fetchData store (fun _ => sortedData) channels space.store).1 patterns with
    | none =>
      exact List.foldlRecOn _ _ (preserves.putContinuation channels _ _ listed fetched)
        fun state kept channel _ => preserves.putJoin channel channels state kept
    | some items => exact store_persistent_keeps invariant preserves.removeDatum items fetched

theorem produce_preserves (channel : C) (data : A) (persist : Bool) (space : RSpace State Hash)
    (listed : ∀ join ∈ (store.getJoins channel (store.getJoins channel space.store).2).1,
      allowed join) (initial : invariant space.store) :
    invariant (produce config store channel data persist space).2.store := by
  have read := preserves.getJoins channel _ (preserves.getJoins channel space.store initial)
  have searched := search_joins_preserves config preserves id (withProduced channel
    ⟨data, persist, Produce.apply config channel data persist⟩) _ listed _ read
  simp only [produce, lockedProduce]
  cases found : (extractProduceCandidate config store channel
      ⟨data, persist, Produce.apply config channel data persist⟩ _ _).1 with
  | none => exact preserves.putDatum _ _ _ searched.1
  | some pc =>
    apply remove_matched_keeps invariant preserves.removeDatum
      (fun place => preserves.removeJoin place pc.channels)
    dsimp only [RSpace.logComm]
    split_ifs
    · exact searched.1
    · exact preserves.removeContinuation _ _ _ (searched.2 pc found) searched.1

theorem install_preserves (channels : List C) (patterns : List P) (continuation : K)
    (space : RSpace State Hash) (listed : allowed channels) (initial : invariant space.store) :
    invariant (install config store channels patterns continuation space).2.store := by
  have read := preserves.getContinuations channels space.store listed initial
  have fetched := fetch_data_preserves preserves (fun _ => indexed) channels _ read
  simp only [install, lockedInstall]
  split_ifs
  · exact initial
  · exact read
  · cases matchContinuation config.matcher channels (fetchData store (fun _ => indexed) channels
        (store.getContinuations channels space.store).2).1 patterns with
    | some => exact fetched
    | none =>
      exact List.foldlRecOn _ _ (preserves.installContinuation channels _ _ listed fetched)
        fun state kept channel _ => preserves.installJoin channel channels state kept

end

end Calls

section Overlay

variable (reader : HistoryReader C P A K Hash)

/-- The channel lists a call may read or write continuations of. -/
def touched (state : HotStoreState C P A K Hash) : Call C P A K → List (List C)
  | .operation (.consume channels _ _ _ _) => [channels]
  | .operation (.produce channel _ _) => ((inMemHotStore reader).getJoins channel state).1
  | .install channels _ _ => [channels]

omit [LinearOrder Hash] in
theorem overlay_preserves (old : List (List C)) (allowed : List C → Prop) :
    Preserves (inMemHotStore reader)
      (fun state => ∀ key ∈ state.continuations, key ∈ old ∨ allowed key) allowed := by
  have inserted : ∀ (state : HotStoreState C P A K Hash) (channels : List C)
      (row : List (WaitingContinuation P K Hash)), allowed channels →
      (∀ key ∈ state.continuations, key ∈ old ∨ allowed key) →
      ∀ key ∈ state.continuations.insert channels row, key ∈ old ∨ allowed key := by
    intro _ _ _ listed kept key mem
    rcases (AList.mem_insert _).mp mem with same | present
    · rw [same]
      exact Or.inr listed
    · exact kept key present
  constructor
  case getContinuations =>
    intro channels state listed kept key mem
    dsimp only [inMemHotStore, fillRow] at mem
    split_ifs at mem
    · exact kept key mem
    · exact inserted state channels _ listed kept key mem
  case putContinuation =>
    intro channels _ state listed kept
    exact inserted state channels _ listed kept
  case installContinuation =>
    intro _ _ _ _ kept
    exact kept
  case removeContinuation =>
    intro channels _ state listed kept
    simp only [inMemHotStore]
    split_ifs
    · exact kept
    · exact inserted state channels _ listed kept
  case getData => exact fun _ _ kept => kept
  case putDatum => exact fun _ _ _ kept => kept
  case removeDatum => exact fun _ _ _ kept => kept
  case getJoins => exact fun _ _ kept => kept
  case putJoin => exact fun _ _ _ kept => kept
  case installJoin => exact fun _ _ _ kept => kept
  case removeJoin => exact fun _ _ _ kept => kept

theorem call_touches (config : Config C P A K Hash)
    (space : RSpace (HotStoreState C P A K Hash) Hash) (call : Call C P A K) :
    ∀ key ∈ (afterCall config (inMemHotStore reader) space call).store.continuations,
      key ∈ space.store.continuations.keys ∨ key ∈ touched reader space.store call := by
  have preserves := overlay_preserves reader space.store.continuations.keys
    (· ∈ touched reader space.store call)
  have initial : ∀ key ∈ space.store.continuations, key ∈ space.store.continuations.keys ∨
      key ∈ touched reader space.store call := fun key mem => Or.inl (AList.mem_keys.mp mem)
  cases call with
  | install channels patterns continuation =>
    exact install_preserves config preserves channels patterns continuation space
      (mem_singleton_self channels) initial
  | operation operation =>
    cases operation with
    | consume channels patterns continuation persist peeks =>
      exact consume_preserves config preserves channels patterns continuation persist peeks space
        (mem_singleton_self channels) initial
    | produce channel data persist =>
      apply produce_preserves config preserves channel data persist space _ initial
      intro _ mem
      -- Reading the joins a second time shows the same ones.
      have shown := congrFun (row_or_fill space.store.joins reader.getJoins channel) channel
      have twice := congrArg ((space.store.installedJoins.lookup channel).getD [] ++ ·) shown
      exact (congrArg (_ ∈ ·) twice).mp mem

/-- The call looks at no other order of channels that have a row or that it looks at. -/
def KeepsOrder (space : RSpace (HotStoreState C P A K Hash) Hash) (call : Call C P A K) : Prop :=
  OneOrder (touched reader space.store call ++ space.store.continuations.keys)

instance (space : RSpace (HotStoreState C P A K Hash) Hash) (call : Call C P A K) :
    Decidable (KeepsOrder reader space call) :=
  inferInstanceAs (Decidable (OneOrder _))

theorem call_keeps_order (config : Config C P A K Hash)
    (space : RSpace (HotStoreState C P A K Hash) Hash) (call : Call C P A K)
    (keeps : KeepsOrder reader space call) :
    OneOrder (afterCall config (inMemHotStore reader) space call).store.continuations.keys := by
  have listed : ∀ key ∈ (afterCall config (inMemHotStore reader)
      space call).store.continuations.keys,
      key ∈ touched reader space.store call ++ space.store.continuations.keys := by
    intro key mem
    rw [mem_append]
    exact (call_touches reader config space call key (AList.mem_keys.mpr mem)).symm
  intro left leftMember right rightMember perm
  exact keeps left (listed left leftMember) right (listed right rightMember) perm

/-- Over any snapshot: if no call meets channels in two orders, a checkpoint finds distinct
keys; and in any state it does so exactly when no channels have rows in two orders. -/
theorem checkpoint_keys_distinct (config : Config C P A K Hash) (ideal : config.blake.Ideal)
    (lawful : config.channels.Lawful) (calls : List (Call C P A K)) :
    (Guarded (afterCall config (inMemHotStore reader)) (KeepsOrder reader) calls RSpace.fresh →
      hasNoDuplicates (historyActions config
        (calls.foldl (afterCall config (inMemHotStore reader)) RSpace.fresh).store) = true) ∧
    (hasNoDuplicates (historyActions config
        (calls.foldl (afterCall config (inMemHotStore reader)) RSpace.fresh).store) = true ↔
      OneOrder
        (calls.foldl (afterCall config (inMemHotStore reader)) RSpace.fresh).store.continuations.keys) := by
  refine ⟨?_, has_no_duplicates_iff ideal lawful _⟩
  intro guarded
  rw [has_no_duplicates_iff ideal lawful]
  apply guarded_invariant (fun space : RSpace (HotStoreState C P A K Hash) Hash =>
    OneOrder space.store.continuations.keys) _ calls RSpace.fresh _ guarded
  · intro space call _ keeps
    exact call_keeps_order reader config space call keeps
  · intro _ member
    exact absurd member not_mem_nil

end Overlay

/-- Two consumes on one list of channels and one on other channels. -/
def repeatedOrder : List (Call Nat Nat Nat Nat) :=
  [.operation (.consume [1, 2] [0, 0] 7 false IndexSet.empty),
    .operation (.consume [1, 2] [0, 0] 8 false IndexSet.empty), .operation (.produce 1 5 false),
    .install [3] [0] 9, .operation (.produce 2 6 false)]

theorem checkpoint_keys_distinct_repeated_order :
    Guarded (afterCall naturalConfig (inMemHotStore HistoryReader.empty))
        (KeepsOrder HistoryReader.empty) repeatedOrder RSpace.fresh ∧
      hasNoDuplicates (historyActions naturalConfig (repeatedOrder.foldl
        (afterCall naturalConfig (inMemHotStore HistoryReader.empty)) RSpace.fresh).store) = true := by
  have guarded : Guarded (afterCall naturalConfig (inMemHotStore HistoryReader.empty))
      (KeepsOrder HistoryReader.empty) repeatedOrder RSpace.fresh := by
    decide +kernel
  exact ⟨guarded, (checkpoint_keys_distinct HistoryReader.empty naturalConfig verbatim_ideal
    unary_lawful repeatedOrder).1 guarded⟩

/-- Two consumes on the same channels in different orders. -/
def twoOrders : List (Call Nat Nat Nat Nat) :=
  [.operation (.consume [1, 2] [0, 0] 7 false IndexSet.empty),
    .operation (.consume [2, 1] [0, 0] 8 false IndexSet.empty)]

/-- Both rows get one key, and the checkpoint stops at the assertion. -/
theorem two_orders_duplicate_key : hasNoDuplicates (historyActions naturalConfig (twoOrders.foldl
      (afterCall naturalConfig (inMemHotStore HistoryReader.empty)) RSpace.fresh).store) = false := by
  decide +kernel

end RChain.TupleSpace
