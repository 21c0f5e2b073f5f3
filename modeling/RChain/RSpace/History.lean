import RChain.RSpace.HotStore
import RChain.RSpace.Serializers

/-!
# From hot-store changes to history actions

Source: `hot_store.rs` (`changes`), `hot_store_action.rs`, `hot_store_trie_action.rs`,
`history/history_action.rs`, `history/history_repository.rs`, `history/cold_store.rs`
and `has_no_duplicates` of `history/instances/radix_history.rs`, all under `rspace/src`.

The overlay keys continuation rows by a list of channels, the history by the hash of
the sorted channel hashes. Two lists get one key exactly when one reorders the other,
so the keys of a checkpoint are distinct exactly when the overlay lists no channels in
two orders.
-/

namespace RChain.TupleSpace

open BitCodec List Function

inductive HotStoreAction (C P A K Hash : Type) where
  | insertData (channel : C) (data : List (Datum A Hash))
  | insertJoins (channel : C) (joins : List (List C))
  | insertContinuations (channels : List C) (conts : List (WaitingContinuation P K Hash))
  | deleteData (channel : C)
  | deleteJoins (channel : C)
  | deleteContinuations (channels : List C)

inductive HotStoreTrieAction (C P A K Hash : Type) where
  | trieInsertProduce (hash : Hash) (data : List (Datum A Hash))
  | trieInsertJoins (hash : Hash) (joins : List (List C))
  | trieInsertConsume (hash : Hash) (conts : List (WaitingContinuation P K Hash))
  | trieDeleteProduce (hash : Hash)
  | trieDeleteJoins (hash : Hash)
  | trieDeleteConsume (hash : Hash)

inductive HistoryAction (Hash : Type) where
  | insert (key : List Byte) (hash : Hash)
  | delete (key : List Byte)
deriving DecidableEq

def HistoryAction.key {Hash : Type} : HistoryAction Hash → List Byte
  | .insert key _ => key
  | .delete key => key

/-- A persisted leaf. -/
inductive PersistedData where
  | joinsLeaf (bytes : List Byte)
  | dataLeaf (bytes : List Byte)
  | continuationsLeaf (bytes : List Byte)
  | nativeLeaf (bytes : List Byte)
deriving DecidableEq

def encodePersistedData (value : PersistedData) : List Byte :=
  let (tag, bytes) := match value with
    | .joinsLeaf bytes => (0, bytes)
    | .dataLeaf bytes => (1, bytes)
    | .continuationsLeaf bytes => (2, bytes)
    | .nativeLeaf bytes => (3, bytes)
  finish (writeBits 2 tag ++ (writeBits 64 bytes.length ++ writeBytes bytes))

variable {C P A K Hash : Type} [DecidableEq C] [LinearOrder Hash]

/-- The rows of the overlay, an empty row as a deletion. -/
def changes (state : HotStoreState C P A K Hash) : List (HotStoreAction C P A K Hash) :=
  state.continuations.entries.map (fun row =>
      if row.2.isEmpty then .deleteContinuations row.1 else .insertContinuations row.1 row.2) ++
    state.data.entries.map (fun row =>
      if row.2.isEmpty then .deleteData row.1 else .insertData row.1 row.2) ++
    state.joins.entries.map (fun row =>
      if row.2.isEmpty then .deleteJoins row.1 else .insertJoins row.1 row.2)

variable (config : Config C P A K Hash)

def transform : HotStoreAction C P A K Hash → HotStoreTrieAction C P A K Hash
  | .insertData channel data =>
    .trieInsertProduce (hashChannel config.blake config.channels channel) data
  | .insertContinuations channels conts =>
    .trieInsertConsume (hashChannels config.blake config.channels channels) conts
  | .insertJoins channel joins =>
    .trieInsertJoins (hashChannel config.blake config.channels channel) joins
  | .deleteData channel => .trieDeleteProduce (hashChannel config.blake config.channels channel)
  | .deleteContinuations channels =>
    .trieDeleteConsume (hashChannels config.blake config.channels channels)
  | .deleteJoins channel => .trieDeleteJoins (hashChannel config.blake config.channels channel)

def datumTag : Byte := 0

def kontTag : Byte := 1

def joinsTag : Byte := 2

def keySegment (blake : Blake2b256 Hash) (tag : Byte) (hash : Hash) : List Byte :=
  tag :: blake.asBytes hash

/-- The history action that stores a leaf, with the leaf to write. -/
def insertLeaf (key : List Byte) (leaf : PersistedData) :
    (Hash × Option PersistedData) × HistoryAction Hash :=
  let leafHash := config.blake.create (encodePersistedData leaf)
  ((leafHash, some leaf), .insert key leafHash)

def calculateStorageAction :
    HotStoreTrieAction C P A K Hash → (Hash × Option PersistedData) × HistoryAction Hash
  | .trieInsertProduce hash data =>
    insertLeaf config (keySegment config.blake datumTag hash)
      (.dataLeaf (encodeDatums config data))
  | .trieInsertConsume hash conts =>
    insertLeaf config (keySegment config.blake kontTag hash)
      (.continuationsLeaf (encodeContinuations config conts))
  | .trieInsertJoins hash joins =>
    insertLeaf config (keySegment config.blake joinsTag hash)
      (.joinsLeaf (encodeJoins config joins))
  | .trieDeleteProduce hash => ((hash, none), .delete (keySegment config.blake datumTag hash))
  | .trieDeleteConsume hash => ((hash, none), .delete (keySegment config.blake kontTag hash))
  | .trieDeleteJoins hash => ((hash, none), .delete (keySegment config.blake joinsTag hash))

def storageActions (state : HotStoreState C P A K Hash) :
    List ((Hash × Option PersistedData) × HistoryAction Hash) :=
  (changes state).map fun action => calculateStorageAction config (transform config action)

def historyActions (state : HotStoreState C P A K Hash) : List (HistoryAction Hash) :=
  (storageActions config state).map (·.2)

/-- The assertion of `process`. -/
def hasNoDuplicates (actions : List (HistoryAction Hash)) : Bool :=
  decide (actions.map HistoryAction.key).Nodup

section Keys

variable {config : Config C P A K Hash}

omit [LinearOrder Hash] in
theorem key_segment_eq_iff {blake : Blake2b256 Hash} (ideal : blake.Ideal) (tag other : Byte)
    (left right : Hash) :
    keySegment blake tag left = keySegment blake other right ↔ tag = other ∧ left = right := by
  rw [keySegment, keySegment, List.cons.injEq, (as_bytes_injective ideal).eq_iff]

theorem sort_eq_iff_perm {Item : Type} [LinearOrder Item] (left right : List Item) :
    sortByKey id left = sortByKey id right ↔ left.Perm right := by
  constructor
  · intro same
    exact (sort_by_key_perm id left).symm.trans (same ▸ sort_by_key_perm id right)
  · intro perm
    exact List.Perm.eq_of_pairwise (fun _ _ _ _ lower upper => le_antisymm lower upper)
      (sort_by_key_sorted id left) (sort_by_key_sorted id right)
      ((sort_by_key_perm id left).trans (perm.trans (sort_by_key_perm id right).symm))

omit [DecidableEq C] in
theorem hash_channels_eq_iff {blake : Blake2b256 Hash} {channels : Serialize C}
    (ideal : blake.Ideal) (lawful : channels.Lawful) (left right : List C) :
    hashChannels blake channels left = hashChannels blake channels right ↔ left.Perm right := by
  have mapped : (left.map (hashChannel blake channels)).Perm
      (right.map (hashChannel blake channels)) ↔ left.Perm right :=
    map_perm_map_iff (hash_channel_injective ideal lawful)
  have sorted : ∀ list : List C, (sortByKey id (hashSeq blake channels list)) =
      hashSeq blake channels list := by
    intro _
    exact (sort_eq_iff_perm _ _).mpr (sort_by_key_perm _ _)
  rw [← mapped, ← sort_eq_iff_perm]
  constructor
  · intro same
    have hashes := flat_map_bytes_injective ideal _ _ (ideal.create_injective same)
    rwa [sorted, sorted] at hashes
  · intro same
    rw [hashChannels, hashChannels, hashSeq, hashSeq, same]

/-- No two of the lists are different orders of the same channels. -/
def OneOrder (lists : List (List C)) : Prop :=
  ∀ left ∈ lists, ∀ right ∈ lists, left.Perm right → left = right

instance (lists : List (List C)) : Decidable (OneOrder lists) :=
  inferInstanceAs (Decidable (∀ left ∈ lists, ∀ right ∈ lists, left.Perm right → left = right))

omit [DecidableEq C] in
theorem history_keys (state : HotStoreState C P A K Hash) :
    (historyActions config state).map HistoryAction.key =
      state.continuations.keys.map (fun channels => keySegment config.blake kontTag
          (hashChannels config.blake config.channels channels)) ++
        state.data.keys.map (fun channel => keySegment config.blake datumTag
          (hashChannel config.blake config.channels channel)) ++
        state.joins.keys.map (fun channel => keySegment config.blake joinsTag
          (hashChannel config.blake config.channels channel)) := by
  simp only [historyActions, storageActions, changes, map_append, map_map, AList.keys, List.keys]
  congr 1
  congr 1
  all_goals
    apply map_congr_left
    intro _ _
    simp only [comp_apply]
    split_ifs
    · rfl
    · rfl

omit [DecidableEq C] [LinearOrder Hash] in
theorem channel_keys_nodup (ideal : config.blake.Ideal) (lawful : config.channels.Lawful)
    (tag : Byte) {keys : List C} (nodup : keys.Nodup) :
    (keys.map fun channel => keySegment config.blake tag
      (hashChannel config.blake config.channels channel)).Nodup := by
  apply nodup.map
  intro _ _ same
  exact hash_channel_injective ideal lawful ((key_segment_eq_iff ideal _ _ _ _).mp same).2

omit [DecidableEq C] [LinearOrder Hash] in
theorem keys_disjoint (ideal : config.blake.Ideal) {Left Right : Type} {tag other : Byte}
    (different : tag ≠ other) (left : List Left) (right : List Right) (hash : Left → Hash)
    (otherHash : Right → Hash) :
    List.Disjoint (left.map fun item => keySegment config.blake tag (hash item))
      (right.map fun item => keySegment config.blake other (otherHash item)) := by
  intro _ first second
  rcases mem_map.mp first with ⟨_, _, same⟩
  rcases mem_map.mp second with ⟨_, _, equal⟩
  rw [← equal, key_segment_eq_iff ideal] at same
  exact different same.1

omit [DecidableEq C] in
/-- The keys of a checkpoint are distinct exactly when the overlay holds continuation rows for
one order of any channels. -/
theorem has_no_duplicates_iff (ideal : config.blake.Ideal) (lawful : config.channels.Lawful)
    (state : HotStoreState C P A K Hash) :
    hasNoDuplicates (historyActions config state) = true ↔ OneOrder state.continuations.keys := by
  have data := channel_keys_nodup ideal lawful datumTag state.data.keys_nodup
  have joins := channel_keys_nodup ideal lawful joinsTag state.joins.keys_nodup
  have kontData : List.Disjoint
      (state.continuations.keys.map fun channels => keySegment config.blake kontTag
        (hashChannels config.blake config.channels channels)) _ :=
    keys_disjoint ideal (by decide : kontTag ≠ datumTag) state.continuations.keys state.data.keys
      (hashChannels config.blake config.channels) (hashChannel config.blake config.channels)
  have kontJoins : List.Disjoint
      (state.continuations.keys.map fun channels => keySegment config.blake kontTag
        (hashChannels config.blake config.channels channels)) _ :=
    keys_disjoint ideal (by decide : kontTag ≠ joinsTag) state.continuations.keys state.joins.keys
      (hashChannels config.blake config.channels) (hashChannel config.blake config.channels)
  have dataJoins : List.Disjoint
      (state.data.keys.map fun channel => keySegment config.blake datumTag
        (hashChannel config.blake config.channels channel)) _ :=
    keys_disjoint ideal (by decide : datumTag ≠ joinsTag) state.data.keys state.joins.keys
      (hashChannel config.blake config.channels) (hashChannel config.blake config.channels)
  rw [hasNoDuplicates, decide_eq_true_iff, history_keys, nodup_append', nodup_append',
    disjoint_append_left, nodup_map_iff_inj_on state.continuations.keys_nodup]
  constructor
  · rintro ⟨⟨distinct, _⟩, _⟩ left leftMember right rightMember perm
    apply distinct left leftMember right rightMember
    rw [(hash_channels_eq_iff ideal lawful left right).mpr perm]
  · intro order
    refine ⟨⟨?_, data, kontData⟩, joins, kontJoins, dataJoins⟩
    intro left leftMember right rightMember same
    apply order left leftMember right rightMember
    exact (hash_channels_eq_iff ideal lawful left right).mp
      ((key_segment_eq_iff ideal _ _ _ _).mp same).2

end Keys

end RChain.TupleSpace
