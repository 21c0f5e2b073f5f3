import RChain.RSpace.Checkpoint
import RChain.RSpace.RowAgreement

/-!
# What a checkpoint writes and what is read back

A checkpoint stores every row of the overlay as a leaf under the hash of its bytes and
leaves the other rows alone. If the rows come back from their encodings, the rows shown
at the new root are those of the overlay and the old root, up to order.
-/

namespace RChain.TupleSpace

open BitCodec List Function

variable {Trie C P A K Hash : Type} [LinearOrder Hash]

section Leaves

def PersistedData.bytes : PersistedData → List Byte
  | .joinsLeaf bytes => bytes
  | .dataLeaf bytes => bytes
  | .continuationsLeaf bytes => bytes
  | .nativeLeaf bytes => bytes

theorem decode_persisted_data (leaf : PersistedData) (fits : leaf.bytes.length < 2 ^ 64) :
    decodePersistedData (encodePersistedData leaf) = some leaf := by
  have tagged : ∀ (tag : Nat) (bytes : List Byte) (value : PersistedData), tag < 2 ^ 2 →
      bytes.length < 2 ^ 64 → leafOfTag tag bytes = some value →
      Reads readPersistedData
        (writeBits 2 tag ++ (writeBits 64 bytes.length ++ writeBytes bytes)) value := by
    intro tag bytes value small short same
    have lifted : Reads (StateT.lift (leafOfTag tag bytes)) [] value := by
      intro _
      rw [same]
      rfl
    have read : Reads readPersistedData (writeBits 2 tag ++ (writeSizeHead bytes ++ [])) value :=
      reads_bind (reads_bits small) (reads_bind (reads_size_head short) lifted)
    rwa [append_nil] at read
  unfold decodePersistedData encodePersistedData
  cases leaf with
  | joinsLeaf bytes => exact run_finished (tagged 0 bytes _ (by decide) fits rfl)
  | dataLeaf bytes => exact run_finished (tagged 1 bytes _ (by decide) fits rfl)
  | continuationsLeaf bytes => exact run_finished (tagged 2 bytes _ (by decide) fits rfl)
  | nativeLeaf bytes => exact run_finished (tagged 3 bytes _ (by decide) fits rfl)

/-- Every leaf of the cold store is under the hash of its bytes. -/
def Addressed (blake : Blake2b256 Hash) (leaves : Hash → Option (List Byte)) : Prop :=
  ∀ hash bytes, leaves hash = some bytes → hash = blake.create bytes

variable {blake : Blake2b256 Hash}

theorem put_leaves_at (written : List (Hash × PersistedData)) (leaves : Hash → Option (List Byte))
    (hash : Hash) :
    putLeaves leaves written hash = leaves hash ∧ (∀ leaf ∈ written, leaf.1 ≠ hash) ∨
      ∃ leaf ∈ written, leaf.1 = hash ∧
        putLeaves leaves written hash = some (encodePersistedData leaf.2) := by
  induction written generalizing leaves with
  | nil => exact .inl ⟨rfl, fun _ mem => absurd mem not_mem_nil⟩
  | cons leaf _ ih =>
    rw [putLeaves, foldl_cons]
    rcases ih (Function.update leaves leaf.1 (some (encodePersistedData leaf.2))) with
      ⟨same, others⟩ | ⟨other, mem, place, value⟩
    · by_cases equal : leaf.1 = hash
      · refine .inr ⟨leaf, mem_cons_self, equal, ?_⟩
        refine same.trans ?_
        rw [equal, update_self]
      · refine .inl ⟨?_, ?_⟩
        · refine same.trans ?_
          rw [update_of_ne (Ne.symm equal)]
        · intro other mem
          rcases mem_cons.mp mem with head | tail
          · rw [head]
            exact equal
          · exact others other tail
    · exact .inr ⟨other, mem_cons_of_mem _ mem, place, value⟩

variable {leaves : Hash → Option (List Byte)} {cold : List (Hash × PersistedData)}

/-- The leaves to write are under the hashes of their bytes. -/
def ColdAddressed (blake : Blake2b256 Hash) (cold : List (Hash × PersistedData)) : Prop :=
  ∀ leaf ∈ cold, leaf.1 = blake.create (encodePersistedData leaf.2)

theorem put_absent_keeps {hash : Hash} {bytes : List Byte} (present : leaves hash = some bytes) :
    putAbsent leaves cold hash = some bytes := by
  rcases put_leaves_at (cold.filter fun leaf => (leaves leaf.1).isNone) leaves hash with
    ⟨same, _⟩ | ⟨_, mem, place, _⟩
  · exact same.trans present
  · have absent := (mem_filter.mp mem).2
    rw [place, present] at absent
    exact absurd absent Bool.false_ne_true

theorem put_absent_writes (ideal : blake.Ideal) (addressed : Addressed blake leaves)
    (contents : ColdAddressed blake cold) {leaf : Hash × PersistedData} (mem : leaf ∈ cold) :
    putAbsent leaves cold leaf.1 = some (encodePersistedData leaf.2) := by
  cases present : leaves leaf.1 with
  | some bytes =>
    rw [put_absent_keeps present]
    have place := (addressed leaf.1 bytes present).symm.trans (contents leaf mem)
    rw [ideal.create_injective place]
  | none =>
    have listed : leaf ∈ cold.filter fun leaf => (leaves leaf.1).isNone :=
      mem_filter.mpr ⟨mem, by rw [present]; rfl⟩
    rcases put_leaves_at (cold.filter fun leaf => (leaves leaf.1).isNone) leaves leaf.1 with
      ⟨_, others⟩ | ⟨other, written, place, value⟩
    · exact absurd rfl (others leaf listed)
    · refine value.trans ?_
      have same := (contents other (mem_filter.mp written).1).symm.trans
        (place.trans (contents leaf mem))
      rw [ideal.create_injective same]

theorem put_absent_addressed (addressed : Addressed blake leaves)
    (contents : ColdAddressed blake cold) : Addressed blake (putAbsent leaves cold) := by
  intro hash bytes present
  rcases put_leaves_at (cold.filter fun leaf => (leaves leaf.1).isNone) leaves hash with
    ⟨same, _⟩ | ⟨other, written, place, value⟩
  · exact addressed hash bytes (same.symm.trans present)
  · have equal := Option.some.inj (value.symm.trans present)
    rw [← place, contents other (mem_filter.mp written).1, equal]

end Leaves

section Rows

variable (config : Config C P A K Hash)

def rowAction {Item : Type} (kind : RowKind Item) (hash : Hash) (row : List Item) :
    (Hash × Option PersistedData) × HistoryAction Hash :=
  if row.isEmpty then ((hash, none), .delete (keySegment config.blake kind.tag hash))
  else insertLeaf config (keySegment config.blake kind.tag hash) (kind.leaf (kind.encode row))

theorem storage_actions_rows (state : HotStoreState C P A K Hash) : storageActions config state =
      state.continuations.entries.map (fun row => rowAction config (continuationRows config)
          (hashChannels config.blake config.channels row.1) row.2) ++
        state.data.entries.map (fun row => rowAction config (dataRows config)
          (hashChannel config.blake config.channels row.1) row.2) ++
        state.joins.entries.map (fun row => rowAction config (joinRows config)
          (hashChannel config.blake config.channels row.1) row.2) := by
  simp only [storageActions, changes, map_append, map_map]
  congr 1
  congr 1
  all_goals
    apply map_congr_left
    intro _ _
    simp only [comp_apply, rowAction]
    split_ifs
    · rfl
    · rfl

omit [LinearOrder Hash] in
theorem row_action_cases {Item : Type} (kind : RowKind Item) (hash : Hash) (row : List Item) :
    row = [] ∧ rowAction config kind hash row =
        ((hash, none), .delete (keySegment config.blake kind.tag hash)) ∨
      row ≠ [] ∧ rowAction config kind hash row =
        insertLeaf config (keySegment config.blake kind.tag hash) (kind.leaf (kind.encode row)) := by
  cases row with
  | nil => exact .inl ⟨rfl, rfl⟩
  | cons item row => exact .inr ⟨cons_ne_nil item row, rfl⟩

variable {config} {state : HotStoreState C P A K Hash}

theorem storage_action_cases {action : (Hash × Option PersistedData) × HistoryAction Hash}
    (mem : action ∈ storageActions config state) :
    (∃ hash key, action = ((hash, none), .delete key)) ∨
      ∃ key leaf, action = insertLeaf config key leaf := by
  have each : ∀ {Item : Type} (kind : RowKind Item) (hash : Hash) (row : List Item),
      (∃ other key, rowAction config kind hash row = ((other, none), .delete key)) ∨
        ∃ key leaf, rowAction config kind hash row = insertLeaf config key leaf := by
    intro _ kind hash row
    rcases row_action_cases config kind hash row with ⟨_, same⟩ | ⟨_, same⟩
    · exact .inl ⟨_, _, same⟩
    · exact .inr ⟨_, _, same⟩
  rw [storage_actions_rows, mem_append, mem_append] at mem
  rcases mem with (listed | listed) | listed
  · rcases mem_map.mp listed with ⟨_, _, same⟩
    exact same ▸ each _ _ _
  · rcases mem_map.mp listed with ⟨_, _, same⟩
    exact same ▸ each _ _ _
  · rcases mem_map.mp listed with ⟨_, _, same⟩
    exact same ▸ each _ _ _

theorem mem_cold_actions {hash : Hash} {leaf : PersistedData} {action : HistoryAction Hash}
    (mem : ((hash, some leaf), action) ∈ storageActions config state) :
    (hash, leaf) ∈ coldActions config state :=
  mem_filterMap.mpr ⟨_, mem, rfl⟩

theorem cold_addressed (state : HotStoreState C P A K Hash) :
    ColdAddressed config.blake (coldActions config state) := by
  intro _ mem
  rcases mem_filterMap.mp mem with ⟨_, listed, same⟩
  rcases storage_action_cases listed with ⟨_, _, deleted⟩ | ⟨_, _, inserted⟩
  · rw [deleted] at same
    exact absurd same (by nofun)
  · rw [inserted] at same
    rw [← Option.some.inj same]
    rfl

/-- The row comes back from its encoding, up to order. -/
structure Recovers {Item : Type} (kind : RowKind Item) (row : List Item) : Prop where
  bytes : (kind.encode row).length < 2 ^ 64
  decoded : ∃ back, kind.decode (kind.encode row) = some back ∧ back.Perm row

/-- The leaves of a kind are told apart from those of the others. -/
structure RowKind.Sound {Item : Type} (kind : RowKind Item) : Prop where
  contents : ∀ bytes, kind.contents (kind.leaf bytes) = some bytes
  bytes : ∀ bytes, (kind.leaf bytes).bytes = bytes

omit [LinearOrder Hash] in
theorem data_rows_sound : (dataRows config).Sound := ⟨fun _ => rfl, fun _ => rfl⟩

omit [LinearOrder Hash] in
theorem continuation_rows_sound : (continuationRows config).Sound := ⟨fun _ => rfl, fun _ => rfl⟩

omit [LinearOrder Hash] in
theorem join_rows_sound : (joinRows config).Sound := ⟨fun _ => rfl, fun _ => rfl⟩

/-- The cold store holds every leaf that the history points at, under the hash of its bytes. -/
structure Repository.Stored (config : Config C P A K Hash) (history : History Trie Hash)
    (repository : Repository Trie Hash) : Prop where
  addressed : Addressed config.blake repository.leaves
  present : ∀ key hash, history.read repository.history key = some hash →
    ∃ bytes, repository.leaves hash = some bytes

variable {history : History Trie Hash} {repository : Repository Trie Hash}

/-- The repository after the rows of an overlay were stored. -/
def Repository.commit (config : Config C P A K Hash) (history : History Trie Hash)
    (repository : Repository Trie Hash) (state : HotStoreState C P A K Hash) :
    Repository Trie Hash :=
  let next := history.process repository.history (historyActions config state)
  ⟨next, history.root next :: repository.roots,
    putAbsent repository.leaves (coldActions config state)⟩

omit [LinearOrder Hash] in
theorem fetch_leaf_eq (law : history.Lawful) (tag : Byte) (hash : Hash) :
    fetchLeaf config history repository tag hash = leafAt repository.leaves
        (history.read repository.history (keySegment config.blake tag hash)) := by
  unfold fetchLeaf
  dsimp only
  rw [law.read_reset]

section Commit

variable (lawful : config.Lawful) (law : history.Lawful)
  (stored : repository.Stored config history) {state : HotStoreState C P A K Hash}
  (distinct : hasNoDuplicates (historyActions config state) = true)

include law distinct

variable {Item : Type} {hash : Hash}

theorem committed_row (ideal : config.blake.Ideal) (stored : repository.Stored config history)
    {kind : RowKind Item} (sound : kind.Sound) {row : List Item}
    (mem : rowAction config kind hash row ∈ storageActions config state)
    (recovers : Recovers kind row) :
    ∃ back, readRow config history (repository.commit config history state) kind hash = .ok back ∧
      back.Perm row := by
  have action : (rowAction config kind hash row).2 ∈ historyActions config state :=
    mem_map_of_mem mem
  rcases row_action_cases config kind hash row with ⟨empty, same⟩ | ⟨_, same⟩
  · rw [same] at action
    refine ⟨[], ?_, by rw [empty]⟩
    have missing := law.read_deleted repository.history _ _ distinct action
    rw [readRow, fetch_leaf_eq law]
    simp only [Repository.commit, missing, leafAt, Option.bind_none]
  · rw [same] at action mem
    rcases recovers.decoded with ⟨back, decoded, perm⟩
    refine ⟨back, ?_, perm⟩
    have found := law.read_inserted repository.history _ _ _ distinct action
    have written := put_absent_writes ideal stored.addressed (cold_addressed state)
      (mem_cold_actions mem)
    have leaf := decode_persisted_data (kind.leaf (kind.encode row))
      (by rw [sound.bytes]; exact recovers.bytes)
    rw [readRow, fetch_leaf_eq law]
    simp only [Repository.commit, found, leafAt, Option.bind_some, written, leaf, sound.contents,
      decoded]

theorem uncommitted_row (stored : repository.Stored config history) (kind : RowKind Item)
    (other : keySegment config.blake kind.tag hash ∉
      (historyActions config state).map HistoryAction.key) :
    readRow config history (repository.commit config history state) kind hash =
      readRow config history repository kind hash := by
  have unchanged := law.read_other repository.history _ _ distinct other
  have leaf : fetchLeaf config history (repository.commit config history state) kind.tag hash =
      fetchLeaf config history repository kind.tag hash := by
    rw [fetch_leaf_eq law, fetch_leaf_eq law]
    simp only [Repository.commit, unchanged]
    cases found : history.read repository.history (keySegment config.blake kind.tag hash) with
    | none => rfl
    | some =>
      rcases stored.present _ _ found with ⟨_, present⟩
      simp only [leafAt, Option.bind_some, put_absent_keeps present, present]
  unfold readRow
  rw [leaf]

theorem commit_stored (ideal : config.blake.Ideal) (stored : repository.Stored config history) :
    (repository.commit config history state).Stored config history := by
  refine ⟨put_absent_addressed stored.addressed (cold_addressed state), ?_⟩
  intro key hash found
  by_cases touched : key ∈ (historyActions config state).map HistoryAction.key
  · rcases mem_map.mp touched with ⟨_, listed, place⟩
    rcases mem_map.mp listed with ⟨_, mem, same⟩
    rcases storage_action_cases mem with ⟨_, _, deleted⟩ | ⟨_, _, inserted⟩
    · rw [deleted] at same
      subst same
      subst place
      have missing := law.read_deleted repository.history _ _ distinct listed
      rw [Repository.commit, HistoryAction.key, missing] at found
      exact absurd found (by nofun)
    · rw [inserted] at same mem
      subst same
      subst place
      have inserted := law.read_inserted repository.history _ _ _ distinct listed
      rw [Repository.commit, insertLeaf, HistoryAction.key, inserted] at found
      rw [← Option.some.inj found]
      exact ⟨_, put_absent_writes ideal stored.addressed (cold_addressed state)
        (mem_cold_actions mem)⟩
  · have unchanged := law.read_other repository.history _ _ distinct touched
    rw [Repository.commit, unchanged] at found
    rcases stored.present key hash found with ⟨bytes, present⟩
    exact ⟨bytes, put_absent_keeps present⟩

end Commit

end Rows

section Commits

variable {config : Config C P A K Hash} {history : History Trie Hash}
  {repository : Repository Trie Hash} {state : HotStoreState C P A K Hash} {left right : List C}
  {Item : Type}

omit [LinearOrder Hash] in
theorem channel_order_perm (lawful : config.Lawful) (perm : left.Perm right) :
    channelOrder config left = channelOrder config right := by
  apply sort_eq_of_perm _ perm
  intro _ _ _ _ same
  exact lawful.channels.injective (vec_key_injective same)

omit [LinearOrder Hash] in
theorem ordered_perm_eq (lawful : config.Lawful) (leftOrdered : channelOrder config left = left)
    (rightOrdered : channelOrder config right = right) (perm : left.Perm right) : left = right := by
  rw [← leftOrdered, ← rightOrdered]
  exact channel_order_perm lawful perm

theorem mem_history_keys (ideal : config.blake.Ideal) (tag : Byte) (hash : Hash) :
    keySegment config.blake tag hash ∈ (historyActions config state).map HistoryAction.key ↔
      (∃ channels ∈ state.continuations, kontTag = tag ∧
          hashChannels config.blake config.channels channels = hash) ∨
        (∃ channel ∈ state.data, datumTag = tag ∧
          hashChannel config.blake config.channels channel = hash) ∨
        ∃ channel ∈ state.joins, joinsTag = tag ∧
          hashChannel config.blake config.channels channel = hash := by
  rw [history_keys]
  simp only [mem_append, mem_map, key_segment_eq_iff ideal, or_assoc, AList.mem_keys]

/-- Every row can be read. -/
structure Readable (config : Config C P A K Hash) (history : History Trie Hash)
    (repository : Repository Trie Hash) : Prop where
  data : ∀ channel, ∃ row, readData config history repository channel = .ok row
  continuations : ∀ channels, ∃ row, readContinuations config history repository channels = .ok row
  joins : ∀ channel, ∃ row, readJoins config history repository channel = .ok row

/-- The rows of the overlay come back from their encodings, and its continuations are kept under
lists in encoding order. -/
structure Storable (config : Config C P A K Hash) (state : HotStoreState C P A K Hash) : Prop where
  data : ∀ entry ∈ state.data.entries, Recovers (dataRows config) entry.2
  continuations : ∀ entry ∈ state.continuations.entries,
    Recovers (continuationRows config) entry.2
  joins : ∀ entry ∈ state.joins.entries, Recovers (joinRows config) entry.2
  ordered : ∀ channels ∈ state.continuations, channelOrder config channels = channels

theorem storable_distinct (lawful : config.Lawful) (storable : Storable config state) :
    hasNoDuplicates (historyActions config state) = true := by
  rw [has_no_duplicates_iff lawful.blake lawful.channels]
  intro left leftMember right rightMember perm
  exact ordered_perm_eq lawful (storable.ordered left (AList.mem_keys.mpr leftMember))
    (storable.ordered right (AList.mem_keys.mpr rightMember)) perm

theorem row_after_commit {Key : Type} [DecidableEq Key] (lawful : config.Lawful)
    (law : history.Lawful) (stored : repository.Stored config history)
    (storable : Storable config state) {kind : RowKind Item} (sound : kind.Sound)
    {rows : AList fun _ : Key => List Item} {hash : Key → Hash} (written : ∀ entry ∈ rows.entries,
      rowAction config kind (hash entry.1) entry.2 ∈ storageActions config state)
    (recovers : ∀ entry ∈ rows.entries, Recovers kind entry.2) {key : Key} {old : List Item}
    (other : key ∉ rows → keySegment config.blake kind.tag (hash key) ∉
      (historyActions config state).map HistoryAction.key)
    (read : readRow config history repository kind (hash key) = .ok old) :
    ∃ back, readRow config history (repository.commit config history state) kind (hash key) =
        .ok back ∧ (rowOr rows key old).Perm back := by
  have distinct := storable_distinct lawful storable
  cases found : rows.lookup key with
  | some =>
    have entry := AList.mem_lookup_iff.mp found
    rcases committed_row law distinct lawful.blake stored sound (written _ entry)
      (recovers _ entry) with ⟨back, same, perm⟩
    refine ⟨back, same, ?_⟩
    rw [rowOr, found]
    exact perm.symm
  | none =>
    have missing := AList.lookup_eq_none.mp found
    refine ⟨old, ?_, ?_⟩
    · rw [uncommitted_row law distinct stored kind (other missing)]
      exact read
    · rw [rowOr, found]
      exact List.Perm.refl old

theorem rows_of_ok {read : Except ReadError (List Item)} {row : List Item} (same : read = .ok row) :
    rowsOf read = row := by
  rw [same]
  rfl

section

variable [DecidableEq C]

variable (lawful : config.Lawful) (law : history.Lawful) (stored : repository.Stored config history)
  (readable : Readable config history repository) (storable : Storable config state)

include lawful law stored readable storable

theorem commit_data (channel : C) :
    ∃ back, readData config history (repository.commit config history state) channel = .ok back ∧
      ((view (historyReader config history repository) state).data channel).Perm back := by
  rcases readable.data channel with ⟨_, read⟩
  simp only [view, historyReader, rows_of_ok read]
  apply row_after_commit lawful law stored storable data_rows_sound _ storable.data _ read
  · intro _ mem
    rw [storage_actions_rows]
    exact mem_append_left _ (mem_append_right _ (mem_map_of_mem mem))
  · intro missing listed
    rcases (mem_history_keys lawful.blake _ _).mp listed with ⟨_, _, tag, _⟩ | ⟨_, mem, _,
      same⟩ | ⟨_, _, tag, _⟩
    · exact absurd tag (by decide : kontTag ≠ datumTag)
    · rw [hash_channel_injective lawful.blake lawful.channels same] at mem
      exact missing mem
    · exact absurd tag (by decide : joinsTag ≠ datumTag)

theorem commit_joins (channel : C) :
    ∃ back, readJoins config history (repository.commit config history state) channel = .ok back ∧
      ((view (historyReader config history repository) state).joins channel).Perm back := by
  rcases readable.joins channel with ⟨_, read⟩
  simp only [view, historyReader, rows_of_ok read]
  apply row_after_commit lawful law stored storable join_rows_sound _ storable.joins _ read
  · intro _ mem
    rw [storage_actions_rows]
    exact mem_append_right _ (mem_map_of_mem mem)
  · intro missing listed
    rcases (mem_history_keys lawful.blake _ _).mp listed with ⟨_, _, tag, _⟩ | ⟨_, _, tag, _⟩ |
      ⟨_, mem, _, same⟩
    · exact absurd tag (by decide : kontTag ≠ joinsTag)
    · exact absurd tag (by decide : datumTag ≠ joinsTag)
    · rw [hash_channel_injective lawful.blake lawful.channels same] at mem
      exact missing mem

theorem commit_continuations {channels : List C}
    (ordered : channelOrder config channels = channels) :
    ∃ back, readContinuations config history (repository.commit config history state) channels =
        .ok back ∧
      ((view (historyReader config history repository) state).continuations channels).Perm back := by
  rcases readable.continuations channels with ⟨_, read⟩
  simp only [view, historyReader, rows_of_ok read]
  apply row_after_commit lawful law stored storable continuation_rows_sound _
    storable.continuations _ read
  · intro _ mem
    rw [storage_actions_rows]
    exact mem_append_left _ (mem_append_left _ (mem_map_of_mem mem))
  · intro missing listed
    rcases (mem_history_keys lawful.blake _ _).mp listed with ⟨other, mem, _, same⟩ |
      ⟨_, _, tag, _⟩ | ⟨_, _, tag, _⟩
    · have perm := (hash_channels_eq_iff lawful.blake lawful.channels other channels).mp same
      rw [ordered_perm_eq lawful (storable.ordered other mem) ordered perm] at mem
      exact missing mem
    · exact absurd tag (by decide : datumTag ≠ kontTag)
    · exact absurd tag (by decide : joinsTag ≠ kontTag)

theorem commit_readable : Readable config history (repository.commit config history state) := by
  refine ⟨?_, ?_, ?_⟩
  · intro channel
    exact (commit_data lawful law stored readable storable channel).imp fun _ both => both.1
  · intro channels
    have reordered := sort_by_key_perm
      (fun channel => vecKey (config.channels.encode channel)) channels
    have again : channelOrder config (channelOrder config channels) = channelOrder config channels :=
      channel_order_perm lawful reordered
    rcases commit_continuations lawful law stored readable storable again with ⟨back, read, _⟩
    refine ⟨back, ?_⟩
    rw [readContinuations, ← (hash_channels_eq_iff lawful.blake lawful.channels _ _).mpr reordered]
    exact read
  · intro channel
    exact (commit_joins lawful law stored readable storable channel).imp fun _ both => both.1

theorem commit_agrees : Agrees config (view (historyReader config history repository) state)
      (view (historyReader config history (repository.commit config history state))
        HotStoreState.empty) := by
  refine ⟨?_, ?_, ?_⟩
  · intro channel
    rcases commit_data lawful law stored readable storable channel with ⟨_, read, perm⟩
    refine perm.trans (List.Perm.of_eq ?_)
    exact (rows_of_ok read).symm
  · intro _ ordered
    rcases commit_continuations lawful law stored readable storable ordered with ⟨_, read, perm⟩
    refine perm.trans (List.Perm.of_eq ?_)
    exact (rows_of_ok read).symm
  · intro channel
    rcases commit_joins lawful law stored readable storable channel with ⟨_, read, perm⟩
    refine perm.trans (List.Perm.of_eq ?_)
    exact (rows_of_ok read).symm

end

end Commits

end RChain.TupleSpace
