import RChain.RSpace.ExportWalk

/-!
# Exports in chunks

The drain of a stored trie against one walk over it. Each chunk has the nodes and leaves of its
piece of the walk, in the order of their hashes and without repetitions; a chunk without a node
loses its last leaf. So the drain gives the walk exactly when every piece has a node and is in the
order of hashes.
-/

namespace RChain.Radix

open BitCodec Blocks Cuts Sorted Steps List Nat

def nodeItems (visits : List Visit) : List (Hash32 × List Byte) :=
  visits.filterMap fun visit =>
    match visit with
    | .node _ key bytes => some (key, bytes)
    | .leaf _ _ => none

def nodeKeys (visits : List Visit) : List Hash32 := (nodeItems visits).map (·.1)

def leafHashes (visits : List Visit) : List Hash32 :=
  visits.filterMap fun visit =>
    match visit with
    | .node _ _ _ => none
    | .leaf _ value => some value

/-- A trie with all its nodes in the history store, under keys that fit a path, and the values of
all its leaves in the value store. -/
structure StoredTrie where
  exporter : RSpaceExporterStore
  rootHash : Hash32
  rootBytes : List Byte
  root : Node Hash32
  height : Nat
  rooted : fetch exporter.historyStore rootHash = some (rootBytes, root)
  fits : Fits exporter.historyStore height root
  short : ∀ keyPrefix key bytes, Visit.node keyPrefix key bytes ∈
    wholeWalk exporter.historyStore traverseSettings height rootHash → keyPrefix.length ≤ 127
  valued : ∀ keyPrefix value, Visit.leaf keyPrefix value ∈
    wholeWalk exporter.historyStore traverseSettings height rootHash →
      (exporter.valueStore value).isSome

namespace StoredTrie

variable (trie : StoredTrie)

def visits : List Visit :=
  wholeWalk trie.exporter.historyStore traverseSettings trie.height trie.rootHash

def leafItems (visits : List Visit) : List (Hash32 × List Byte) :=
  getItems trie.exporter.valueStore (leafHashes visits)

/-- The drain from the root gives the nodes and leaves of the walk, each once and in order. -/
def DrainsWhole (size : Nat) : Prop :=
  ∃ enough, ∀ fuel ≥ enough, ∀ rounds ≥ enough,
    drain trie.exporter size fuel rounds [(trie.rootHash, none)] =
      pure (nodeItems trie.visits, trie.leafItems trie.visits)

def work : Nat := 2 * trie.visits.length + 130

end StoredTrie

/-- A piece with a node, and with its hashes in ascending order. -/
def Regular (piece : List Visit) : Prop :=
  nodeKeys piece ≠ [] ∧ (nodeKeys piece).Pairwise (· < ·) ∧ (leafHashes piece).Pairwise (· < ·)

instance (piece : List Visit) : Decidable (Regular piece) :=
  inferInstanceAs (Decidable (_ ∧ _ ∧ _))

section Items

theorem node_items_append (left right : List Visit) :
    nodeItems (left ++ right) = nodeItems left ++ nodeItems right := filterMap_append

theorem node_keys_append (left right : List Visit) :
    nodeKeys (left ++ right) = nodeKeys left ++ nodeKeys right := by
  rw [nodeKeys, node_items_append, map_append]
  rfl

theorem leaf_hashes_append (left right : List Visit) :
    leafHashes (left ++ right) = leafHashes left ++ leafHashes right := by
  rw [leafHashes, filterMap_append]
  rfl

theorem node_keys_length (visits : List Visit) :
    (nodeKeys visits).length = visits.countP Visit.isNode := by
  induction visits with
  | nil => rfl
  | cons visit _ ih =>
    cases visit with
    | node =>
      rw [countP_cons_of_pos rfl, ← ih]
      rfl
    | leaf =>
      rw [countP_cons_of_neg Bool.false_ne_true, ← ih]
      rfl

theorem collect_keys (data : ExportData) (visits : List Visit) :
    (data.collect traverseSettings visits).nodeKeys = data.nodeKeys ++ nodeKeys visits ∧
      (data.collect traverseSettings visits).leafValues = data.leafValues ++ leafHashes visits := by
  induction visits generalizing data with
  | nil => exact ⟨(append_nil _).symm, (append_nil _).symm⟩
  | cons visit _ ih =>
    obtain ⟨nodes, leaves⟩ := ih (data.add traverseSettings visit)
    rw [ExportData.collect, foldl_cons]
    rw [ExportData.collect] at nodes leaves
    rw [nodes, leaves]
    cases visit with
    | node => exact ⟨append_assoc _ _ _, rfl⟩
    | leaf => exact ⟨rfl, append_assoc _ _ _⟩

variable {store : NodeDataReader} {keys others : List Hash32}

theorem get_items_keys (present : ∀ key ∈ keys, (store key).isSome) :
    (getItems store keys).map (·.1) = keys := by
  induction keys with
  | nil => rfl
  | cons key _ ih =>
    rw [forall_mem_cons] at present
    obtain ⟨_, stored⟩ := Option.isSome_iff_exists.mp present.1
    rw [getItems, filterMap_cons, stored]
    exact congrArg (key :: ·) (ih present.2)

theorem get_items_length (present : ∀ key ∈ keys, (store key).isSome) :
    (getItems store keys).length = keys.length := by
  rw [← congrArg length (get_items_keys present), length_map]

theorem sorted_items_length_le (store : NodeDataReader) (keys : List Hash32) :
    (getItems store (elements keys.toFinset)).length ≤ keys.length := by
  have filtered : (getItems store (elements keys.toFinset)).length ≤
      (elements keys.toFinset).length := length_filterMap_le _ _
  exact filtered.trans (elements_length_le keys)

theorem get_items_eq_iff (present : ∀ key ∈ keys, (store key).isSome)
    (also : ∀ key ∈ others, (store key).isSome) :
    getItems store keys = getItems store others ↔ keys = others := by
  constructor
  · intro same
    rw [← get_items_keys present, same, get_items_keys also]
  · rintro rfl
    rfl

end Items

section Paths

variable {bytes : List Byte}

theorem block_hash (size : bytes.length = 128) (start : Nat) (inside : start + 32 ≤ 128) :
    ∃ hash : Hash32, (slice bytes start (start + 32)).bind Hash32.fromByteArray = some hash ∧
      hash.bytes = (bytes.drop start).take 32 := by
  have length : ((bytes.drop start).take 32).length = 32 := by
    rw [length_take, length_drop]
    omega
  refine ⟨⟨(bytes.drop start).take 32, length⟩, ?_, rfl⟩
  rw [slice, if_pos ⟨Nat.le_add_right _ _, by omega⟩, Option.bind_some, Nat.add_sub_cancel_left]
  exact dif_pos length

theorem four_blocks (size : bytes.length = 128) :
    (bytes.drop 0).take 32 ++ (bytes.drop 32).take 32 ++ (bytes.drop 64).take 32 ++
      (bytes.drop 96).take 32 = bytes := by
  have last : (bytes.drop 96).take 32 = bytes.drop 96 :=
    take_of_length_le (by rw [length_drop]; omega)
  have third : (bytes.drop 64).take 32 ++ bytes.drop 96 = bytes.drop 64 := by
    rw [show bytes.drop 96 = (bytes.drop 64).drop 32 by rw [drop_drop], take_append_drop]
  have second : (bytes.drop 32).take 32 ++ bytes.drop 64 = bytes.drop 32 := by
    rw [show bytes.drop 64 = (bytes.drop 32).drop 32 by rw [drop_drop], take_append_drop]
  rw [last, append_assoc, append_assoc, third, second, drop_zero, take_append_drop]

theorem last_path_read_back {lastPrefix : List Byte} (short : lastPrefix.length ≤ 128)
    (rootHash : Hash32) : ∃ prefixSeq, constructLastPath lastPrefix rootHash =
        some ((rootHash, none) :: prefixSeq) ∧
      ∀ more : List PathItem,
        createLastPrefix ((prefixSeq ++ more).map (·.1)) = .ok (some lastPrefix) := by
  have padded : (lastPrefix ++ replicate (128 - lastPrefix.length) (0 : Byte)).length = 128 := by
    rw [length_append, length_replicate]
    omega
  have sized : (Fin.ofNat 256 lastPrefix.length :: replicate 31 (0 : Byte)).length = 32 := by
    rw [length_cons, length_replicate]
  obtain ⟨first, one, firstBytes⟩ := block_hash padded 0 (by omega)
  obtain ⟨second, two, secondBytes⟩ := block_hash padded 32 (by omega)
  obtain ⟨third, three, thirdBytes⟩ := block_hash padded 64 (by omega)
  obtain ⟨fourth, four, fourthBytes⟩ := block_hash padded 96 (by omega)
  refine ⟨[(⟨_, sized⟩, none), (first, none), (second, none), (third, none), (fourth, none)],
    ?_, fun more => ?_⟩
  · have size : Hash32.fromByteArray (Fin.ofNat 256 lastPrefix.length :: replicate 31 0) =
        some ⟨_, sized⟩ := dif_pos sized
    rw [constructLastPath, if_neg (by omega)]
    simp only [size, mapM_cons, mapM_nil, one, two, three, four, Option.pure_def,
      Option.bind_eq_bind, Option.bind_some, map_cons, map_nil]
  · have size : (Fin.ofNat 256 lastPrefix.length).val = lastPrefix.length :=
      mod_eq_of_lt (by omega)
    simp only [cons_append, map_cons, createLastPrefix, headD_cons, size]
    rw [if_neg (by omega), firstBytes, secondBytes, thirdBytes, fourthBytes, four_blocks padded,
      take_left]

end Paths

/-- A path that starts at a root, and the key that it is read as. -/
def StartsAt (rootHash : Hash32) (startPath : List PathItem) (last : Option (List Byte)) : Prop :=
  ∃ index prefixSeq, startPath = (rootHash, index) :: prefixSeq ∧
    createLastPrefix (prefixSeq.map (·.1)) = .ok last

def chunkNodes (piece : List Visit) (lastPath : List PathItem) : List TrieNode :=
  (constructNodes (leafHashes piece) (nodeKeys piece)).dropLast ++
    (nodeKeys piece).getLast?.elim [] fun lastHash => constructLastNode lastHash lastPath

section Chunk

variable {get : NodeDataReader} {rootHash : Hash32} {startPath lastPath : List PathItem}
  {last newLast : Option (List Byte)} {piece : List Visit} {fuel : Nat} {skip take : Int32}

theorem traverse_history_eq (starts : StartsAt rootHash startPath last)
    (exported : sequentialExport get traverseSettings fuel rootHash last skip take =
      pure (({} : ExportData).collect traverseSettings piece, newLast))
    (path : (newLast.elim (some []) fun last => constructLastPath last rootHash) = some lastPath) :
    traverseHistory fuel startPath skip take get = pure (chunkNodes piece lastPath) := by
  obtain ⟨_, _, rfl, parsed⟩ := starts
  obtain ⟨nodes, leaves⟩ := collect_keys {} piece
  rw [nil_append] at nodes leaves
  rw [traverseHistory, map_cons]
  dsimp only
  rw [parsed, show (ExceptT.mk (some (.ok last)) : Exporting _) = pure last from rfl, pure_bind,
    exported, pure_bind]
  dsimp only
  rw [path, unwrap, Option.map_some,
    show (ExceptT.mk (some (.ok lastPath)) : Exporting _) = pure lastPath from rfl, pure_bind,
    nodes, leaves]
  rfl

theorem chunk_nodes_of_node (lastPath : List PathItem) {keys : List Hash32} {lastHash : Hash32}
    (present : nodeKeys piece = keys ++ [lastHash]) :
    chunkNodes piece lastPath = ((leafHashes piece).map fun k => ⟨k, true, []⟩) ++
      (keys.map fun k => ⟨k, false, []⟩) ++ [⟨lastHash, false, lastPath⟩] := by
  rw [chunkNodes, present, constructNodes, map_append, ← append_assoc, map_singleton,
    dropLast_concat, getLast?_concat, Option.elim_some, constructLastNode]

theorem chunk_nodes_of_leaves (lastPath : List PathItem) (absent : nodeKeys piece = []) :
    chunkNodes piece lastPath = (leafHashes piece).dropLast.map fun k => ⟨k, true, []⟩ := by
  rw [chunkNodes, absent, constructNodes, map_nil, append_nil, getLast?_nil,
    Option.elim_none, append_nil, map_dropLast]

theorem plain_nodes_hashes (keys : List Hash32) (isLeaf : Bool) :
    (((keys.map fun k => (⟨k, isLeaf, []⟩ : TrieNode)).filter fun n => n.isLeaf).map (·.hash)) =
      (if isLeaf then keys else []) ∧
    (((keys.map fun k => (⟨k, isLeaf, []⟩ : TrieNode)).filter fun n => !n.isLeaf).map (·.hash)) =
      (if isLeaf then [] else keys) := by
  cases isLeaf <;> simp [filter_map, Function.comp_def]

theorem chunk_nodes_hashes (lastPath : List PathItem) (present : nodeKeys piece ≠ []) :
    ((chunkNodes piece lastPath).filter fun n => n.isLeaf).map (·.hash) = leafHashes piece ∧
    ((chunkNodes piece lastPath).filter fun n => !n.isLeaf).map (·.hash) = nodeKeys piece := by
  have split := dropLast_append_getLast present
  rw [chunk_nodes_of_node lastPath split.symm]
  simp only [filter_append, map_append, plain_nodes_hashes]
  refine ⟨by simp, ?_⟩
  simpa using split

variable {exporter : RSpaceExporterStore}

theorem history_and_data_eq {skip take : Nat} {nodes : List TrieNode} {node : TrieNode}
    (traversed : traverseHistory fuel startPath (Int32.ofNat skip) (Int32.ofNat take)
      exporter.historyStore = pure nodes) (ends : nodes.getLast? = some node) :
    getHistoryAndData exporter fuel startPath skip take = pure (⟨getItems exporter.historyStore
          (elements ((nodes.filter fun n => !n.isLeaf).map (·.hash)).toFinset),
        node.path ++ [(node.hash, none)]⟩,
       ⟨getItems exporter.valueStore
          (elements ((nodes.filter fun n => n.isLeaf).map (·.hash)).toFinset),
        node.path ++ [(node.hash, none)]⟩) := by
  have got : exporter.getNodes fuel startPath skip take = some nodes := by
    rw [RSpaceExporterStore.getNodes, traversed]
    rfl
  rw [getHistoryAndData, got, unwrap, Option.map_some,
    show (ExceptT.mk (some (.ok nodes)) : Exporting _) = pure nodes from rfl, pure_bind, ends,
    okOrElse, Option.elim_some, pure_bind]

end Chunk

section Stored

variable {get : NodeDataReader} {settings : ExportDataSettings} {height : Nat} {visited : List Byte}
  {key : Hash32} {bytes : List Byte}

theorem walk_stored {keyPrefix : List Byte} {node : Node Hash32}
    (mem : .node visited key bytes ∈ walk get settings height keyPrefix node) :
    get key = some bytes := by
  induction height generalizing keyPrefix node with
  | zero => cases mem
  | succ _ ih =>
    rw [walk, mem_flatMap] at mem
    obtain ⟨idx, _, mem⟩ := mem
    unfold slotVisits at mem
    cases item : node idx with
    | empty =>
      rw [item] at mem
      cases mem
    | leaf =>
      rw [item] at mem
      dsimp only at mem
      split_ifs at mem
      · cases mem_singleton.mp mem
      · cases mem
    | nodePtr _ ptr =>
      rw [item] at mem
      dsimp only at mem
      cases found : fetch get ptr with
      | none =>
        rw [found] at mem
        cases mem
      | some =>
        rw [found, Option.elim_some] at mem
        rcases mem_cons.mp mem with same | below
        · cases same
          exact (fetch_eq_some.mp found).1
        · exact ih below

theorem whole_walk_stored {rootHash : Hash32}
    (mem : .node visited key bytes ∈ wholeWalk get settings height rootHash) :
    get key = some bytes := by
  rw [wholeWalk] at mem
  cases found : fetch get rootHash with
  | none =>
    rw [found] at mem
    cases mem
  | some =>
    rw [found, Option.elim_some] at mem
    rcases mem_cons.mp mem with same | below
    · cases same
      exact (fetch_eq_some.mp found).1
    · exact walk_stored below

end Stored

namespace StoredTrie

variable {trie : StoredTrie} {last : Option (List Byte)} {visits : List Visit}
  {startPath : List PathItem} {fuel size : Nat}

/-- Where an export of the trie starts, and the visits from there on. -/
abbrev At (trie : StoredTrie) (last : Option (List Byte)) (visits : List Visit) : Prop :=
  Position trie.exporter.historyStore traverseSettings trie.height trie.rootHash last visits

theorem At.suffix (position : trie.At last visits) : visits <:+ trie.visits := by
  cases position with
  | start => exact suffix_refl _
  | resumed resumes =>
    obtain ⟨_, _, _, whole⟩ := resumes.after_visit trie.rooted trie.fits
    rw [StoredTrie.visits, whole, append_cons]
    exact suffix_append _ _

theorem At.short (position : trie.At last visits) : (last.getD []).length ≤ 127 := by
  cases position with
  | start => exact zero_le _
  | resumed resumes =>
    obtain ⟨_, key, bytes, whole⟩ := resumes.after_visit trie.rooted trie.fits
    exact trie.short _ key bytes (by rw [whole]; simp)

theorem node_keys_present (subset : visits ⊆ trie.visits) :
    ∀ key ∈ nodeKeys visits, (trie.exporter.historyStore key).isSome := by
  intro _ listed
  obtain ⟨_, inItems, rfl⟩ := mem_map.mp listed
  obtain ⟨visit, mem, same⟩ := mem_filterMap.mp inItems
  cases visit with
  | node =>
    cases same
    rw [whole_walk_stored (subset mem)]
    rfl
  | leaf => cases same

theorem leaf_hashes_present (subset : visits ⊆ trie.visits) :
    ∀ hash ∈ leafHashes visits, (trie.exporter.valueStore hash).isSome := by
  intro hash mem
  obtain ⟨visit, mem, same⟩ := mem_filterMap.mp mem
  cases visit with
  | node => cases same
  | leaf keyPrefix =>
    cases same
    exact trie.valued keyPrefix hash (subset mem)

theorem node_items_eq (subset : visits ⊆ trie.visits) :
    nodeItems visits = getItems trie.exporter.historyStore (nodeKeys visits) := by
  induction visits with
  | nil => rfl
  | cons visit visits ih =>
    have later := ih fun other mem => subset (mem_cons_of_mem _ mem)
    cases visit with
    | node _ key bytes =>
      have stored := whole_walk_stored (subset mem_cons_self)
      change (key, bytes) :: nodeItems visits =
        getItems trie.exporter.historyStore (key :: nodeKeys visits)
      rw [getItems, filterMap_cons, stored, later]
      rfl
    | leaf => exact later

/-- The export from a position returns the visits of a piece. -/
abbrev ExportsPiece (trie : StoredTrie) (fuel : Nat) (last : Option (List Byte)) (size : Nat)
    (piece : List Visit) (newLast : Option (List Byte)) : Prop :=
  sequentialExport trie.exporter.historyStore traverseSettings fuel trie.rootHash last 0
    (Int32.ofNat size) = pure (({} : ExportData).collect traverseSettings piece, newLast)

/-- The next chunk of an export: the rest of the walk, or its next piece. -/
theorem next_piece (position : trie.At last visits) (positive : 0 < size) (small : size < 2 ^ 31)
    (enough : trie.work ≤ fuel) :
    (cutAfter Visit.isNode size visits = none ∧ trie.ExportsPiece fuel last size visits none) ∨
    ∃ piece rest keyPrefix, cutAfter Visit.isNode size visits = some (piece, rest) ∧
      trie.ExportsPiece fuel last size piece (some keyPrefix) ∧ trie.At (some keyPrefix) rest := by
  have bound : 2 * visits.length + (last.getD []).length + 1 < fuel := by
    have shorter := position.suffix.length_le
    have short := position.short
    rw [work] at enough
    omega
  have exported := sequential_export_exports trie.rooted trie.fits position positive small bound
  unfold Exports at exported
  cases cut : cutAfter Visit.isNode size visits with
  | none =>
    rw [cut] at exported
    exact .inl ⟨rfl, exported⟩
  | some halves =>
    rw [cut] at exported
    obtain ⟨keyPrefix, exported, resumes⟩ := exported
    exact .inr ⟨halves.1, halves.2, keyPrefix, rfl, exported, .resumed resumes⟩

theorem sequential_export_whole {n : Nat} (more : (nodeKeys trie.visits).length < n)
    (small : n < 2 ^ 31) (enough : trie.work ≤ fuel) :
    trie.ExportsPiece fuel none n trie.visits none := by
  have position : trie.At none trie.visits := .start
  rcases next_piece position (zero_lt_of_lt more) small enough with
    ⟨_, exported⟩ | ⟨_, _, _, cut, _, _⟩
  · exact exported
  · have counted := cut_count cut
    have split := cut_append cut
    rw [node_keys_length, split, countP_append] at more
    omega

variable {piece : List Visit} {rounds : Nat}

section

variable (starts : StartsAt trie.rootHash startPath last)
include starts

theorem chunk_with_node {newLast : Option (List Byte)} {lastPath : List PathItem}
    (exported : trie.ExportsPiece fuel last size piece newLast)
    (path : (newLast.elim (some []) fun last => constructLastPath last trie.rootHash) =
      some lastPath) (present : nodeKeys piece ≠ []) :
    ∃ lastHash, getHistoryAndData trie.exporter fuel startPath 0 size = pure
      (⟨getItems trie.exporter.historyStore (elements (nodeKeys piece).toFinset),
        lastPath ++ [(lastHash, none)]⟩,
       ⟨getItems trie.exporter.valueStore (elements (leafHashes piece).toFinset),
        lastPath ++ [(lastHash, none)]⟩) := by
  have traversed := traverse_history_eq starts exported path
  have split := chunk_nodes_of_node lastPath (dropLast_append_getLast present).symm
  obtain ⟨leaves, nodes⟩ := chunk_nodes_hashes lastPath present
  have ends : (chunkNodes piece lastPath).getLast? =
      some ⟨(nodeKeys piece).getLast present, false, lastPath⟩ := by
    rw [split, getLast?_concat]
  refine ⟨(nodeKeys piece).getLast present, ?_⟩
  rw [history_and_data_eq traversed ends, leaves, nodes]

theorem chunk_without_node {history data : StoreItems}
    (exported : trie.ExportsPiece fuel last size visits none)
    (absent : nodeKeys visits = [])
    (returned : getHistoryAndData trie.exporter fuel startPath 0 size = pure (history, data)) :
    history.items = [] ∧ data.items.length < (leafHashes visits).length := by
  have traversed := traverse_history_eq starts exported rfl
  rw [chunk_nodes_of_leaves _ absent] at traversed
  rcases eq_nil_or_concat' (leafHashes visits).dropLast with nothing | ⟨_, value, split⟩
  · rw [nothing] at traversed
    have got : trie.exporter.getNodes fuel startPath 0 size = some [] := by
      rw [RSpaceExporterStore.getNodes, show Int32.ofNat 0 = 0 from rfl, traversed]
      rfl
    rw [getHistoryAndData, got] at returned
    cases returned
  · have ends : ((leafHashes visits).dropLast.map fun k => (⟨k, true, []⟩ : TrieNode)).getLast? =
        some ⟨value, true, []⟩ := by
      rw [split, map_append, map_singleton, getLast?_concat]
    rw [history_and_data_eq traversed ends] at returned
    obtain ⟨rfl, rfl⟩ := Prod.mk.inj (pure_inj returned)
    obtain ⟨leaves, nodes⟩ := plain_nodes_hashes (leafHashes visits).dropLast true
    have fewer : (leafHashes visits).dropLast.length < (leafHashes visits).length := by
      have nonempty := congrArg length split
      rw [length_append, length_singleton, length_dropLast] at nonempty
      rw [length_dropLast]
      omega
    refine ⟨?_, ?_⟩
    · rw [nodes]
      rfl
    · rw [leaves, if_pos rfl]
      exact (sorted_items_length_le _ _).trans_lt fewer

omit starts in
theorem subset_of_cut {rest : List Visit} (position : trie.At last visits)
    (cut : cutAfter Visit.isNode size visits = some (piece, rest)) : piece ⊆ trie.visits := by
  intro _ mem
  refine position.suffix.subset ?_
  rw [cut_append cut]
  exact mem_append_left _ mem

omit starts in
theorem sorted_keys_present (subset : visits ⊆ trie.visits) :
    ∀ key ∈ elements (nodeKeys visits).toFinset, (trie.exporter.historyStore key).isSome :=
  fun key mem => node_keys_present subset key (by simpa using mem)

omit starts in
theorem sorted_hashes_present (subset : visits ⊆ trie.visits) :
    ∀ hash ∈ elements (leafHashes visits).toFinset, (trie.exporter.valueStore hash).isSome :=
  fun hash mem => leaf_hashes_present subset hash (by simpa using mem)

theorem drain_cases (position : trie.At last visits) (positive : 0 < size) (small : size < 2 ^ 31)
    (enough : trie.work ≤ fuel) (rounds : Nat) :
    (cutAfter Visit.isNode size visits = none ∧ nodeKeys visits ≠ [] ∧
      drain trie.exporter size fuel (rounds + 1) startPath =
        pure (getItems trie.exporter.historyStore (elements (nodeKeys visits).toFinset),
          getItems trie.exporter.valueStore (elements (leafHashes visits).toFinset))) ∨
    (cutAfter Visit.isNode size visits = none ∧ nodeKeys visits = [] ∧
      ∀ history data, drain trie.exporter size fuel (rounds + 1) startPath = pure (history, data) →
        history = [] ∧ data.length < (leafHashes visits).length) ∨
    ∃ piece rest keyPrefix nextPath, cutAfter Visit.isNode size visits = some (piece, rest) ∧
      trie.At (some keyPrefix) rest ∧ StartsAt trie.rootHash nextPath (some keyPrefix) ∧
      drain trie.exporter size fuel (rounds + 1) startPath =
        if (elements (nodeKeys piece).toFinset).length < size then
          pure (getItems trie.exporter.historyStore (elements (nodeKeys piece).toFinset),
            getItems trie.exporter.valueStore (elements (leafHashes piece).toFinset))
        else drain trie.exporter size fuel rounds nextPath >>= fun later =>
          pure (getItems trie.exporter.historyStore (elements (nodeKeys piece).toFinset) ++ later.1,
            getItems trie.exporter.valueStore (elements (leafHashes piece).toFinset) ++
              later.2) := by
  rw [drain]
  rcases next_piece position positive small enough with
    ⟨uncut, exported⟩ | ⟨piece, rest, keyPrefix, cut, exported, next⟩
  · have fewer := uncut_count uncut
    rw [← node_keys_length] at fewer
    by_cases present : nodeKeys visits = []
    · refine .inr (.inl ⟨uncut, present, fun history data returned => ?_⟩)
      obtain ⟨⟨_, _⟩, returned, ended⟩ := bind_eq_pure.mp returned
      obtain ⟨nothing, less⟩ := chunk_without_node starts exported present returned
      dsimp only at ended
      rw [nothing, if_pos (by simpa using positive)] at ended
      cases ended
      exact ⟨rfl, less⟩
    · refine .inl ⟨uncut, present, ?_⟩
      obtain ⟨_, returned⟩ := chunk_with_node starts exported rfl present
      rw [returned, pure_bind]
      exact if_pos ((sorted_items_length_le _ _).trans_lt fewer)
  · have counted := cut_count cut
    rw [← node_keys_length] at counted
    have present : nodeKeys piece ≠ [] := by
      intro nothing
      rw [nothing, length_nil] at counted
      omega
    obtain ⟨prefixSeq, path, readBack⟩ := last_path_read_back
      (next.short.trans (by omega) : keyPrefix.length ≤ 128) trie.rootHash
    obtain ⟨lastHash, returned⟩ := chunk_with_node starts exported path present
    refine .inr (.inr ⟨piece, rest, keyPrefix, (trie.rootHash, none) ::
      (prefixSeq ++ [(lastHash, none)]), cut, next,
      ⟨none, _, rfl, readBack _⟩, ?_⟩)
    rw [returned, pure_bind]
    dsimp only
    rw [get_items_length (sorted_keys_present (subset_of_cut position cut))]
    rfl

omit starts in
theorem sorted_items_eq_iff (subset : visits ⊆ trie.visits) :
    (getItems trie.exporter.historyStore (elements (nodeKeys visits).toFinset) = nodeItems visits ↔
      (nodeKeys visits).Pairwise (· < ·)) ∧
    (getItems trie.exporter.valueStore (elements (leafHashes visits).toFinset) =
      trie.leafItems visits ↔ (leafHashes visits).Pairwise (· < ·)) := by
  rw [node_items_eq subset, leafItems, get_items_eq_iff (sorted_keys_present subset)
    (node_keys_present subset), get_items_eq_iff (sorted_hashes_present subset)
    (leaf_hashes_present subset), elements_to_finset_eq_iff, elements_to_finset_eq_iff]
  exact ⟨Iff.rfl, Iff.rfl⟩

omit starts in
theorem leaf_items_append (left right : List Visit) :
    trie.leafItems (left ++ right) = trie.leafItems left ++ trie.leafItems right := by
  rw [leafItems, leaf_hashes_append, getItems, filterMap_append]
  rfl

section

variable (positive : 0 < size) (small : size < 2 ^ 31) (enough : trie.work ≤ fuel)
  (position : trie.At last visits)
include positive small enough position

theorem drain_regular (many : visits.length < rounds)
    (regular : ∀ piece ∈ cuts Visit.isNode size visits, Regular piece) :
    drain trie.exporter size fuel rounds startPath =
      pure (nodeItems visits, trie.leafItems visits) := by
  induction rounds generalizing last visits startPath with
  | zero => exact absurd many (not_lt_zero _)
  | succ rounds ih =>
    rcases drain_cases starts position positive small enough rounds with
      ⟨uncut, _, drained⟩ | ⟨uncut, absent, _⟩ | ⟨piece, _, _, _, cut, next, nextStarts, drained⟩
    · obtain ⟨_, nodes, leaves⟩ := regular visits (by
        rw [cuts, cuts_of_none uncut]
        exact mem_singleton_self _)
      obtain ⟨ofNodes, ofLeaves⟩ := sorted_items_eq_iff position.suffix.subset
      rw [drained, ofNodes.mpr nodes, ofLeaves.mpr leaves]
    · obtain ⟨present, _⟩ := regular visits (by
        rw [cuts, cuts_of_none uncut]
        exact mem_singleton_self _)
      exact absurd absent present
    · rw [cuts_of_some positive cut, forall_mem_cons] at regular
      obtain ⟨⟨_, nodes, leaves⟩, later⟩ := regular
      obtain ⟨ofNodes, ofLeaves⟩ := sorted_items_eq_iff (subset_of_cut position cut)
      have whole : ¬ (elements (nodeKeys piece).toFinset).length < size := by
        rw [elements_to_finset_eq_iff.mpr nodes, node_keys_length, cut_count cut]
        exact lt_irrefl size
      have shorter := rest_shorter positive cut
      rw [drained, if_neg whole, ih nextStarts next (by omega) later, pure_bind]
      dsimp only
      rw [ofNodes.mpr nodes, ofLeaves.mpr leaves, cut_append cut, node_items_append,
        leaf_items_append]

theorem drain_bounded {history data : List (Hash32 × List Byte)}
    (drained : drain trie.exporter size fuel rounds startPath = pure (history, data)) :
    history.length ≤ (nodeKeys visits).length ∧ data.length ≤ (leafHashes visits).length ∧
      (history = nodeItems visits → data = trie.leafItems visits →
        ∀ piece ∈ cuts Visit.isNode size visits, Regular piece) := by
  induction rounds generalizing last visits startPath history data with
  | zero => cases drained
  | succ rounds ih =>
    rcases drain_cases starts position positive small enough rounds with
      ⟨uncut, present, here⟩ | ⟨uncut, absent, here⟩ |
        ⟨piece, rest, _, _, cut, next, nextStarts, here⟩
    · rw [here] at drained
      obtain ⟨rfl, rfl⟩ := Prod.mk.inj (pure_inj drained)
      obtain ⟨ofNodes, ofLeaves⟩ := sorted_items_eq_iff position.suffix.subset
      refine ⟨sorted_items_length_le _ _, sorted_items_length_le _ _, fun nodes leaves => ?_⟩
      rw [cuts, cuts_of_none uncut, forall_mem_singleton]
      exact ⟨present, ofNodes.mp nodes, ofLeaves.mp leaves⟩
    · obtain ⟨rfl, less⟩ := here history data drained
      refine ⟨zero_le _, le_of_lt less, fun _ leaves => ?_⟩
      rw [leaves, leafItems, get_items_length (leaf_hashes_present position.suffix.subset)] at less
      exact absurd less (lt_irrefl _)
    · have subset := subset_of_cut position cut
      have counted := cut_count cut
      rw [← node_keys_length] at counted
      have shortNodes := sorted_items_length_le trie.exporter.historyStore (nodeKeys piece)
      have shortLeaves := sorted_items_length_le trie.exporter.valueStore (leafHashes piece)
      have nodesLength : (nodeKeys visits).length =
          (nodeKeys piece).length + (nodeKeys rest).length := by
        rw [cut_append cut, node_keys_append, length_append]
      have leavesLength : (leafHashes visits).length =
          (leafHashes piece).length + (leafHashes rest).length := by
        rw [cut_append cut, leaf_hashes_append, length_append]
      rw [here] at drained
      split_ifs at drained with early
      · obtain ⟨rfl, rfl⟩ := Prod.mk.inj (pure_inj drained)
        refine ⟨by omega, by omega, fun nodes _ => ?_⟩
        have all := congrArg length nodes
        rw [node_items_eq position.suffix.subset,
          get_items_length (node_keys_present position.suffix.subset),
          get_items_length (sorted_keys_present subset)] at all
        omega
      · obtain ⟨⟨_, _⟩, later, ended⟩ := bind_eq_pure.mp drained
        dsimp only at ended
        obtain ⟨rfl, rfl⟩ := Prod.mk.inj (pure_inj ended)
        obtain ⟨_, _, regular⟩ := ih nextStarts next later
        refine ⟨by rw [length_append]; omega, by rw [length_append]; omega, fun nodes leaves => ?_⟩
        rw [cut_append cut, node_items_append] at nodes
        rw [cut_append cut, leaf_items_append] at leaves
        have pieceLength := get_items_length (node_keys_present subset)
        have leafLength := get_items_length (leaf_hashes_present subset)
        have restLength := get_items_length (leaf_hashes_present next.suffix.subset)
        have sortedLength := get_items_length (sorted_keys_present subset)
        rw [← node_items_eq subset] at pieceLength
        have allLeaves := congrArg length leaves
        rw [length_append, length_append, leafItems, leafItems] at allLeaves
        obtain ⟨nodesHere, nodesLater⟩ := append_inj nodes (by omega)
        obtain ⟨leavesHere, leavesLater⟩ := append_inj leaves (by rw [leafItems]; omega)
        obtain ⟨ofNodes, ofLeaves⟩ := sorted_items_eq_iff subset
        rw [cuts_of_some positive cut, forall_mem_cons]
        refine ⟨⟨?_, ofNodes.mp nodesHere, ofLeaves.mp leavesHere⟩, regular nodesLater leavesLater⟩
        intro absent
        rw [absent, length_nil] at counted
        omega

end

end

/-- The drain of a trie in chunks of any size gives the nodes and leaves of one walk, which is what
a single export of more nodes than there are gives, exactly when every chunk has a node and the
hashes of its nodes and those of its leaves ascend. -/
theorem drains_whole_iff (trie : StoredTrie) {size : Nat} (positive : 1 ≤ size)
    (small : size < 2 ^ 31) :
    (∀ n, (nodeKeys trie.visits).length < n → n < 2 ^ 31 → ∀ fuel ≥ trie.work,
      sequentialExport trie.exporter.historyStore traverseSettings fuel trie.rootHash none 0
        (Int32.ofNat n) = pure (({} : ExportData).collect traverseSettings trie.visits, none)) ∧
    (trie.DrainsWhole size ↔ ∀ piece ∈ cuts Visit.isNode size trie.visits, Regular piece) := by
  have position : trie.At none trie.visits := .start
  have starts : StartsAt trie.rootHash [(trie.rootHash, none)] none := ⟨none, [], rfl, rfl⟩
  refine ⟨fun n more small fuel enough => sequential_export_whole more small enough, ?_, ?_⟩
  · rintro ⟨enough, drained⟩
    have ended := drained (max enough trie.work) (le_max_left _ _) (max enough trie.work)
      (le_max_left _ _)
    exact (drain_bounded starts positive small (le_max_right _ _) position ended).2.2 rfl rfl
  · intro regular
    refine ⟨trie.work, fun fuel enough rounds many => ?_⟩
    refine drain_regular starts positive small enough position ?_ regular
    rw [work] at many
    omega

end StoredTrie

section Sample

variable {Value : Type} {f : Byte → List Value} {occupied : List Byte}

theorem flat_map_filter (others : ∀ idx, idx ∉ occupied → f idx = []) (slots : List Byte) :
    slots.flatMap f = (slots.filter (· ∈ occupied)).flatMap f := by
  induction slots with
  | nil => rfl
  | cons slot _ ih =>
    by_cases here : slot ∈ occupied
    · rw [filter_cons_of_pos (by simpa using here), flatMap_cons, flatMap_cons, ih]
    · rw [filter_cons_of_neg (by simpa using here), flatMap_cons, others slot here, ih, nil_append]

theorem occupied_slots (ascending : occupied.Pairwise (· < ·))
    (others : ∀ idx, idx ∉ occupied → f idx = []) :
    (finRange 256).flatMap f = occupied.flatMap f := by
  have kept : (finRange 256).filter (· ∈ occupied) = occupied := by
    have sorted : ((finRange 256).filter (· ∈ occupied)).Pairwise (· < ·) :=
      (pairwise_lt_finRange 256).filter _
    have same : ((finRange 256).filter (· ∈ occupied)).toFinset = occupied.toFinset := by
      ext idx
      simp
    rw [← elements_to_finset_eq_iff.mpr sorted, same, elements_to_finset_eq_iff.mpr ascending]
  rw [flat_map_filter others, kept]

theorem repeated_size (byte : Byte) : (replicate 32 byte).length = 32 := length_replicate

def repeated (byte : Byte) : Hash32 := ⟨List.replicate 32 byte, repeated_size byte⟩

/-- A root with one leaf. -/
def leafRoot : Node Hash32 := Function.update emptyNode 0 (.leaf [1] (repeated 66))

def leafRootBytes : List Byte := [0, 1, 1] ++ List.replicate 32 66

def leafExporter : RSpaceExporterStore where
  historyStore hash := if hash = repeated 36 then some leafRootBytes else none
  valueStore hash := if hash = repeated 66 then some [1, 2, 3] else none

/-- A root with leaves in these slots and nothing else. -/
structure LeafRoot (root : Node Hash32) (occupied : List Byte) : Prop where
  ascending : occupied.Pairwise (· < ·)
  empty : ∀ idx, idx ∉ occupied → root idx = .empty
  leaves : ∀ idx ∈ occupied, ∃ value, root idx = .leaf [1] value

section LeafRoot

variable {root : Node Hash32} {occupied bytes : List Byte} {store : NodeDataReader} {hash : Hash32}

section

variable (leafRoot : LeafRoot root occupied)
include leafRoot

theorem LeafRoot.cases (idx : Byte) :
    root idx = .empty ∨ ∃ value, root idx = .leaf [1] value := by
  by_cases here : idx ∈ occupied
  · exact .inr (leafRoot.leaves idx here)
  · exact .inl (leafRoot.empty idx here)

theorem LeafRoot.fits : Fits store 1 root := by
  intro idx _ _ item
  rcases leafRoot.cases idx with same | ⟨_, same⟩
  · rw [same] at item
    cases item
  · rw [same] at item
    cases item

theorem LeafRoot.found (encoded : occupied.flatMap (fun idx =>
      encodeItem (fixedHash fun _ => repeated 0) idx (root idx)) = bytes)
    (stored : store hash = some bytes) : fetch store hash = some (bytes, root) := by
  have short : root.Short := by
    intro idx
    rcases leafRoot.cases idx with same | ⟨_, same⟩
    · rw [same]
      trivial
    · rw [same]
      exact le_of_ble_eq_true rfl
  obtain ⟨serialized, accepted, decoded⟩ :=
    accepted_of_read (fun _ => repeated 0) (decode_encode (fixed_reads_back _) short)
  rw [encode, occupied_slots leafRoot.ascending fun idx outside => by
    rw [leafRoot.empty idx outside, encodeItem], encoded] at accepted
  rw [fetch_eq_some]
  refine ⟨stored, ?_⟩
  rw [decodeNode, accepted]
  change unwrap serialized.decode = pure root
  rw [decoded]
  rfl

theorem LeafRoot.walk_eq (found : fetch store hash = some (bytes, root)) :
    wholeWalk store traverseSettings 1 hash = .node [] hash bytes ::
      occupied.flatMap (slotVisits store traverseSettings (walk store traverseSettings 0) [] root) := by
  rw [wholeWalk, found, Option.elim_some, walk, occupied_slots leafRoot.ascending]
  intro idx outside
  dsimp only [slotVisits]
  rw [leafRoot.empty idx outside]

end

end LeafRoot

theorem leaf_root_leaves : LeafRoot leafRoot [0] := by
  refine ⟨pairwise_singleton _ _, fun idx outside => ?_, fun idx here => ?_⟩
  · exact Function.update_of_ne (fun same => outside (mem_singleton.mpr same)) _ _
  · rw [mem_singleton.mp here]
    exact ⟨_, rfl⟩

theorem leaf_root_found :
    fetch leafExporter.historyStore (repeated 36) = some (leafRootBytes, leafRoot) :=
  leaf_root_leaves.found rfl (by simp [leafExporter])

theorem leaf_root_fits : Fits leafExporter.historyStore 1 leafRoot := leaf_root_leaves.fits

theorem leaf_walk : wholeWalk leafExporter.historyStore traverseSettings 1 (repeated 36) =
    [.node [] (repeated 36) leafRootBytes, .leaf [0, 1] (repeated 66)] :=
  leaf_root_leaves.walk_eq leaf_root_found

def leafTrie : StoredTrie where
  exporter := leafExporter
  rootHash := repeated 36
  rootBytes := leafRootBytes
  root := leafRoot
  height := 1
  rooted := leaf_root_found
  fits := leaf_root_fits
  short _ _ _ mem := by
    rw [leaf_walk] at mem
    obtain ⟨rfl, _⟩ := by simpa using mem
    exact zero_le _
  valued _ _ mem := by
    rw [leaf_walk] at mem
    obtain ⟨_, rfl⟩ := by simpa using mem
    simp [leafExporter]

/-- In chunks of ten the root and its leaf are one chunk. -/
theorem leaf_trie_drains : leafTrie.DrainsWhole 10 := by
  refine (StoredTrie.drains_whole_iff leafTrie (by decide) (by decide)).2.mpr ?_
  rw [StoredTrie.visits, show wholeWalk leafTrie.exporter.historyStore traverseSettings
    leafTrie.height leafTrie.rootHash = _ from leaf_walk]
  decide

/-- In chunks of one the leaf is behind the last node, and its chunk has no node. -/
theorem leaf_trie_does_not_drain : ¬ leafTrie.DrainsWhole 1 := by
  rintro ⟨enough, drained⟩
  have ended := drained (max enough leafTrie.work) (le_max_left _ _) (max enough leafTrie.work)
    (le_max_left _ _)
  have position : leafTrie.At none leafTrie.visits := .start
  have regular := (StoredTrie.drain_bounded ⟨none, [], rfl, rfl⟩ one_pos (by decide)
    (le_max_right _ _) position ended).2.2 rfl rfl
  rw [StoredTrie.visits, show wholeWalk leafTrie.exporter.historyStore traverseSettings
    leafTrie.height leafTrie.rootHash = _ from leaf_walk] at regular
  exact absurd regular (by decide)

end Sample

end RChain.Radix
