import RChain.RSpace.ExportChunks

/-!
# What an importer accepts

The check of a chunk walks the trie from the same path over the nodes that were received and those
that the importer has. A walk depends on the nodes it reads only, so it is the walk of the exporter
as far as it goes. The check compares hashes in the order of the walk.
-/

namespace RChain.Radix

open BitCodec Blocks Cuts Sorted Steps List Function Option

section Reads

variable {get get' : NodeDataReader} {settings : ExportDataSettings}

theorem ok_or_else_pure {Value : Type} {value : Option Value} {message : String} {result : Value} :
    okOrElse value message = pure result ↔ value = some result := by
  cases value with
  | none =>
    constructor
    · intro impossible
      cases impossible
    · intro impossible
      cases impossible
  | some =>
    rw [okOrElse, elim_some]
    exact ⟨fun same => congrArg some (pure_inj same), fun same => congrArg _ (some.inj same)⟩

variable {fuel : Nat} {p : StepData} {data : ExportData} {last : Option (List Byte)}

variable {height : Nat} {rootHash hash : Hash32} {rootBytes : List Byte} {root : Node Hash32}

section

variable (keepsKeys : settings.flagNodeKeys = true)
include keepsKeys

theorem export_step_reads {p : StepData} {step : ExportStep} (noSkip : p.skip = 0)
    (ran : exportStep get settings p = pure step) :
    (∃ last, step = .done p.expData last ∧ ∀ get', exportStep get' settings p = pure step) ∨
    ∃ next, step = .proceed next ∧ p.take ≠ 0 ∧ next.skip = 0 ∧
      p.expData.nodeKeys ⊆ next.expData.nodeKeys ∧
      ((∀ get', exportStep get' settings p = pure step) ∨
        ∃ top rest idx ptrPrefix ptr bytes, p.path = top :: rest ∧
          top.decoded idx = .nodePtr ptrPrefix ptr ∧ get ptr = some bytes ∧
          ptr ∈ next.expData.nodeKeys ∧
          ∀ get', get' ptr = some bytes → exportStep get' settings p = pure step) := by
  unfold exportStep at ran ⊢
  cases path : p.path with
  | nil =>
    simp only [path] at ran
    cases pure_inj ran
    exact .inl ⟨_, rfl, fun _ => rfl⟩
  | cons top rest =>
    simp only [path] at ran
    by_cases stops : p.skip = 0 ∧ p.take = 0
    · rw [if_pos stops] at ran
      cases pure_inj ran
      exact .inl ⟨_, rfl, fun _ => if_pos stops⟩
    · rw [if_neg stops] at ran
      have more : p.take ≠ 0 := fun zero => stops ⟨noSkip, zero⟩
      right
      simp only [if_neg stops]
      cases found : findNextNonEmptyItem settings top.decoded top.lastItemIndex with
      | none =>
        simp only [found] at ran
        cases pure_inj ran
        exact ⟨_, rfl, more, noSkip, List.Subset.refl _, .inl fun _ => rfl⟩
      | some slot =>
        obtain ⟨idx, item⟩ := slot
        simp only [found] at ran
        have here : item = top.decoded idx := (pending_found get 0 rest found).1
        unfold addElement at ran ⊢
        cases item with
        | empty =>
          cases pure_inj ran
          exact ⟨_, rfl, more, noSkip, List.Subset.refl _, .inl fun _ => rfl⟩
        | leaf =>
          cases pure_inj ran
          refine ⟨_, rfl, more, ?_, ?_, .inl fun _ => rfl⟩
          · rw [add_leaf_eq noSkip]
            exact noSkip
          · rw [add_leaf_eq noSkip]
            exact List.Subset.refl _
        | nodePtr ptrPrefix ptr =>
          rw [map_eq_pure_bind] at ran
          obtain ⟨_, added, same⟩ := bind_eq_pure.mp ran
          cases pure_inj same
          obtain ⟨bytes, read, decodes⟩ := bind_eq_pure.mp added
          obtain ⟨_, decoded, _⟩ := bind_eq_pure.mp decodes
          have stored := ok_or_else_pure.mp read
          have onward (reader : NodeDataReader) (read : reader ptr = some bytes) :
              addNodePtr reader settings p ptrPrefix ptr idx top.keyPrefix
                (⟨top.keyPrefix, top.decoded, some idx⟩ :: p.path.tail) = _ :=
            add_node_ptr_eq noSkip ptrPrefix idx _ _ (fetch_eq_some.mpr ⟨read, decoded⟩)
          cases pure_inj ((onward get stored).symm.trans added)
          have pushed (keyPrefix : List Byte) :
              (p.expData.add settings (.node keyPrefix ptr bytes)).nodeKeys =
                p.expData.nodeKeys ++ [ptr] := if_pos keepsKeys
          refine ⟨_, rfl, more, noSkip, ?_, .inr ⟨top, rest, idx, ptrPrefix, ptr, bytes, rfl,
            here.symm, stored, ?_, fun reader read => ?_⟩⟩
          · exact pushed _ ▸ subset_append_left _ _
          · exact pushed _ ▸ mem_concat_self
          · exact congrArg (ExportStep.proceed <$> ·) (onward reader read)

theorem export_loop_keeps_keys (noSkip : p.skip = 0)
    (ran : exportLoop get settings fuel p = pure (data, last)) :
    p.expData.nodeKeys ⊆ data.nodeKeys := by
  induction fuel generalizing p with
  | zero => cases ran
  | succ _ ih =>
    obtain ⟨_, stepped, ran⟩ := bind_eq_pure.mp ran
    rcases export_step_reads keepsKeys noSkip stepped with
      ⟨_, rfl, _⟩ | ⟨_, rfl, _, noSkip, grown, _⟩
    · cases pure_inj ran
      exact List.Subset.refl _
    · exact List.Subset.trans grown (ih noSkip ran)

theorem export_loop_covered (noSkip : p.skip = 0)
    (ran : exportLoop get settings fuel p = pure (data, last))
    (covered : ∀ key ∈ data.nodeKeys, ∀ bytes, get key = some bytes → get' key = some bytes) :
    exportLoop get' settings fuel p = pure (data, last) := by
  induction fuel generalizing p with
  | zero => cases ran
  | succ _ ih =>
    obtain ⟨step, stepped, ran⟩ := bind_eq_pure.mp ran
    refine bind_eq_pure.mpr ⟨step, ?_⟩
    rcases export_step_reads keepsKeys noSkip stepped with
      ⟨_, rfl, free⟩ | ⟨_, rfl, _, noSkip, _, reads⟩
    · exact ⟨free get', ran⟩
    · refine ⟨?_, ih noSkip ran⟩
      rcases reads with free | ⟨_, _, _, _, ptr, bytes, _, _, stored, listed, again⟩
      · exact free get'
      · have kept := export_loop_keeps_keys keepsKeys noSkip ran
        exact again get' (covered ptr (kept listed) bytes stored)

def Agrees (get' get : NodeDataReader) : Prop :=
  ∀ hash bytes other, get' hash = some bytes → get hash = some other → bytes = other

theorem export_loop_agrees (agrees : Agrees get' get)
    (rooted : fetch get rootHash = some (rootBytes, root)) (fits : Fits get height root)
    (noSkip : p.skip = 0) (stacked : p.path = [] ∨ ∃ hash, OnPath get rootHash hash p.path)
    (ran : exportLoop get' settings fuel p = pure (data, last)) :
    exportLoop get settings fuel p = pure (data, last) := by
  induction fuel generalizing p with
  | zero => cases ran
  | succ _ ih =>
    obtain ⟨step, stepped, ran⟩ := bind_eq_pure.mp ran
    refine bind_eq_pure.mpr ⟨step, ?_⟩
    rcases export_step_reads keepsKeys noSkip stepped with
      ⟨_, rfl, free⟩ | ⟨next, rfl, more, nextSkip, _, reads⟩
    · exact ⟨free get, ran⟩
    · rcases stacked with nothing | ⟨_, onPath⟩
      · rw [exportStep, nothing] at stepped
        cases stepped
      · obtain ⟨top, rest, path⟩ := onPath.exists_top
        rw [path] at onPath
        have topFits := onPath.fits rooted fits top mem_cons_self
        have same : exportStep get settings p = pure (.proceed next) := by
          rcases reads with free | ⟨_, _, _, _, ptr, bytes, also, item, stored, _, again⟩
          · exact free get
          · cases path.symm.trans also
            obtain ⟨other, _, found, _⟩ := fits_child topFits item
            have here := (fetch_eq_some.mp found).1
            rw [← agrees ptr bytes other stored here] at here
            exact again get here
        refine ⟨same, ih nextSkip ?_ ran⟩
        rcases export_step_cases path onPath topFits noSkip more with
          ⟨again, _⟩ | ⟨_, hash', _, _, again, _, onNext, _⟩
        · cases pure_inj (again.symm.trans same)
          cases rest with
          | nil => exact .inl rfl
          | cons => exact .inr onPath.tail
        · cases pure_inj (again.symm.trans same)
          exact .inr ⟨hash', onNext⟩

end

variable {nodePrefix restPrefix : List Byte} {path result : List NodeData}

theorem init_node_path_cases
    (ran : initNodePath get (fuel + 1) hash nodePrefix restPrefix path = pure result) :
    ∃ bytes node, fetch get hash = some (bytes, node) ∧
      ((restPrefix = [] ∧ result = ⟨nodePrefix, node, none⟩ :: path) ∨
        ∃ idx ptrPrefix ptr rest, restPrefix = idx :: (ptrPrefix ++ rest) ∧
          node idx = .nodePtr ptrPrefix ptr ∧
          initNodePath get fuel ptr (nodePrefix ++ [idx] ++ ptrPrefix) rest
            (⟨nodePrefix, node, some idx⟩ :: path) = pure result) := by
  obtain ⟨bytes, stored, ran⟩ := bind_eq_pure.mp ran
  obtain ⟨node, decoded, ran⟩ := bind_eq_pure.mp ran
  refine ⟨bytes, node, fetch_eq_some.mpr ⟨ok_or_else_pure.mp stored, decoded⟩, ?_⟩
  cases restPrefix with
  | nil => exact .inl ⟨rfl, (pure_inj ran).symm⟩
  | cons idx tail =>
    right
    dsimp only at ran
    cases item : node idx with
    | empty | leaf =>
      rw [item] at ran
      cases ran
    | nodePtr ptrPrefix ptr =>
      simp only [item] at ran
      rcases split : commonPrefix tail ptrPrefix with ⟨_, rest, left⟩
      rw [split] at ran
      cases left with
      | cons => cases ran
      | nil =>
        obtain ⟨tailEq, ptrEq, _⟩ := common_prefix_eq split
        rw [append_nil] at ptrEq
        subst ptrEq
        exact ⟨idx, ptrPrefix, ptr, rest, by rw [tailEq], item, ran⟩

theorem init_node_path_agrees (agrees : Agrees get' get) {reader : NodeDataReader}
    (covered : ∀ key bytes, get' key = some bytes → get key = some bytes → reader key = some bytes)
    {bytes : List Byte} {node : Node Hash32} (found : fetch get hash = some (bytes, node))
    (fits : Fits get height node)
    (ran : initNodePath get' fuel hash nodePrefix restPrefix path = pure result) :
    initNodePath reader fuel hash nodePrefix restPrefix path = pure result := by
  induction fuel generalizing hash nodePrefix restPrefix path bytes node with
  | zero => cases ran
  | succ _ ih =>
    obtain ⟨other, _, found', cases⟩ := init_node_path_cases ran
    obtain ⟨stored, decoded⟩ := fetch_eq_some.mp found
    obtain ⟨stored', decoded'⟩ := fetch_eq_some.mp found'
    have same := agrees hash other bytes stored' stored
    subst same
    have same := pure_inj (decoded'.symm.trans decoded)
    subst same
    have here := fetch_eq_some.mpr ⟨covered hash other stored' stored, decoded⟩
    rcases cases with ⟨rfl, rfl⟩ | ⟨_, _, _, _, rfl, item, ran⟩
    · exact init_node_path_here here
    · obtain ⟨_, _, below, childFits⟩ := fits_child fits item
      rw [init_node_path_below here item]
      exact ih below childFits ran

theorem init_node_path_on_path (above : ∀ bytes node last, fetch get hash = some (bytes, node) →
      OnPath get rootHash hash (⟨nodePrefix, node, last⟩ :: path))
    (ran : initNodePath get fuel hash nodePrefix restPrefix path = pure result) :
    ∃ hash' top rest, result = top :: rest ∧ OnPath get rootHash hash' (top :: rest) ∧
      top.lastItemIndex = none ∧ top.keyPrefix = nodePrefix ++ restPrefix := by
  induction fuel generalizing hash nodePrefix restPrefix path with
  | zero => cases ran
  | succ _ ih =>
    obtain ⟨bytes, node, found, cases⟩ := init_node_path_cases ran
    rcases cases with ⟨rfl, rfl⟩ | ⟨idx, _, _, _, rfl, item, ran⟩
    · exact ⟨hash, _, path, rfl, above bytes node none found, rfl, (append_nil _).symm⟩
    · obtain ⟨hash', top, others, same, onPath, first, key⟩ := ih (fun _ _ _ below =>
        .child (above bytes node (some idx) found) rfl item below) ran
      refine ⟨hash', top, others, same, onPath, first, ?_⟩
      rw [key]
      simp only [append_assoc, cons_append, nil_append]

end Reads

section Check

variable {create : List Byte → Hash32} {items : List (Hash32 × List Byte)} {held : NodeDataReader}
  {hash : Hash32}

theorem check_hashes_iff {message : String → String → String} :
    items.forM (checkHash create message) = .ok () ↔ ∀ item ∈ items, item.1 = create item.2 := by
  induction items with
  | nil => exact ⟨fun _ item mem => (by cases mem), fun _ => rfl⟩
  | cons item items ih =>
    change (checkHash create message item >>= fun _ => items.forM (checkHash create message)) =
      .ok () ↔ _
    rw [forall_mem_cons, bind_eq_ok, checkHash]
    by_cases same : item.1 = create item.2
    · rw [if_neg (not_not_intro same)]
      constructor
      · rintro ⟨_, _, later⟩
        exact ⟨same, ih.mp later⟩
      · rintro ⟨_, later⟩
        exact ⟨(), rfl, ih.mpr later⟩
    · rw [if_pos same]
      constructor
      · rintro ⟨_, impossible, _⟩
        cases impossible
      · rintro ⟨equal, _⟩
        exact absurd equal same

theorem mk_ok_iff {Value : Type} {result : Except String Value} {value : Value} :
    (ExceptT.mk (some result) : Exporting Value) = pure value ↔ result = .ok value :=
  ⟨fun same => some.inj same, fun same => congrArg some same⟩

theorem validate_iff {fuel : Nat} {historyItems dataItems : List (Hash32 × List Byte)}
    {startPath : List PathItem} {chunkSize skip : Int32} :
    validateStateItems create fuel historyItems dataItems startPath chunkSize skip held = pure () ↔
      (Int32.ofNat historyItems.length = chunkSize ∨ Int32.ofNat historyItems.length < chunkSize) ∧
      (∀ item ∈ historyItems, item.1 = create item.2) ∧
      (∃ nodes, traverseHistory fuel startPath skip chunkSize (receivedOr historyItems held) =
          pure nodes ∧
        historyItems.map (·.1) = (nodes.filter fun n => !n.isLeaf).map (·.hash) ∧
        dataItems.map (·.1) = (nodes.filter fun n => n.isLeaf).map (·.hash)) ∧
      ∀ item ∈ dataItems, item.1 = create item.2 := by
  rw [validateStateItems]
  dsimp only
  by_cases sized : Int32.ofNat historyItems.length = chunkSize ∨
      Int32.ofNat historyItems.length < chunkSize
  · rw [if_neg (not_not_intro sized), bind_eq_pure]
    constructor
    · rintro ⟨⟨⟩, hashed, ran⟩
      have hashed := check_hashes_iff.mp (mk_ok_iff.mp hashed)
      obtain ⟨nodes, traversed, ran⟩ := bind_eq_pure.mp ran
      by_cases history : historyItems.map (·.1) = (nodes.filter fun n => !n.isLeaf).map (·.hash)
      · rw [if_neg (not_not_intro history)] at ran
        by_cases data : dataItems.map (·.1) = (nodes.filter fun n => n.isLeaf).map (·.hash)
        · rw [if_neg (not_not_intro data), mk_ok_iff, check_hashes_iff] at ran
          exact ⟨sized, hashed, ⟨nodes, traversed, history, data⟩, ran⟩
        · rw [if_pos data] at ran
          cases ran
      · rw [if_pos history] at ran
        cases ran
    · rintro ⟨_, hashed, ⟨nodes, traversed, history, data⟩, values⟩
      refine ⟨(), mk_ok_iff.mpr (check_hashes_iff.mpr hashed),
        bind_eq_pure.mpr ⟨nodes, traversed, ?_⟩⟩
      rw [if_neg (not_not_intro history), if_neg (not_not_intro data), mk_ok_iff, check_hashes_iff]
      exact values
  · rw [if_pos sized]
    constructor
    · intro impossible
      cases impossible
    · intro accepted
      exact absurd accepted.1 sized

theorem received_or_cons (item : Hash32 × List Byte) (items : List (Hash32 × List Byte))
    (held : NodeDataReader) : receivedOr (item :: items) held =
      receivedOr items (Function.update held item.1 (some item.2)) := rfl

theorem received_or_none (absent : hash ∉ items.map (·.1)) (held : NodeDataReader) :
    receivedOr items held hash = held hash := by
  induction items generalizing held with
  | nil => rfl
  | cons _ _ ih =>
    rw [map_cons, mem_cons, not_or] at absent
    rw [received_or_cons, ih absent.2, update_of_ne absent.1]

theorem received_or_some (listed : hash ∈ items.map (·.1)) (held : NodeDataReader) :
    ∃ bytes, (hash, bytes) ∈ items ∧ receivedOr items held hash = some bytes := by
  induction items generalizing held with
  | nil => cases listed
  | cons item items ih =>
    rw [received_or_cons]
    by_cases later : hash ∈ items.map (·.1)
    · obtain ⟨bytes, mem, read⟩ := ih later (Function.update held item.1 (some item.2))
      exact ⟨bytes, mem_cons_of_mem _ mem, read⟩
    · have here : hash = item.1 := by
        rcases mem_cons.mp listed with here | other
        · exact here
        · exact absurd other later
      refine ⟨item.2, by rw [here]; exact mem_cons_self, ?_⟩
      rw [received_or_none later, here, update_self]

theorem received_or_cases {bytes : List Byte} (read : receivedOr items held hash = some bytes) :
    (hash, bytes) ∈ items ∨ held hash = some bytes := by
  by_cases listed : hash ∈ items.map (·.1)
  · obtain ⟨_, mem, found⟩ := received_or_some listed held
    rw [found] at read
    cases read
    exact .inl mem
  · rw [received_or_none listed] at read
    exact .inr read

end Check

/-- An importer next to a trie: what it has and what the stores have is under the hash of its bytes,
and no other bytes have the hash of a stored node or value. -/
structure Importer (trie : StoredTrie) where
  create : List Byte → Hash32
  held : NodeDataReader
  heldHashed : ∀ hash bytes, held hash = some bytes → create bytes = hash
  nodesHashed : ∀ hash bytes, trie.exporter.historyStore hash = some bytes →
    create bytes = hash ∧ ∀ other, create other = hash → other = bytes
  valuesHashed : ∀ hash bytes, trie.exporter.valueStore hash = some bytes →
    create bytes = hash ∧ ∀ other, create other = hash → other = bytes

def nextPiece (size : Nat) (visits : List Visit) : List Visit :=
  (cutAfter Visit.isNode size visits).elim visits (·.1)

/-- A piece with a node if it has anything, and with its hashes in ascending order. -/
def Ordered (piece : List Visit) : Prop :=
  (nodeKeys piece = [] → leafHashes piece = []) ∧ (nodeKeys piece).Pairwise (· < ·) ∧
    (leafHashes piece).Pairwise (· < ·)

namespace Importer

variable {trie : StoredTrie} (importer : Importer trie)

def AcceptsExport (startPath : List PathItem) (size : Nat) : Prop :=
  ∀ fuel ≥ trie.work, ∀ history data,
    getHistoryAndData trie.exporter fuel startPath 0 size = pure (history, data) →
    validateStateItems importer.create fuel history.items data.items startPath (Int32.ofNat size) 0
      importer.held = pure ()

/-- An accepted chunk has the nodes and values of the walk from the path. -/
def AcceptsOnlyWalk (startPath : List PathItem) (size : Nat) : Prop :=
  ∀ fuel ≥ trie.work, ∀ historyItems dataItems,
    validateStateItems importer.create fuel historyItems dataItems startPath (Int32.ofNat size) 0
      importer.held = pure () →
    ∃ last visits, StartsAt trie.rootHash startPath last ∧ trie.At last visits ∧
      historyItems = nodeItems (nextPiece size visits) ∧
      dataItems = trie.leafItems (nextPiece size visits)

/-- The importer has the root, and the next chunk is in order. -/
def Ready (startPath : List PathItem) (size : Nat) : Prop :=
  ∀ last, StartsAt trie.rootHash startPath last → (importer.held trie.rootHash).isSome ∧
    ∀ visits, trie.At last visits → Ordered (nextPiece size visits)

/-- The importer has the nodes on the way to a key of the trie at which an export resumes. -/
def Follows (startPath : List PathItem) : Prop :=
  ∀ keyPrefix visits, StartsAt trie.rootHash startPath (some keyPrefix) →
    trie.At (some keyPrefix) visits →
    ∃ path, initNodePath importer.held (keyPrefix.length + 1) trie.rootHash [] keyPrefix [] =
      pure path

end Importer

section Over

variable {trie : StoredTrie} {get' : NodeDataReader} {fuel size : Nat} {last : Option (List Byte)}

theorem sequential_export_agrees (agrees : Agrees get' trie.exporter.historyStore)
    (read : (get' trie.rootHash).isSome) (positive : 0 < size) (small : size < 2 ^ 31)
    {result : ExportData × Option (List Byte)}
    (ran : sequentialExport get' traverseSettings fuel trie.rootHash last 0 (Int32.ofNat size) =
      pure result) :
    (∃ visits, trie.At last visits) ∧
      sequentialExport trie.exporter.historyStore traverseSettings fuel trie.rootHash last 0
        (Int32.ofNat size) = pure result := by
  have more := takes_more positive small
  obtain ⟨_, stored⟩ := isSome_iff_exists.mp read
  have here := (fetch_eq_some.mp trie.rooted).1
  have same := agrees _ _ _ stored here
  subst same
  rw [sequentialExport, if_neg more, stored] at ran
  rw [sequentialExport, if_neg more, here]
  obtain ⟨_, down, ran⟩ := bind_eq_pure.mp ran
  have down := init_node_path_agrees agrees (fun _ _ _ stored => stored) trie.rooted trie.fits down
  obtain ⟨hash, top, rest, rfl, onPath, first, key⟩ :=
    init_node_path_on_path (fun _ _ _ found => OnPath.root found) down
  refine ⟨?_, bind_eq_pure.mpr ⟨_, down, ?_⟩⟩
  · cases last with
    | none => exact ⟨_, .start⟩
    | some => exact ⟨_, .resumed ⟨hash, top, rest, onPath, first, key, rfl⟩⟩
  · refine export_loop_agrees rfl agrees trie.rooted trie.fits ?_ ?_ ran
    · cases last <;> rfl
    · right
      cases last <;> exact ⟨hash, onPath⟩

/-- An export over nodes with which the importer finds the start, and among which are those of the
chunk. -/
theorem sequential_export_covered (agrees : Agrees get' trie.exporter.historyStore)
    (positive : 0 < size) (small : size < 2 ^ 31) {path : List NodeData}
    (down : initNodePath get' ((last.getD []).length + 1) trie.rootHash [] (last.getD []) [] =
      pure path) {data : ExportData} {newLast : Option (List Byte)}
    (covered : ∀ key ∈ data.nodeKeys, ∀ bytes, trie.exporter.historyStore key = some bytes →
      get' key = some bytes)
    (ran : sequentialExport trie.exporter.historyStore traverseSettings fuel trie.rootHash last 0
      (Int32.ofNat size) = pure (data, newLast)) :
    sequentialExport get' traverseSettings fuel trie.rootHash last 0 (Int32.ofNat size) =
      pure (data, newLast) := by
  have more := takes_more positive small
  have here := (fetch_eq_some.mp trie.rooted).1
  have stored : get' trie.rootHash = some trie.rootBytes := by
    obtain ⟨_, _, found, _⟩ := init_node_path_cases down
    have stored := (fetch_eq_some.mp found).1
    rw [← agrees _ _ _ stored here]
    exact stored
  rw [sequentialExport, if_neg more, here] at ran
  rw [sequentialExport, if_neg more, stored]
  obtain ⟨path', down', ran⟩ := bind_eq_pure.mp ran
  have same := pure_inj (down'.symm.trans (init_node_path_agrees agrees
    (fun _ _ _ stored => stored) trie.rooted trie.fits down))
  subst same
  refine bind_eq_pure.mpr ⟨path', down, ?_⟩
  refine export_loop_covered rfl ?_ ran covered
  cases last <;> rfl

variable {visits : List Visit} {startPath : List PathItem} {nodes : List TrieNode}
  {create : List Byte → Hash32} {store : NodeDataReader}

theorem exported_piece (position : trie.At last visits) (positive : 0 < size)
    (small : size < 2 ^ 31) (enough : trie.work ≤ fuel) : ∃ newLast lastPath,
    trie.ExportsPiece fuel last size (nextPiece size visits) newLast ∧
      (newLast.elim (some []) fun last => constructLastPath last trie.rootHash) = some lastPath := by
  rcases StoredTrie.next_piece position positive small enough with
    ⟨uncut, exported⟩ | ⟨_, _, keyPrefix, cut, exported, next⟩
  · exact ⟨none, [], by rwa [nextPiece, uncut], rfl⟩
  · obtain ⟨_, path, _⟩ := last_path_read_back
      (next.short.trans (by omega) : keyPrefix.length ≤ 128) trie.rootHash
    exact ⟨some keyPrefix, _, by rwa [nextPiece, cut], path⟩

theorem traverse_history_returned {get : NodeDataReader} {rootHash : Hash32} {skip take : Int32}
    (starts : ∃ index prefixSeq, startPath = (rootHash, index) :: prefixSeq)
    (traversed : traverseHistory fuel startPath skip take get = pure nodes) :
    ∃ last data newLast lastPath, StartsAt rootHash startPath last ∧
      sequentialExport get traverseSettings fuel rootHash last skip take = pure (data, newLast) ∧
      (newLast.elim (some []) fun last => constructLastPath last rootHash) = some lastPath ∧
      nodes = (constructNodes data.leafValues data.nodeKeys).dropLast ++
        data.nodeKeys.getLast?.elim [] fun lastHash => constructLastNode lastHash lastPath := by
  obtain ⟨index, prefixSeq, rfl⟩ := starts
  obtain ⟨last, parsed, traversed⟩ := bind_eq_pure.mp traversed
  obtain ⟨⟨data, newLast⟩, exported, traversed⟩ := bind_eq_pure.mp traversed
  obtain ⟨lastPath, path, traversed⟩ := bind_eq_pure.mp traversed
  refine ⟨last, data, newLast, lastPath, ⟨index, prefixSeq, rfl, mk_ok_iff.mp parsed⟩, exported, ?_,
    (pure_inj traversed).symm⟩
  obtain ⟨_, found, same⟩ := map_eq_some_iff.mp path
  cases same
  exact found

theorem traversal_over (agrees : Agrees get' trie.exporter.historyStore)
    (read : (get' trie.rootHash).isSome) (positive : 0 < size) (small : size < 2 ^ 31)
    (enough : trie.work ≤ fuel)
    (starts : ∃ index prefixSeq, startPath = (trie.rootHash, index) :: prefixSeq)
    (traversed : traverseHistory fuel startPath 0 (Int32.ofNat size) get' = pure nodes) :
    ∃ last visits lastPath, StartsAt trie.rootHash startPath last ∧ trie.At last visits ∧
      nodes = chunkNodes (nextPiece size visits) lastPath := by
  obtain ⟨last, _, _, lastPath, startsAt, exported, _, made⟩ :=
    traverse_history_returned starts traversed
  obtain ⟨⟨visits, position⟩, exported⟩ := sequential_export_agrees agrees read positive small exported
  obtain ⟨_, _, again, _⟩ := exported_piece position positive small enough
  obtain ⟨rfl, rfl⟩ := Prod.mk.inj (pure_inj (exported.symm.trans again))
  obtain ⟨nodeKeys, leaves⟩ := collect_keys {} (nextPiece size visits)
  rw [nil_append] at nodeKeys leaves
  refine ⟨last, visits, lastPath, startsAt, position, ?_⟩
  rw [made, nodeKeys, leaves, chunkNodes]

theorem history_and_data_returned {exporter : RSpaceExporterStore} {skip take : Nat}
    {history data : StoreItems}
    (returned : getHistoryAndData exporter fuel startPath skip take = pure (history, data)) :
    ∃ nodes, traverseHistory fuel startPath (Int32.ofNat skip) (Int32.ofNat take)
      exporter.historyStore = pure nodes ∧ nodes ≠ [] := by
  obtain ⟨nodes, got, returned⟩ := bind_eq_pure.mp returned
  obtain ⟨_, ends, _⟩ := bind_eq_pure.mp returned
  have ends := ok_or_else_pure.mp ends
  obtain ⟨_, found, same⟩ := map_eq_some_iff.mp got
  cases same
  obtain ⟨result, ran, same⟩ := map_eq_some_iff.mp found
  cases result with
  | error =>
    subst same
    cases ends
  | ok nodes =>
    subst same
    refine ⟨nodes, ran, ?_⟩
    intro nothing
    rw [nothing] at ends
    cases ends

variable (unique : ∀ hash bytes, store hash = some bytes →
  create bytes = hash ∧ ∀ other, create other = hash → other = bytes)

include unique in
theorem hashed_items_eq {items : List (Hash32 × List Byte)}
    (hashed : ∀ item ∈ items, item.1 = create item.2)
    (present : ∀ key ∈ items.map (·.1), (store key).isSome) :
    items = getItems store (items.map (·.1)) := by
  induction items with
  | nil => rfl
  | cons item _ ih =>
    rw [forall_mem_cons] at hashed
    rw [map_cons, forall_mem_cons] at present
    obtain ⟨bytes, stored⟩ := isSome_iff_exists.mp present.1
    have same := (unique item.1 bytes stored).2 item.2 hashed.1.symm
    rw [map_cons, getItems, filterMap_cons, stored, map_some, ← same]
    exact congrArg (item :: ·) (ih hashed.2 present.2)

theorem next_piece_subset (size : Nat) (position : trie.At last visits) :
    nextPiece size visits ⊆ trie.visits := by
  rw [nextPiece]
  cases cut : cutAfter Visit.isNode size visits with
  | none => exact position.suffix.subset
  | some => exact StoredTrie.subset_of_cut position cut

theorem position_unique {others : List Visit} (first : trie.At last visits)
    (second : trie.At last others) : visits = others := by
  cases first with
  | start =>
    cases second with
    | start => rfl
  | resumed resumes =>
    cases second with
    | resumed also =>
      obtain ⟨_, _, _, onPath, isFirst, rfl, rfl⟩ := resumes
      obtain ⟨_, _, _, onPath', isFirst', key, rfl⟩ := also
      have down := init_node_path_resumes onPath isFirst
      have down' := init_node_path_resumes onPath' isFirst'
      rw [key] at down'
      rw [pure_inj (down.symm.trans down')]

theorem next_piece_count (size : Nat) (visits : List Visit) :
    (nodeKeys (nextPiece size visits)).length ≤ size := by
  rw [nextPiece, node_keys_length]
  cases cut : cutAfter Visit.isNode size visits with
  | none => exact Nat.le_of_lt (uncut_count cut)
  | some => exact Nat.le_of_eq (cut_count cut)

theorem received_fits {received : Nat} (fits : received ≤ size) (small : size < 2 ^ 31) :
    Int32.ofNat received = Int32.ofNat size ∨ Int32.ofNat received < Int32.ofNat size := by
  rcases Nat.eq_or_lt_of_le fits with same | less
  · exact .inl (congrArg Int32.ofNat same)
  · right
    rw [Int32.lt_iff_toInt_lt, Int32.toInt_ofNat_of_lt small,
      Int32.toInt_ofNat_of_lt (less.trans small)]
    exact Int.ofNat_lt.mpr less

include unique in
theorem stored_items_hashed (keys : List Hash32) :
    ∀ item ∈ getItems store keys, item.1 = create item.2 := by
  intro _ mem
  obtain ⟨key, _, found⟩ := mem_filterMap.mp mem
  obtain ⟨bytes, stored, same⟩ := map_eq_some_iff.mp found
  cases same
  exact (unique key bytes stored).1.symm

theorem first_piece_has_node (positive : 0 < size) : nodeKeys (nextPiece size trie.visits) ≠ [] := by
  obtain ⟨n, rfl⟩ := Nat.exists_eq_succ_of_ne_zero (Nat.ne_of_gt positive)
  rw [nextPiece, StoredTrie.visits, wholeWalk, trie.rooted, elim_some, cutAfter]
  cases cutAfter Visit.isNode (if (Visit.node [] trie.rootHash trie.rootBytes).isNode then n
      else n + 1) (walk trie.exporter.historyStore traverseSettings trie.height [] trie.root) with
  | none | some => exact cons_ne_nil _ _

end Over

namespace Importer

variable {trie : StoredTrie} (importer : Importer trie) {startPath : List PathItem}
  {fuel size : Nat} {last : Option (List Byte)} {visits : List Visit}

theorem held_agrees : Agrees importer.held trie.exporter.historyStore := by
  intro hash bytes other held stored
  exact (importer.nodesHashed hash other stored).2 bytes (importer.heldHashed hash bytes held)

variable {items : List (Hash32 × List Byte)}

theorem received_agrees (hashed : ∀ item ∈ items, item.1 = importer.create item.2) :
    Agrees (receivedOr items importer.held) trie.exporter.historyStore := by
  intro hash bytes other read stored
  refine (importer.nodesHashed hash other stored).2 bytes ?_
  rcases received_or_cases read with received | held
  · exact (hashed _ received).symm
  · exact importer.heldHashed hash bytes held

section

variable (follows : importer.Follows startPath) (startsAt : StartsAt trie.rootHash startPath last)
  (position : trie.At last visits) (read : (importer.held trie.rootHash).isSome)

include follows startsAt position read

theorem finds_start :
    ∃ path, initNodePath importer.held ((last.getD []).length + 1) trie.rootHash []
      (last.getD []) [] = pure path := by
  cases last with
  | some keyPrefix => exact follows keyPrefix visits startsAt position
  | none =>
    obtain ⟨_, held⟩ := isSome_iff_exists.mp read
    obtain ⟨stored, decoded⟩ := fetch_eq_some.mp trie.rooted
    have same := importer.held_agrees _ _ _ held stored
    rw [same] at held
    exact ⟨_, init_node_path_here (fetch_eq_some.mpr ⟨held, decoded⟩)⟩

theorem traverses_piece (positive : 0 < size) (small : size < 2 ^ 31) (enough : trie.work ≤ fuel)
    (hashed : ∀ item ∈ items, item.1 = importer.create item.2)
    (covered : ∀ key ∈ nodeKeys (nextPiece size visits), key ∈ items.map (·.1)) :
    ∃ lastPath, traverseHistory fuel startPath 0 (Int32.ofNat size)
      (receivedOr items importer.held) = pure (chunkNodes (nextPiece size visits) lastPath) := by
  have agrees := importer.received_agrees hashed
  obtain ⟨_, lastPath, exported, path⟩ := exported_piece position positive small enough
  obtain ⟨_, down⟩ := importer.finds_start follows startsAt position read
  have known (hash : Hash32) (bytes : List Byte)
      (stored : trie.exporter.historyStore hash = some bytes)
      (has : hash ∈ items.map (·.1) ∨ importer.held hash = some bytes) :
      receivedOr items importer.held hash = some bytes := by
    by_cases listed : hash ∈ items.map (·.1)
    · obtain ⟨other, _, found⟩ := received_or_some listed importer.held
      rw [found, agrees hash other bytes found stored]
    · rw [received_or_none listed]
      exact has.resolve_left listed
  have down := init_node_path_agrees importer.held_agrees
    (fun hash bytes held stored => known hash bytes stored (.inr held)) trie.rooted trie.fits down
  refine ⟨lastPath, traverse_history_eq startsAt (sequential_export_covered agrees positive small
    down ?_ exported) path⟩
  intro key listed bytes stored
  rw [(collect_keys {} _).1, nil_append] at listed
  exact known key bytes stored (.inl (covered key listed))

/-- The chunk with the stored items of the next piece is accepted; of a piece without a node, the
chunk without its last leaf. -/
theorem accepts_piece (positive : 0 < size) (small : size < 2 ^ 31) (enough : trie.work ≤ fuel)
    {hashes : List Hash32} (asLeaves : hashes = if nodeKeys (nextPiece size visits) = [] then
      (leafHashes (nextPiece size visits)).dropLast else leafHashes (nextPiece size visits)) :
    validateStateItems importer.create fuel
      (getItems trie.exporter.historyStore (nodeKeys (nextPiece size visits)))
      (getItems trie.exporter.valueStore hashes) startPath (Int32.ofNat size) 0 importer.held =
        pure () := by
  have subset := next_piece_subset size position
  have keys := get_items_keys (StoredTrie.node_keys_present subset)
  have hashed := stored_items_hashed importer.nodesHashed (nodeKeys (nextPiece size visits))
  have present : ∀ hash ∈ hashes, (trie.exporter.valueStore hash).isSome := by
    intro hash mem
    refine StoredTrie.leaf_hashes_present subset hash ?_
    rw [asLeaves] at mem
    split_ifs at mem
    · exact mem_of_mem_dropLast mem
    · exact mem
  obtain ⟨_, traversed⟩ := importer.traverses_piece follows startsAt position read positive
    small enough hashed (fun key listed => by rwa [keys])
  rw [validate_iff]
  refine ⟨?_, hashed, ⟨_, traversed, ?_, ?_⟩, stored_items_hashed importer.valuesHashed hashes⟩
  · rw [get_items_length (StoredTrie.node_keys_present subset)]
    exact received_fits (next_piece_count size visits) small
  · rw [keys]
    by_cases absent : nodeKeys (nextPiece size visits) = []
    · rw [chunk_nodes_of_leaves _ absent, absent, (plain_nodes_hashes _ true).2, if_pos rfl]
    · rw [(chunk_nodes_hashes _ absent).2]
  · rw [get_items_keys present, asLeaves]
    by_cases absent : nodeKeys (nextPiece size visits) = []
    · rw [if_pos absent, chunk_nodes_of_leaves _ absent, (plain_nodes_hashes _ true).1, if_pos rfl]
    · rw [if_neg absent, (chunk_nodes_hashes _ absent).1]

end

section

variable (positive : 0 < size) (small : size < 2 ^ 31)
  (startsAt : StartsAt trie.rootHash startPath last)
include positive small startsAt

theorem export_of_ordered (position : trie.At last visits) (enough : trie.work ≤ fuel)
    (present : nodeKeys (nextPiece size visits) ≠ []) :
    ∃ lastPath, getHistoryAndData trie.exporter fuel startPath 0 size = pure
      (⟨getItems trie.exporter.historyStore (elements (nodeKeys (nextPiece size visits)).toFinset),
        lastPath⟩,
       ⟨getItems trie.exporter.valueStore (elements (leafHashes (nextPiece size visits)).toFinset),
        lastPath⟩) := by
  obtain ⟨_, _, exported, path⟩ := exported_piece position positive small enough
  obtain ⟨_, returned⟩ := StoredTrie.chunk_with_node startsAt exported path present
  exact ⟨_, returned⟩

omit positive small startsAt in
theorem starts_at_unique {rootHash : Hash32} {other : Option (List Byte)}
    (first : StartsAt rootHash startPath last) (second : StartsAt rootHash startPath other) :
    last = other := by
  obtain ⟨_, _, rfl, parsed⟩ := first
  obtain ⟨_, _, same, parsed'⟩ := second
  cases same
  exact some.inj (congrArg some (Except.ok.inj (parsed.symm.trans parsed')))

omit startsAt in
theorem accepted_hashes {historyItems dataItems : List (Hash32 × List Byte)}
    (starts : ∃ index prefixSeq, startPath = (trie.rootHash, index) :: prefixSeq)
    (read : (importer.held trie.rootHash).isSome) (enough : trie.work ≤ fuel)
    (accepted : validateStateItems importer.create fuel historyItems dataItems startPath
      (Int32.ofNat size) 0 importer.held = pure ()) :
    ∃ last visits lastPath, StartsAt trie.rootHash startPath last ∧ trie.At last visits ∧
      historyItems.map (·.1) =
        ((chunkNodes (nextPiece size visits) lastPath).filter fun n => !n.isLeaf).map (·.hash) ∧
      dataItems.map (·.1) =
        ((chunkNodes (nextPiece size visits) lastPath).filter fun n => n.isLeaf).map (·.hash) := by
  obtain ⟨_, hashed, ⟨_, traversed, history, data⟩, _⟩ := validate_iff.mp accepted
  have known : (receivedOr historyItems importer.held trie.rootHash).isSome := by
    by_cases listed : trie.rootHash ∈ historyItems.map (·.1)
    · obtain ⟨_, _, found⟩ := received_or_some listed importer.held
      rw [found]
      rfl
    · rwa [received_or_none listed]
  obtain ⟨last, visits, lastPath, startsAt, position, rfl⟩ := traversal_over
    (importer.received_agrees hashed) known positive small enough starts traversed
  exact ⟨last, visits, lastPath, startsAt, position, history, data⟩

theorem accepts_nothing (unread : importer.held trie.rootHash = none) :
    validateStateItems importer.create fuel [] [] startPath (Int32.ofNat size) 0 importer.held =
      pure () := by
  have exported : sequentialExport importer.held traverseSettings fuel trie.rootHash last 0
      (Int32.ofNat size) = pure (({} : ExportData).collect traverseSettings [], none) := by
    rw [sequentialExport, if_neg (takes_more positive small), unread]
    rfl
  rw [validate_iff]
  refine ⟨received_fits (Nat.zero_le size) small, by simp,
    ⟨_, traverse_history_eq startsAt exported rfl, rfl, rfl⟩, by simp⟩

theorem root_held (follows : importer.Follows startPath)
    (only : importer.AcceptsOnlyWalk startPath size) : (importer.held trie.rootHash).isSome := by
  by_contra missing
  have unread := not_isSome_iff_eq_none.mp missing
  obtain ⟨last', visits, startsAt', position, history, _⟩ := only trie.work le_rfl [] []
    (importer.accepts_nothing positive small startsAt unread)
  cases last' with
  | none =>
    cases position with
    | start =>
      have nothing : nodeKeys (nextPiece size trie.visits) = [] :=
        congrArg (map Prod.fst) history.symm
      exact first_piece_has_node positive nothing
  | some keyPrefix =>
    obtain ⟨_, down⟩ := follows keyPrefix visits startsAt' position
    obtain ⟨_, _, found, _⟩ := init_node_path_cases down
    rw [(fetch_eq_some.mp found).1] at unread
    cases unread

theorem no_leaf_lost (follows : importer.Follows startPath)
    (only : importer.AcceptsOnlyWalk startPath size) (position : trie.At last visits)
    (absent : nodeKeys (nextPiece size visits) = []) : leafHashes (nextPiece size visits) = [] := by
  have read := importer.root_held positive small startsAt follows only
  have subset := next_piece_subset size position
  obtain ⟨_, _, startsAt', position', _, data⟩ := only trie.work le_rfl _ _
    (importer.accepts_piece follows startsAt position read positive small le_rfl rfl)
  have same := starts_at_unique startsAt startsAt'
  subst same
  have same := position_unique position position'
  subst same
  have lengths := congrArg length data
  rw [if_pos absent, StoredTrie.leafItems, get_items_length (StoredTrie.leaf_hashes_present subset),
    get_items_length fun hash mem => StoredTrie.leaf_hashes_present subset hash
      (mem_of_mem_dropLast mem), length_dropLast] at lengths
  exact length_eq_zero_iff.mp (by omega)

theorem ascending_of_exports (read : (importer.held trie.rootHash).isSome)
    (exports : importer.AcceptsExport startPath size) (position : trie.At last visits)
    (present : nodeKeys (nextPiece size visits) ≠ []) :
    (nodeKeys (nextPiece size visits)).Pairwise (· < ·) ∧
      (leafHashes (nextPiece size visits)).Pairwise (· < ·) := by
  have subset := next_piece_subset size position
  obtain ⟨_, returned⟩ := export_of_ordered positive small startsAt position le_rfl present
  have starts : ∃ index prefixSeq, startPath = (trie.rootHash, index) :: prefixSeq := by
    obtain ⟨index, prefixSeq, same, _⟩ := startsAt
    exact ⟨index, prefixSeq, same⟩
  obtain ⟨_, _, lastPath, startsAt', position', history, data⟩ :=
    importer.accepted_hashes positive small starts read le_rfl
      (exports trie.work le_rfl _ _ returned)
  have same := starts_at_unique startsAt startsAt'
  subst same
  have same := position_unique position position'
  subst same
  rw [get_items_keys (StoredTrie.sorted_keys_present subset),
    (chunk_nodes_hashes lastPath present).2] at history
  rw [get_items_keys (StoredTrie.sorted_hashes_present subset),
    (chunk_nodes_hashes lastPath present).1] at data
  exact ⟨elements_to_finset_eq_iff.mp history, elements_to_finset_eq_iff.mp data⟩

theorem ordered_of_accepts (follows : importer.Follows startPath)
    (exports : importer.AcceptsExport startPath size)
    (only : importer.AcceptsOnlyWalk startPath size) (position : trie.At last visits) :
    Ordered (nextPiece size visits) := by
  have noLeaf := importer.no_leaf_lost positive small startsAt follows only position
  refine ⟨noLeaf, ?_⟩
  by_cases absent : nodeKeys (nextPiece size visits) = []
  · rw [absent, noLeaf absent]
    exact ⟨List.Pairwise.nil, List.Pairwise.nil⟩
  · have read := importer.root_held positive small startsAt follows only
    exact importer.ascending_of_exports positive small startsAt read exports position absent

end

theorem accepts_export_of_ready (follows : importer.Follows startPath) (positive : 0 < size)
    (small : size < 2 ^ 31)
    (starts : ∃ index prefixSeq, startPath = (trie.rootHash, index) :: prefixSeq)
    (ready : importer.Ready startPath size) : importer.AcceptsExport startPath size := by
  intro _ enough _ _ returned
  obtain ⟨_, traversed, present⟩ := history_and_data_returned returned
  have stored : (trie.exporter.historyStore trie.rootHash).isSome := by
    rw [(fetch_eq_some.mp trie.rooted).1]
    rfl
  obtain ⟨last, visits, _, startsAt, position, rfl⟩ := traversal_over
    (fun _ _ _ left right => some.inj (left.symm.trans right)) stored positive small enough
    starts traversed
  obtain ⟨read, ordered⟩ := ready last startsAt
  obtain ⟨noLeaf, nodesAscend, leavesAscend⟩ := ordered visits position
  by_cases absent : nodeKeys (nextPiece size visits) = []
  · rw [chunk_nodes_of_leaves _ absent, noLeaf absent] at present
    exact absurd rfl present
  · obtain ⟨_, again⟩ := export_of_ordered positive small startsAt position enough absent
    obtain ⟨rfl, rfl⟩ := Prod.mk.inj (pure_inj (again.symm.trans returned))
    rw [elements_to_finset_eq_iff.mpr nodesAscend, elements_to_finset_eq_iff.mpr leavesAscend]
    refine importer.accepts_piece follows startsAt position read positive small enough ?_
    rw [if_neg absent]

theorem accepts_only_of_ready (positive : 0 < size) (small : size < 2 ^ 31)
    (starts : ∃ index prefixSeq, startPath = (trie.rootHash, index) :: prefixSeq)
    (ready : importer.Ready startPath size) : importer.AcceptsOnlyWalk startPath size := by
  intro _ enough historyItems dataItems accepted
  obtain ⟨_, hashed, ⟨_, traversed, _⟩, valued⟩ := validate_iff.mp accepted
  obtain ⟨first, _, _, _, firstStarts, _⟩ := traverse_history_returned starts traversed
  obtain ⟨read, _⟩ := ready first firstStarts
  obtain ⟨last, visits, lastPath, startsAt, position, history, data⟩ :=
    importer.accepted_hashes positive small starts read enough accepted
  obtain ⟨noLeaf, _, _⟩ := (ready last startsAt).2 visits position
  have subset := next_piece_subset size position
  have keys : historyItems.map (·.1) = nodeKeys (nextPiece size visits) ∧
      dataItems.map (·.1) = leafHashes (nextPiece size visits) := by
    by_cases absent : nodeKeys (nextPiece size visits) = []
    · rw [chunk_nodes_of_leaves _ absent, noLeaf absent] at history data
      rw [history, data, absent, noLeaf absent]
      exact ⟨rfl, rfl⟩
    · rw [history, data]
      exact ⟨(chunk_nodes_hashes lastPath absent).2, (chunk_nodes_hashes lastPath absent).1⟩
  refine ⟨last, visits, startsAt, position, ?_, ?_⟩
  · rw [StoredTrie.node_items_eq subset, ← keys.1]
    refine hashed_items_eq importer.nodesHashed hashed ?_
    rw [keys.1]
    exact StoredTrie.node_keys_present subset
  · rw [StoredTrie.leafItems, ← keys.2]
    refine hashed_items_eq importer.valuesHashed valued ?_
    rw [keys.2]
    exact StoredTrie.leaf_hashes_present subset

/-- The chunk of a path is accepted, and no chunk with other nodes or values, exactly when the
importer has the root and the chunk has a node if it has anything and is in the order of hashes. -/
theorem accepts_iff_ready
    (starts : ∃ index prefixSeq, startPath = (trie.rootHash, index) :: prefixSeq)
    (follows : importer.Follows startPath) (positive : 1 ≤ size) (small : size < 2 ^ 31) :
    importer.AcceptsExport startPath size ∧ importer.AcceptsOnlyWalk startPath size ↔
      importer.Ready startPath size := by
  constructor
  · rintro ⟨exports, only⟩ _ startsAt
    exact ⟨importer.root_held positive small startsAt follows only, fun visits position =>
      importer.ordered_of_accepts positive small startsAt follows exports only position⟩
  · intro ready
    exact ⟨importer.accepts_export_of_ready follows positive small starts ready,
      importer.accepts_only_of_ready positive small starts ready⟩

end Importer

section Sample

/-- A root with two leaves, the greater hash first. -/
def swappedRoot : Node Hash32 :=
  Function.update (Function.update emptyNode 0 (.leaf [1] (repeated 66))) 1
    (.leaf [1] (repeated 65))

def swappedRootBytes : List Byte :=
  [0, 1, 1] ++ List.replicate 32 66 ++ [1, 1, 1] ++ List.replicate 32 65

def swappedExporter : RSpaceExporterStore where
  historyStore hash := if hash = repeated 36 then some swappedRootBytes else none
  valueStore hash := if hash = repeated 66 then some [1, 2, 3] else
    if hash = repeated 65 then some [4, 5] else none

theorem swapped_root_leaves : LeafRoot swappedRoot [0, 1] := by
  refine ⟨by decide, fun idx outside => ?_, fun idx here => ?_⟩
  · rw [mem_cons, mem_singleton, not_or] at outside
    rw [swappedRoot, update_of_ne outside.2, update_of_ne outside.1]
    rfl
  · rcases mem_pair.mp here with rfl | rfl
    · exact ⟨repeated 66, rfl⟩
    · exact ⟨repeated 65, rfl⟩

theorem swapped_root_found :
    fetch swappedExporter.historyStore (repeated 36) = some (swappedRootBytes, swappedRoot) :=
  swapped_root_leaves.found rfl (by simp [swappedExporter])

theorem swapped_root_fits : Fits swappedExporter.historyStore 1 swappedRoot :=
  swapped_root_leaves.fits

theorem swapped_walk : wholeWalk swappedExporter.historyStore traverseSettings 1 (repeated 36) =
    [.node [] (repeated 36) swappedRootBytes, .leaf [0, 1] (repeated 66),
      .leaf [1, 1] (repeated 65)] :=
  swapped_root_leaves.walk_eq swapped_root_found

theorem swapped_walk_valued (keyPrefix : List Byte) (value : Hash32)
    (mem : Visit.leaf keyPrefix value ∈
      wholeWalk swappedExporter.historyStore traverseSettings 1 (repeated 36)) :
    (swappedExporter.valueStore value).isSome := by
  rw [swapped_walk] at mem
  rcases (by simpa using mem : _ ∨ _) with ⟨_, rfl⟩ | ⟨_, rfl⟩
  · simp [swappedExporter]
  · rw [swappedExporter]
    dsimp only
    split_ifs with first second
    · rfl
    · rfl
    · exact absurd rfl second

def swappedTrie : StoredTrie where
  exporter := swappedExporter
  rootHash := repeated 36
  rootBytes := swappedRootBytes
  root := swappedRoot
  height := 1
  rooted := swapped_root_found
  fits := swapped_root_fits
  short _ _ _ mem := by
    rw [swapped_walk] at mem
    obtain ⟨rfl, _⟩ := by simpa using mem
    exact Nat.zero_le _
  valued := swapped_walk_valued

/-- A hash that tells the root and the values from all other bytes. -/
def sampleHash (rootBytes bytes : List Byte) : Hash32 :=
  if bytes = rootBytes then repeated 36
  else if bytes = [1, 2, 3] then repeated 66
  else if bytes = [4, 5] then repeated 65
  else repeated 0

theorem repeated_inj {a b : Byte} (same : repeated a = repeated b) : a = b := by
  have heads := congrArg (fun hash : Hash32 => hash.1.head?) same
  exact some.inj heads

variable {rootBytes other : List Byte}

theorem sample_hash_root (same : sampleHash rootBytes other = repeated 36) : other = rootBytes := by
  rw [sampleHash] at same
  split_ifs at same with root
  · exact root
  all_goals exact absurd (repeated_inj same) (by decide)

theorem sample_hash_first (same : sampleHash rootBytes other = repeated 66) :
    other = [1, 2, 3] := by
  rw [sampleHash] at same
  split_ifs at same with root first
  · exact absurd (repeated_inj same) (by decide)
  · exact first
  all_goals exact absurd (repeated_inj same) (by decide)

theorem sample_hash_second (same : sampleHash rootBytes other = repeated 65) : other = [4, 5] := by
  rw [sampleHash] at same
  split_ifs at same with root first second
  · exact absurd (repeated_inj same) (by decide)
  · exact absurd (repeated_inj same) (by decide)
  · exact second
  · exact absurd (repeated_inj same) (by decide)

theorem sample_root_hashed (hash : Hash32) (bytes : List Byte)
    (stored : (if hash = repeated 36 then some rootBytes else none) = some bytes) :
    sampleHash rootBytes bytes = hash ∧
      ∀ other, sampleHash rootBytes other = hash → other = bytes := by
  split_ifs at stored with root
  cases stored
  rw [root]
  exact ⟨if_pos rfl, fun other => sample_hash_root⟩

theorem leaf_values_hashed (hash : Hash32) (bytes : List Byte)
    (stored : leafExporter.valueStore hash = some bytes) : sampleHash leafRootBytes bytes = hash ∧
      ∀ other, sampleHash leafRootBytes other = hash → other = bytes := by
  rw [leafExporter] at stored
  dsimp only at stored
  split_ifs at stored with first
  cases stored
  rw [first]
  exact ⟨by simp [sampleHash, leafRootBytes], fun other => sample_hash_first⟩

theorem swapped_values_hashed (hash : Hash32) (bytes : List Byte)
    (stored : swappedExporter.valueStore hash = some bytes) :
    sampleHash swappedRootBytes bytes = hash ∧
      ∀ other, sampleHash swappedRootBytes other = hash → other = bytes := by
  rw [swappedExporter] at stored
  dsimp only at stored
  split_ifs at stored with first second
  · cases stored
    rw [first]
    exact ⟨by simp [sampleHash, swappedRootBytes], fun other => sample_hash_first⟩
  · cases stored
    rw [second]
    exact ⟨by simp [sampleHash, swappedRootBytes], fun other => sample_hash_second⟩

theorem sample_held_hashed (hash : Hash32) (bytes : List Byte)
    (stored : (if hash = repeated 36 then some rootBytes else none) = some bytes) :
    sampleHash rootBytes bytes = hash := (sample_root_hashed hash bytes stored).1

def leafImporter : Importer leafTrie where
  create := sampleHash leafRootBytes
  held := leafExporter.historyStore
  heldHashed := sample_held_hashed
  nodesHashed := sample_root_hashed
  valuesHashed := leaf_values_hashed

def swappedImporter : Importer swappedTrie where
  create := sampleHash swappedRootBytes
  held := swappedExporter.historyStore
  heldHashed := sample_held_hashed
  nodesHashed := sample_root_hashed
  valuesHashed := swapped_values_hashed

theorem at_root_start {rootHash : Hash32} {last : Option (List Byte)}
    (starts : StartsAt rootHash [(rootHash, none)] last) : last = none := by
  obtain ⟨_, _, same, parsed⟩ := starts
  cases same
  cases parsed
  rfl

/-- The one chunk of the root and its leaf is accepted, and no other. -/
theorem leaf_importer_accepts : leafImporter.AcceptsExport [(repeated 36, none)] 10 ∧
    leafImporter.AcceptsOnlyWalk [(repeated 36, none)] 10 := by
  refine (leafImporter.accepts_iff_ready ⟨none, [], rfl⟩ ?_ (by decide) (by decide)).mpr ?_
  · intro _ _ starts
    cases at_root_start starts
  · intro _ starts
    cases at_root_start starts
    refine ⟨by simp [leafImporter, leafTrie, leafExporter], fun visits position => ?_⟩
    cases position with
    | start =>
      change Ordered (nextPiece 10
        (wholeWalk leafExporter.historyStore traverseSettings 1 (repeated 36)))
      rw [leaf_walk]
      exact ⟨fun absent => absurd absent (cons_ne_nil _ _), pairwise_singleton _ _,
        pairwise_singleton _ _⟩

/-- The exporter sends the two values in the order of their hashes, the check walks them in the
order of their keys. -/
theorem swapped_importer_rejects_export :
    ¬ swappedImporter.AcceptsExport [(repeated 36, none)] 10 := by
  intro exports
  have position : swappedTrie.At none swappedTrie.visits := .start
  have ascending := (swappedImporter.ascending_of_exports (by decide) (by decide)
    ⟨none, [], rfl, rfl⟩ (by simp [swappedImporter, swappedTrie, swappedExporter]) exports position
    (first_piece_has_node (by decide))).2
  rw [StoredTrie.visits, show wholeWalk swappedTrie.exporter.historyStore traverseSettings
    swappedTrie.height swappedTrie.rootHash = _ from swapped_walk] at ascending
  exact absurd ((pairwise_cons.mp ascending).1 _ mem_cons_self) (by decide)

end Sample

end RChain.Radix
