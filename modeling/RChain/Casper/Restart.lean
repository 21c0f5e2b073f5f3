import RChain.Casper.DagGrowth

/-!
# A restart

A restart rebuilds the index from the metadata, and the messages and fringe states from the blocks
of the height map, lowest height first. Failed blocks are not in the height map, so their messages
are not rebuilt.
-/

namespace RChain.Casper

open BitCodec Dag Native Sorted Steps List Function AList

variable {H R E F : Type} [LinearOrder H] [DecidableEq F]

section Rebuild

variable {fringeHash : Finset H → F} {stores : DagStores H R F}

/-- What has been rebuilt from the blocks of a list. -/
structure RebuiltFrom (fringeHash : Finset H → F) (stores : DagStores H R F) (done : List H)
    (rebuilt : Rebuilt H R) : Prop where
  messages : ∀ id, rebuilt.1.msgMap.lookup id =
    if id ∈ done then stores.dag.msgMap.lookup id else none
  latest : LatestOf rebuilt.1
  recorded : ∀ hash ∈ done, ∀ m, stores.dag.lookup hash = some m →
    rebuilt.2 m.fringe = stores.fringeData.lookup (fringeHash m.fringe)
  unrecorded : ∀ fringe, (∀ hash ∈ done, ∀ m, stores.dag.lookup hash = some m →
    m.fringe ≠ fringe) → rebuilt.2 fringe = none

theorem rebuild_fringe_cases (fringeStates : Finset H → Option (FringeData H R))
    (fringe other : Finset H) (recorded : fringeStates fringe = none ∨
      fringeStates fringe = stores.fringeData.lookup (fringeHash fringe)) :
    rebuildFringe fringeHash stores.fringeData fringeStates fringe other =
      if other = fringe then stores.fringeData.lookup (fringeHash fringe)
      else fringeStates other := by
  unfold rebuildFringe
  cases here : fringeStates fringe with
  | some =>
    rw [here] at recorded
    dsimp only
    by_cases same : other = fringe
    · rw [if_pos same, same, here]
      exact recorded.resolve_left (by simp)
    · rw [if_neg same]
  | none =>
    dsimp only
    cases found : stores.fringeData.lookup (fringeHash fringe) with
    | none =>
      dsimp only
      by_cases same : other = fringe
      · rw [if_pos same, same, here]
      · rw [if_neg same]
    | some =>
      dsimp only
      by_cases same : other = fringe
      · rw [if_pos same, same, update_self]
      · rw [if_neg same, update_of_ne same]

variable {done : List H} {rebuilt : Rebuilt H R} {hash : H} {block : BlockMetadata H R} {id : H}

section

variable (rebuilds : RebuiltFrom fringeHash stores done rebuilt)
include rebuilds

theorem rebuilt_again (mem : hash ∈ done) :
    RebuiltFrom fringeHash stores (done ++ [hash]) rebuilt := by
  have same (other : H) : other ∈ done ++ [hash] ↔ other ∈ done := by
    rw [mem_append, mem_singleton]
    exact or_iff_left_of_imp fun here => here ▸ mem
  refine ⟨fun id => ?_, rebuilds.latest,
    fun other among => rebuilds.recorded other ((same other).mp among),
    fun fringe nobody => rebuilds.unrecorded fringe fun other among =>
      nobody other ((same other).mpr among)⟩
  rw [rebuilds.messages]
  simp only [same]

variable (tracks : Tracks fringeHash stores)
  (found : stores.dag.lookup block.blockHash = some block)
  (before : ∀ j ∈ block.justifications, j ∈ done)
include tracks found before

theorem rebuilt_message : ∃ msg, messageFromBlockMetadata block rebuilt.1.msgMap = some msg ∧
      stores.dag.msgMap.lookup block.blockHash = some msg ∧ msg.id = block.blockHash ∧
      msg.fringe = block.fringe := by
  obtain ⟨justifications, listed, held⟩ := tracks.messages block.blockHash block found
  refine ⟨blockMessage block justifications, ?_, held, rfl, rfl⟩
  have again : block.justifications.mapM rebuilt.1.msgMap.lookup = some justifications := by
    refine mapM_some_of_grows (fun j mem x sent => ?_) listed
    rw [rebuilds.messages, if_pos (before j mem)]
    exact sent
  rw [message_from_metadata, again]
  rfl

omit tracks before in
theorem rebuilt_extended (fresh : block.blockHash ∉ rebuilt.1.msgMap) {msg : Message H Validator}
    (held : stores.dag.msgMap.lookup block.blockHash = some msg) (id : msg.id = block.blockHash)
    (fringe : msg.fringe = block.fringe) : RebuiltFrom fringeHash stores (done ++ [block.blockHash])
      (rebuilt.1.insertMsg msg,
        rebuildFringe fringeHash stores.fringeData rebuilt.2 msg.fringe) := by
  have recorded : rebuilt.2 block.fringe = none ∨
      rebuilt.2 block.fringe = stores.fringeData.lookup (fringeHash block.fringe) := by
    by_cases known : ∃ hash ∈ done, ∃ m, stores.dag.lookup hash = some m ∧ m.fringe = block.fringe
    · obtain ⟨hash, mem, m, old, same⟩ := known
      rw [← same]
      exact .inr (rebuilds.recorded hash mem m old)
    · refine Or.inl (rebuilds.unrecorded _ fun hash mem m old same => known ?_)
      exact ⟨hash, mem, m, old, same⟩
  have states := fun other => rebuild_fringe_cases rebuilt.2 block.fringe other recorded
  rw [← id] at fresh
  rw [fringe]
  constructor
  · intro other
    dsimp only
    rw [(insert_msg_fresh fresh).1, id]
    by_cases here : other = block.blockHash
    · rw [here, lookup_insert, if_pos (by simp), held]
    · rw [lookup_insert_ne here, rebuilds.messages]
      simp [here]
  · exact latest_among_insert rebuilds.latest fresh trivial fun _ _ => Iff.rfl
  · intro hash mem m looked
    dsimp only
    rw [states]
    split_ifs with same
    · rw [same]
    · rcases mem_append.mp mem with old | new
      · exact rebuilds.recorded hash old m looked
      · rw [mem_singleton.mp new, found] at looked
        cases looked
        exact absurd rfl same
  · intro other nobody
    dsimp only
    have different : other ≠ block.fringe := fun same =>
      nobody block.blockHash (by simp) block found same.symm
    rw [states, if_neg different]
    exact rebuilds.unrecorded other fun hash mem =>
      nobody hash (mem_append_left _ mem)

theorem rebuild_step :
    ∃ next, rebuildBlock fringeHash stores rebuilt block.blockHash = .ok next ∧
      RebuiltFrom fringeHash stores (done ++ [block.blockHash]) next := by
  unfold rebuildBlock
  by_cases present : block.blockHash ∈ rebuilt.1.msgMap
  · refine ⟨rebuilt, by rw [if_pos present], rebuilt_again rebuilds ?_⟩
    rw [← lookup_isSome, rebuilds.messages] at present
    by_contra outside
    rw [if_neg outside] at present
    cases present
  · obtain ⟨_, built, held, id, fringe⟩ := rebuilt_message rebuilds tracks found before
    have looked : stores.dag.metadata.lookup block.blockHash = some block := found
    refine ⟨_, ?_, rebuilt_extended rebuilds found present held id fringe⟩
    rw [if_neg present, looked]
    dsimp only
    rw [built]

omit tracks found before in
theorem rebuild_all (tracks : Tracks fringeHash stores) (rest : List H)
    (known : ∀ hash ∈ rest, (stores.dag.lookup hash).isSome)
    (ordered : ∀ before hash after block, done ++ rest = before ++ hash :: after →
      stores.dag.lookup hash = some block → ∀ j ∈ block.justifications, j ∈ before) :
    ∃ result, rest.foldlM (rebuildBlock fringeHash stores) rebuilt = .ok result ∧
      RebuiltFrom fringeHash stores (done ++ rest) result := by
  induction rest generalizing done rebuilt with
  | nil => exact ⟨rebuilt, rfl, by simpa using rebuilds⟩
  | cons hash rest ih =>
    obtain ⟨block, found⟩ := Option.isSome_iff_exists.mp (known hash mem_cons_self)
    have name := tracks.named hash block found
    subst name
    obtain ⟨_, built, step⟩ := rebuild_step rebuilds tracks found
      (ordered done block.blockHash rest block rfl found)
    obtain ⟨result, folded, all⟩ := ih step (fun other mem => known other (mem_cons_of_mem _ mem))
      (by rw [← append_cons]; exact ordered)
    refine ⟨result, ?_, by rw [append_cons]; exact all⟩
    rw [foldlM_cons, built]
    exact folded

end

theorem rebuild_block_within {next : Rebuilt H R}
    (step : rebuildBlock fringeHash stores rebuilt hash = .ok next)
    (named : ∀ hash m, stores.dag.lookup hash = some m → m.blockHash = hash)
    (held : id ∈ next.1.msgMap) : id ∈ rebuilt.1.msgMap ∨ id = hash := by
  unfold rebuildBlock at step
  split at step
  · cases step
    exact .inl held
  · split at step
    · cases step
    · rename_i block found
      split at step
      · cases step
      · rename_i msg built
        cases step
        rw [message_from_metadata, Option.map_eq_some_iff] at built
        obtain ⟨_, _, same⟩ := built
        obtain ⟨x, sent⟩ := Option.isSome_iff_exists.mp (lookup_isSome.mpr held)
        rcases lookup_insert_msg rebuilt.1 msg x id sent with old | ⟨here, _⟩
        · exact .inl (held_of_lookup old)
        · right
          rw [here, ← same]
          exact named hash block found

theorem rebuilt_within (rest : List H) {result : Rebuilt H R}
    (folded : rest.foldlM (rebuildBlock fringeHash stores) rebuilt = .ok result)
    (named : ∀ hash m, stores.dag.lookup hash = some m → m.blockHash = hash)
    (held : id ∈ result.1.msgMap) : id ∈ rebuilt.1.msgMap ∨ id ∈ rest := by
  induction rest generalizing rebuilt with
  | nil =>
    cases folded
    exact .inl held
  | cons _ _ ih =>
    rw [foldlM_cons] at folded
    obtain ⟨_, step, folded⟩ := bind_eq_ok.mp folded
    rcases ih folded with early | later
    · rcases rebuild_block_within step named early with old | here
      · exact .inl old
      · exact .inr (here ▸ mem_cons_self)
    · exact .inr (mem_cons_of_mem _ later)

end Rebuild

section Order

variable {index : DagState H} {blocks : H → Option (BlockMetadata H R)}

theorem mem_height_order (indexes : Indexes index blocks) {hash : H} :
    hash ∈ heightOrder index ↔ ∃ height, AtHeight blocks height hash := by
  unfold heightOrder
  simp only [mem_flatMap, mem_elements, mem_toFinset, ← AList.mem_keys, indexes.heights,
    indexes.levels]
  constructor
  · rintro ⟨height, _, level⟩
    exact ⟨height, level⟩
  · rintro ⟨height, level⟩
    exact ⟨height, ⟨hash, level⟩, level⟩

theorem height_order_ascends (indexes : Indexes index blocks) :
    (heightOrder index).Pairwise fun earlier later => ∀ m p, blocks earlier = some m →
      blocks later = some p → m.blockNum ≤ p.blockNum := by
  have level {height : Nat} {hash : H} {m : BlockMetadata H R}
      (mem : hash ∈ elements ((index.heightMap.lookup height).getD ∅))
      (found : blocks hash = some m) : m.blockNum = height := by
    obtain ⟨_, same, _, number⟩ := (indexes.levels height hash).mp (mem_elements.mp mem)
    rw [found] at same
    cases same
    exact number
  rw [heightOrder, pairwise_flatMap]
  constructor
  · intro _ _
    refine List.Pairwise.imp_of_mem (fun {a b} left right _ m p first second => ?_)
      (elements_nodup _)
    rw [level left first, level right second]
  · refine (elements_sorted _).imp fun {low high} le a left b right m p first second => ?_
    rw [level left first, level right second]
    exact le

theorem height_order_topological {fringeHash : Finset H → F} {stores : DagStores H R F}
    (tracks : Tracks fringeHash stores) (indexes : Indexes index stores.dag.lookup)
    (valid : ∀ hash m, stores.dag.lookup hash = some m → m.validationFailed = false)
    (before : List H) (hash : H) (after : List H) (block : BlockMetadata H R)
    (split : heightOrder index = before ++ hash :: after)
    (found : stores.dag.lookup hash = some block) (j : H) (mem : j ∈ block.justifications) :
    j ∈ before := by
  obtain ⟨_, listed, _⟩ := tracks.messages hash block found
  obtain ⟨_, _, sent⟩ := mapM_some_mem listed mem
  have known := tracks.known j (held_of_lookup sent)
  obtain ⟨p, parent⟩ := Option.isSome_iff_exists.mp known
  have lower := tracks.numbered hash block found (valid hash block found) j mem p parent
    (valid j p parent)
  have inside : j ∈ heightOrder index :=
    (mem_height_order indexes).mpr ⟨p.blockNum, p, parent, valid j p parent, rfl⟩
  have ascends := height_order_ascends indexes
  rw [split] at inside ascends
  rcases mem_append.mp inside with early | late
  · exact early
  · rcases mem_cons.mp late with here | later
    · rw [here, found] at parent
      cases parent
      exact absurd lower (lt_irrefl _)
    · have above := (pairwise_cons.mp (pairwise_append.mp ascends).2.1).1 j later block p
        found parent
      exact absurd lower (not_lt_of_ge above)

end Order

section Restart

/-- Two representations hold the same maps. -/
structure SameRepresentation (left right : DagRepresentation H R) : Prop where
  dagSet : left.index.dagSet = right.index.dagSet
  childMap : ∀ hash, left.index.childMap.lookup hash = right.index.childMap.lookup hash
  heightMap : ∀ height, left.index.heightMap.lookup height = right.index.heightMap.lookup height
  msgMap : ∀ id, left.dagMessageState.msgMap.lookup id = right.dagMessageState.msgMap.lookup id
  latestMsgs : ∀ sender, left.dagMessageState.latestMsgs.lookup sender =
    right.dagMessageState.latestMsgs.lookup sender
  fringeStates : left.fringeStates = right.fringeStates

variable {fringeHash : Finset H → F} {stores : DagStores H R F}

theorem restart_without_failed (tracks : Tracks fringeHash stores)
    (valid : ∀ hash m, stores.dag.lookup hash = some m → m.validationFailed = false) :
    ∃ restarted, stores.create fringeHash = .ok restarted ∧
      SameRepresentation restarted.dag.representation stores.dag.representation := by
  obtain ⟨index, recreated, indexes⟩ := recreate_indexes tracks.named tracks.indexes
    tracks.contiguous
  have start : RebuiltFrom fringeHash stores [] (DagMessageState.empty, fun _ => none) :=
    ⟨fun _ => rfl, latest_empty, fun hash mem => absurd mem not_mem_nil, fun _ _ => rfl⟩
  have inOrder {hash : H} : hash ∈ heightOrder index ↔ ∃ m, stores.dag.lookup hash = some m := by
    rw [mem_height_order indexes]
    constructor
    · rintro ⟨_, m, found, _⟩
      exact ⟨m, found⟩
    · rintro ⟨m, found⟩
      exact ⟨m.blockNum, m, found, valid hash m found, rfl⟩
  obtain ⟨rebuilt, folded, rebuilds⟩ := rebuild_all start tracks (heightOrder index)
    (fun hash mem => Option.isSome_iff_exists.mpr (inOrder.mp mem))
    (height_order_topological tracks indexes valid)
  rw [nil_append] at rebuilds
  have messages (id : H) : rebuilt.1.msgMap.lookup id = stores.dag.msgMap.lookup id := by
    rw [rebuilds.messages]
    split_ifs with mem
    · rfl
    · symm
      rw [lookup_eq_none]
      exact fun held => mem (inOrder.mpr (Option.isSome_iff_exists.mp (tracks.known id held)))
  have unique := indexes_unique indexes tracks.indexes
  refine ⟨_, bind_eq_ok.mpr ⟨index, recreated, bind_eq_ok.mpr ⟨rebuilt, folded, rfl⟩⟩, ?_⟩
  refine ⟨?_, ?_, ?_, messages, latest_among_unique rebuilds.latest (tracks.latest valid) messages
    tracks.single, ?_⟩
  · rw [tracks.copied]
    exact unique.1
  · rw [tracks.copied]
    exact unique.2.1
  · rw [tracks.copied]
    exact unique.2.2
  · funext fringe
    by_cases known : ∃ hash m, stores.dag.lookup hash = some m ∧ m.fringe = fringe
    · obtain ⟨hash, m, found, same⟩ := known
      subst same
      exact (rebuilds.recorded hash (inOrder.mpr ⟨m, found⟩) m found).trans
        (tracks.recorded hash m found).symm
    · have nobody (hash : H) (m : BlockMetadata H R) (found : stores.dag.lookup hash = some m) :
          m.fringe ≠ fringe := fun same => known ⟨hash, m, found, same⟩
      exact (rebuilds.unrecorded fringe fun hash _ => nobody hash).trans
        (tracks.unrecorded fringe nobody).symm

/-- After insertions that succeeded, a restart gives the representation back exactly when no
block had failed. -/
theorem restart_same_iff (injective : Function.Injective fringeHash)
    (grown : Grown fringeHash E stores) :
    (∃ restarted, stores.create fringeHash = .ok restarted ∧
      SameRepresentation restarted.dag.representation stores.dag.representation) ↔
    ∀ hash m, stores.dag.lookup hash = some m → m.validationFailed = false := by
  have tracks := grown_tracks injective grown
  constructor
  · rintro ⟨_, created, same⟩ hash m found
    obtain ⟨index, recreated, created⟩ := bind_eq_ok.mp created
    obtain ⟨rebuilt, folded, created⟩ := bind_eq_ok.mp created
    cases created
    obtain ⟨_, recreated', indexes⟩ := recreate_indexes tracks.named tracks.indexes
      tracks.contiguous
    rw [recreated] at recreated'
    cases recreated'
    obtain ⟨_, _, sent⟩ := tracks.messages hash m found
    have held : hash ∈ rebuilt.1.msgMap := by
      rw [← lookup_isSome]
      have here : rebuilt.1.msgMap.lookup hash = stores.dag.msgMap.lookup hash := same.msgMap hash
      rw [here, sent]
      rfl
    rcases rebuilt_within (heightOrder index) folded tracks.named held with none | listed
    · cases none
    · obtain ⟨_, other, again, passed, _⟩ := (mem_height_order indexes).mp listed
      have same : some m = some other := found.symm.trans again
      cases same
      exact passed
  · exact restart_without_failed tracks

end Restart

section Samples

/-- The storage of a node that holds the genesis block. -/
def genesisStores : DagStores Nat NativeState (Finset Nat) :=
  (DagStores.empty.insert id (genesisMetadata sampleRuntime.zeroHash sampleGenesis)
    sampleGenesis).2

/-- A block whose numbers skip some. -/
def skippingBlock : SampleBlock := sampleBlock 5 [0]

def skippingMetadata : BlockMetadata Nat NativeState :=
  markFailed (BlockMetadata.fromBlock sampleRuntime.zeroHash skippingBlock)

theorem genesis_grown : Grown id Unit genesisStores :=
  .insert _ sampleGenesis .empty (fun _ _ mem => absurd mem not_mem_nil) rfl

theorem skipping_grown : Grown id Unit (genesisStores.insert id skippingMetadata skippingBlock).2 :=
  .insert _ skippingBlock genesis_grown (fun passed => Bool.noConfusion passed) rfl

/-- The message of a block that failed validation is gone after a restart. -/
theorem failed_message_lost : validate sampleNode genesisStores.dag (fun _ => none) skippingBlock =
      .error (.validationFailed skippingMetadata .invalidSequenceNumber) ∧
    Grown id Unit (genesisStores.insert id skippingMetadata skippingBlock).2 ∧
    ∃ restarted, (genesisStores.insert id skippingMetadata skippingBlock).2.create id =
      .ok restarted ∧
      5 ∈ (genesisStores.insert id skippingMetadata skippingBlock).2.dag.msgMap ∧
      5 ∉ restarted.dag.msgMap := by
  exact ⟨rfl, skipping_grown, _, rfl, by decide, by decide⟩

/-- A block over genesis, with the metadata that its validation gives. -/
def childBlock : SampleBlock := sampleBlock 1 [0]

def childMetadata : BlockMetadata Nat NativeState :=
  { BlockMetadata.fromBlock sampleGenesis.preStateHash childBlock with validated := true }

def childStores : DagStores Nat NativeState (Finset Nat) :=
  (genesisStores.insert id childMetadata childBlock).2

theorem child_grown : Grown id Unit childStores :=
  .insert _ childBlock genesis_grown (fun _ j mem p found _ => by
    cases mem_singleton.mp mem
    cases found
    decide) rfl

theorem child_restarts :
    validate sampleNode genesisStores.dag (NodeState.genesis sampleNode sampleGenesis).blockStore
      childBlock = .ok childMetadata ∧
    ∃ restarted, childStores.create id = .ok restarted ∧
      SameRepresentation restarted.dag.representation childStores.dag.representation := by
  refine ⟨rfl, (restart_same_iff injective_id child_grown).mpr fun hash m found => ?_⟩
  have listed : hash ∈ childStores.dag.metadata.keys := AList.mem_keys.mp (held_of_lookup found)
  have keys : childStores.dag.metadata.keys = [1, 0] := rfl
  rw [keys, mem_pair] at listed
  rcases listed with rfl | rfl <;> cases found <;> rfl

end Samples

end RChain.Casper
