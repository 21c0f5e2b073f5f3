import RChain.Casper.Convergence

/-!
# Populating the DAG from a last finalized state

Source: `populate_dag` of `casper/src/engine/node_syncing.rs`.

A node that syncs inserts the blocks it downloaded by height, with metadata made from the block
alone. What validation adds to the metadata, the fringe, its state and whether the block failed, is
not in the block.
-/

namespace RChain.Casper

open BitCodec Dag Native Sorted Precedence List

variable {H R E : Type} [LinearOrder H]

inductive SyncError (H : Type) where
  /-- "missing block ..." -/
  | missingBlock (hash : H)
  | storage (error : StoreError H)

/-- The insertion of a block whose failure ends the caller. -/
def DagStores.insertOrFail (stores : DagStores H R (Finset H)) (entry : Received H R E) :
    Except (SyncError H) (DagStores H R (Finset H)) :=
  match stores.insert id entry.1 entry.2 with
  | (.ok (), next) => .ok next
  | (.error e, _) => .error (.storage e)

def DagStores.insertEach (stores : DagStores H R (Finset H)) (order : List (Received H R E)) :
    Except (SyncError H) (DagStores H R (Finset H)) :=
  order.foldlM DagStores.insertOrFail stores

def syncMetadata (zeroHash : R) (block : BlockMessage H R E) : BlockMetadata H R :=
  if block.blockNumber = 0 then genesisMetadata zeroHash block
  else BlockMetadata.fromBlock zeroHash block

/-- The hashes of the downloaded blocks, lowest height first. -/
def heightHashes (heightMap : AList fun _ : Nat => Finset H) : List H :=
  (elements heightMap.keys.toFinset).flatMap fun height =>
    elements ((heightMap.lookup height).getD ∅)

def populateDag (zeroHash : R) (blockStore : H → Option (BlockMessage H R E))
    (heightMap : AList fun _ : Nat => Finset H) (stores : DagStores H R (Finset H)) :
    Except (SyncError H) (DagStores H R (Finset H)) :=
  (heightHashes heightMap).foldlM
    (fun stores hash =>
      match blockStore hash with
      | none => .error (.missingBlock hash)
      | some block => stores.insertOrFail (syncMetadata zeroHash block, block)) stores

/-- What a node knows of a block: its fringe, the state of the fringe and the deploys that were
rejected with it, and whether the block failed. -/
structure BlockView (H R : Type) where
  fringe : Finset H
  fringeStateHash : R
  rejectedDeploys : Option (Finset (List Byte))
  validationFailed : Bool

def DagStores.blockView (stores : DagStores H R (Finset H)) (hash : H) : Option (BlockView H R) :=
  (stores.dag.lookup hash).map fun m =>
    { fringe := m.fringe
      fringeStateHash := m.fringeStateHash
      rejectedDeploys := (stores.dag.representation.fringeStates m.fringe).map (·.rejectedDeploys)
      validationFailed := m.validationFailed }

/-- A block with the metadata that a node which validates it stores: genesis has an empty fringe
over its own pre-state, and every other block failed or has a state for its fringe. After a block
with an empty fringe failed, its zero hash stands in the record of the empty fringe, and a valid
block can take it from there: histories with such a block are not covered. -/
structure ValidatedAs (zeroHash : R) (entry : Received H R E) : Prop where
  hash : entry.1.blockHash = entry.2.blockHash
  genesis : entry.2.blockNumber = 0 → entry.1 = genesisMetadata zeroHash entry.2
  settled : entry.2.blockNumber ≠ 0 →
    entry.1.validationFailed = true ∨ entry.1.fringeStateHash ≠ zeroHash

section Insertion

variable {stores next : DagStores H R (Finset H)} {entry : Received H R E}
  {order : List (Received H R E)}

theorem insert_or_fail_ok (inserted : stores.insertOrFail entry = .ok next)
    (fresh : receivedHash entry ∉ stores.dag.index.dagSet) :
    next.dag.lookup = Function.update stores.dag.lookup (receivedHash entry) (some entry.1) ∧
      next.dag.index.dagSet = insert (receivedHash entry) stores.dag.index.dagSet := by
  unfold DagStores.insertOrFail at inserted
  have outcome := insert_cases id stores entry.1 entry.2
  generalize stores.insert id entry.1 entry.2 = result at outcome inserted
  cases outcome with
  | known known => exact absurd known fresh
  | inserted =>
    cases inserted
    exact ⟨inserted_lookup, rfl⟩
  | _ => cases inserted

theorem insert_each_lookup (run : stores.insertEach order = .ok next)
    (distinct : (order.map receivedHash).Nodup)
    (fresh : ∀ x ∈ order, receivedHash x ∉ stores.dag.index.dagSet) :
    (∀ x ∈ order, next.dag.lookup (receivedHash x) = some x.1) ∧
      ∀ hash, hash ∉ order.map receivedHash → next.dag.lookup hash = stores.dag.lookup hash := by
  induction order generalizing stores with
  | nil =>
    cases run
    simp
  | cons entry order ih =>
    rw [DagStores.insertEach, foldlM_cons] at run
    rcases Steps.bind_eq_ok.mp run with ⟨middle, first, rest⟩
    rcases insert_or_fail_ok first (fresh entry mem_cons_self) with ⟨lookup, dagSet⟩
    rw [map_cons, nodup_cons] at distinct
    have other {x : Received H R E} (mem : x ∈ order) :
        receivedHash x ≠ receivedHash entry := fun same =>
      distinct.1 (same ▸ mem_map_of_mem mem)
    have later : ∀ x ∈ order, receivedHash x ∉ middle.dag.index.dagSet := by
      intro x mem
      rw [dagSet, Finset.mem_insert, not_or]
      exact ⟨other mem, fresh x (mem_cons_of_mem entry mem)⟩
    rcases ih rest distinct.2 later with ⟨found, kept⟩
    constructor
    · intro x mem
      rcases mem_cons.mp mem with here | among
      · rw [here, kept _ distinct.1, lookup, Function.update_self]
      · exact found x among
    · intro hash outside
      rw [map_cons, mem_cons, not_or] at outside
      rw [kept hash outside.2, lookup, Function.update_of_ne outside.1]

theorem populate_dag_eq {zeroHash : R} {blockStore : H → Option (BlockMessage H R E)}
    (stored : ∀ x ∈ order, blockStore (receivedHash x) = some x.2)
    {heightMap : AList fun _ : Nat => Finset H}
    (listed : heightHashes heightMap = order.map receivedHash) :
    populateDag zeroHash blockStore heightMap stores =
      stores.insertEach (order.map fun x => (syncMetadata zeroHash x.2, x.2)) := by
  unfold populateDag DagStores.insertEach
  rw [listed]
  clear listed
  induction order generalizing stores with
  | nil => rfl
  | cons x _ ih =>
    rw [map_cons, map_cons, foldlM_cons, foldlM_cons, stored x mem_cons_self]
    refine congrArg (Except.bind _) (funext fun middle => ?_)
    exact ih (fun y mem => stored y (mem_cons_of_mem x mem))

end Insertion

theorem sync_metadata_hash (zeroHash : R) (block : BlockMessage H R E) :
    (syncMetadata zeroHash block).blockHash = block.blockHash := by
  unfold syncMetadata
  split_ifs <;> rfl

section Comparison

variable {zeroHash : R} {order downloaded : List (Received H R E)}
  {validated : DagStores H R (Finset H)} {blockStore : H → Option (BlockMessage H R E)}
  {heightMap : AList fun _ : Nat => Finset H}

theorem synced_view_differs (distinct : (order.map receivedHash).Nodup)
    (valid : DagStores.empty.insertEach order = .ok validated)
    (genuine : ∀ x ∈ order, ValidatedAs zeroHash x) (perm : downloaded.Perm order)
    (stored : ∀ x ∈ order, blockStore (receivedHash x) = some x.2)
    (listed : heightHashes heightMap = downloaded.map receivedHash)
    {synced : DagStores H R (Finset H)}
    (populated : populateDag zeroHash blockStore heightMap DagStores.empty = .ok synced)
    {x : Received H R E} (mem : x ∈ order) (above : x.2.blockNumber ≠ 0) :
    synced.blockView (receivedHash x) ≠ validated.blockView (receivedHash x) := by
  have known := (insert_each_lookup valid distinct fun y _ => Finset.notMem_empty _).1 x mem
  have hashes : (downloaded.map fun y => (syncMetadata zeroHash y.2, y.2)).map receivedHash =
      downloaded.map receivedHash := by
    rw [map_map]
    refine map_congr_left fun y among => ?_
    exact (sync_metadata_hash zeroHash y.2).trans (genuine y (perm.mem_iff.mp among)).hash.symm
  rw [populate_dag_eq (fun y among => stored y (perm.mem_iff.mp among)) listed] at populated
  have written := (insert_each_lookup populated
    (hashes ▸ ((perm.map receivedHash).nodup_iff.mpr distinct)) fun y _ =>
      Finset.notMem_empty _).1 (syncMetadata zeroHash x.2, x.2)
        (mem_map_of_mem (perm.mem_iff.mpr mem))
  have hash : receivedHash (syncMetadata zeroHash x.2, x.2) = receivedHash x :=
    (sync_metadata_hash zeroHash x.2).trans (genuine x mem).hash.symm
  rw [hash, syncMetadata, if_neg above] at written
  intro same
  simp only [DagStores.blockView, known, written, Option.map_some, Option.some.injEq,
    BlockView.mk.injEq] at same
  rcases (genuine x mem).settled above with failed | state
  · rw [failed] at same
    cases same.2.2.2
  · exact state same.2.1.symm

/-- A node that syncs from a last finalized state knows the blocks as a node that validated them
exactly when it synced nothing but genesis. -/
theorem sync_matches_validation_iff (distinct : (order.map receivedHash).Nodup)
    (valid : DagStores.empty.insertEach order = .ok validated)
    (genuine : ∀ x ∈ order, ValidatedAs zeroHash x)
    (oneGenesis : ∀ x ∈ order, ∀ y ∈ order, x.2.blockNumber = 0 → y.2.blockNumber = 0 → x = y)
    (perm : downloaded.Perm order)
    (stored : ∀ x ∈ order, blockStore (receivedHash x) = some x.2)
    (listed : heightHashes heightMap = downloaded.map receivedHash) :
    (∃ synced, populateDag zeroHash blockStore heightMap DagStores.empty = .ok synced ∧
      ∀ x ∈ order, synced.blockView (receivedHash x) = validated.blockView (receivedHash x)) ↔
    ∀ x ∈ order, x.2.blockNumber = 0 := by
  constructor
  · rintro ⟨_, populated, same⟩ x member
    by_contra above
    exact synced_view_differs distinct valid genuine perm stored listed populated member above
      (same x member)
  · intro genesis
    have entries : downloaded.map (fun x => (syncMetadata zeroHash x.2, x.2)) = downloaded := by
      refine (map_congr_left fun x among => ?_).trans (map_id downloaded)
      have known := perm.mem_iff.mp among
      rw [syncMetadata, if_pos (genesis x known), ← (genuine x known).genesis (genesis x known)]
      rfl
    have sameOrder : downloaded = order := by
      cases order with
      | nil => exact perm.eq_nil
      | cons g rest =>
        -- with one genesis there is nothing to reorder
        have none : rest = [] := by
          refine eq_nil_iff_forall_not_mem.mpr fun y among => ?_
          have here := oneGenesis y (mem_cons_of_mem g among) g mem_cons_self
            (genesis y (mem_cons_of_mem g among)) (genesis g mem_cons_self)
          rw [map_cons, nodup_cons] at distinct
          exact distinct.1 (here ▸ mem_map_of_mem among)
        subst none
        exact perm_singleton.mp perm
    refine ⟨validated, ?_, fun _ _ => rfl⟩
    rw [populate_dag_eq (fun y among => stored y (perm.mem_iff.mp among)) listed, entries,
      sameOrder, valid]

end Comparison

section Samples

/-- A block over genesis with a sequence number that it skips to. -/
def skewedBlock : SampleBlock := { sampleBlock 1 [0] with seqNum := 5 }

def skewedMetadata : BlockMetadata Nat NativeState :=
  markFailed (BlockMetadata.fromBlock sampleRuntime.zeroHash skewedBlock)

def genesisEntry : Received Nat NativeState Unit :=
  (genesisMetadata sampleRuntime.zeroHash sampleGenesis, sampleGenesis)

def sampleBlocks (hash : Nat) : Option SampleBlock :=
  if hash = 0 then some sampleGenesis else if hash = 1 then some skewedBlock else none

def levels (height : Nat) : AList fun _ : Nat => Finset Nat :=
  (List.range height).foldl (fun map level => map.insert level {level}) ∅

/-- A block that failed is a valid one for a node that synced it. -/
theorem failed_block_syncs_as_valid :
    validate sampleNode genesisStores.dag (fun _ => none) skewedBlock =
      .error (.validationFailed skewedMetadata .invalidSequenceNumber) ∧
    ((DagStores.empty.insertEach [genesisEntry, (skewedMetadata, skewedBlock)]).toOption.bind
      fun stores => (stores.blockView 1).map (·.validationFailed)) = some true ∧
    ((populateDag sampleRuntime.zeroHash sampleBlocks (levels 2) DagStores.empty).toOption.bind
      fun stores => (stores.blockView 1).map (·.validationFailed)) = some false :=
  ⟨rfl, rfl, rfl⟩

theorem genesis_inserted : DagStores.empty.insertEach [genesisEntry] = .ok genesisStores := rfl

theorem genesis_syncs :
    ∃ synced, populateDag sampleRuntime.zeroHash sampleBlocks (levels 1) DagStores.empty =
        .ok synced ∧
      ∀ x ∈ [genesisEntry],
        synced.blockView (receivedHash x) = genesisStores.blockView (receivedHash x) := by
  refine (sync_matches_validation_iff (by decide) genesis_inserted (fun x member => ?_)
    (fun x inX y inY _ _ => ?_) (List.Perm.refl _) (fun x member => ?_) rfl).mpr
    fun x member => ?_
  · rw [mem_singleton.mp member]
    exact ⟨rfl, fun _ => rfl, fun above => absurd rfl above⟩
  · rw [mem_singleton.mp inX, mem_singleton.mp inY]
  · rw [mem_singleton.mp member]
    rfl
  · rw [mem_singleton.mp member]
    rfl

end Samples

end RChain.Casper
