import RChain.Casper.Acceptance
import RChain.Lib.Sorted

/-!
# The DAG storage with its persisted stores

Source: `casper/src/dag.rs`, `create` of `casper/src/block_metadata_store.rs` and
`recreate_in_memory_state` of `block-storage/src/dag/metadata_store.rs`.

`DagStores` adds to the block DAG what only block creation and a restart read: the fringe data by
the hash of the fringe, the block that a deploy was indexed to, and the deploy pool. The hash of a
fringe is the parameter `fringeHash`. The index that is written again for newly finalized blocks is
already what it becomes, and the pruning of the cache of block indices is left out.
-/

namespace RChain.Casper

open BitCodec Dag Native Sorted

structure DagStores (H R F : Type) where
  dag : BlockDag H R
  fringeData : Finmap fun _ : F => FringeData H R
  deployIndex : Finmap fun _ : List Byte => H
  deployStore : Finmap fun _ : List Byte => SignedDeployData

variable {H R E F : Type} [LinearOrder H] [DecidableEq F]

def DagStores.empty : DagStores H R F := ⟨BlockDag.empty, ∅, ∅, ∅⟩

section Insertion

def deployHashes (block : BlockMessage H R E) : List (List Byte) :=
  block.deploys.map fun d => d.deploy.sig

def putDeploys (deployIndex : Finmap fun _ : List Byte => H) (block : BlockMessage H R E) :
    Finmap fun _ : List Byte => H :=
  (deployHashes block).foldl (fun index sig => index.insert sig block.blockHash) deployIndex

def deleteDeploys (deployStore : Finmap fun _ : List Byte => SignedDeployData)
    (ids : List (List Byte)) : Finmap fun _ : List Byte => SignedDeployData :=
  ids.foldl (fun store id => store.erase id) deployStore

/-- One above the greatest height, or 0. -/
def DagState.latestBlockNumber (index : DagState H) : Nat :=
  match index.heightMap.keys.max? with
  | some height => height + 1
  | none => 0

/-- The difference is taken in 64 bits. -/
def expired (latestBlockNumber : Nat) (deploy : SignedDeployData) : Bool :=
  deployLifespan < (Int64.ofNat latestBlockNumber - deploy.data.validAfterBlockNumber).toInt

def expiredIds (latestBlockNumber : Nat)
    (deployStore : Finmap fun _ : List Byte => SignedDeployData) : List (List Byte) :=
  (elements deployStore.keys).filter fun id =>
    (deployStore.lookup id).any (expired latestBlockNumber)

def expireDeploys (latestBlockNumber : Nat)
    (deployStore : Finmap fun _ : List Byte => SignedDeployData) :
    Finmap fun _ : List Byte => SignedDeployData :=
  deleteDeploys deployStore (expiredIds latestBlockNumber deployStore)

variable (fringeHash : Finset H → F)

variable (stores : DagStores H R F) (block : BlockMetadata H R) (message : BlockMessage H R E)

/-- Insert a block. The writes before a failure stay. -/
def DagStores.insert : Except (StoreError H) Unit × DagStores H R F :=
  let dag := stores.dag
  if block.blockHash ∈ dag.index.dagSet then (.ok (), stores)
  else if dag.msgMap.entries.any fun entry =>
      entry.2.sender = block.sender ∧ entry.2.senderSeq = block.seqNum then
    (.error .equivocation, stores)
  else
    match dag.addMetadata block with
    | (.error e, added) => (.error e, { stores with dag := added })
    | (.ok (), added) =>
      let indexed : DagStores H R F :=
        { stores with
          dag := added
          deployIndex := putDeploys stores.deployIndex message
          deployStore := deleteDeploys stores.deployStore (deployHashes message) }
      match block.justifications.mapM dag.msgMap.lookup with
      | none => (.error .justificationNotInMessageMap, indexed)
      | some justifications =>
        if ∃ hash ∈ block.fringe, hash ∉ dag.msgMap then
          (.error .fringeBlockNotInMessageMap, indexed)
        else
          let newlyFinalized := fringeDiff dag.msgMap justifications block.fringe
          let record := fringeRecord block message newlyFinalized
          let recorded : DagStores H R F :=
            { indexed with
              fringeData := stores.fringeData.insert (fringeHash block.fringe) record }
          if ∃ hash ∈ newlyFinalized, hash ∉ added.metadata then
            (.error .missingKey, recorded)
          else
            match messageFromBlockMetadata block dag.msgMap with
            | none => (.error .justificationNotInMessageMap, recorded)
            | some msg =>
              (.ok (),
                { recorded with
                  dag := { added with
                    representation := dag.representation.extend added.index
                      block.validationFailed msg record }
                  deployStore := expireDeploys added.index.latestBlockNumber
                    recorded.deployStore })

/-- On the block DAG the storage does what `BlockDag.insert` does. -/
theorem stores_insert_dag :
    ((stores.insert fringeHash block message).1, (stores.insert fringeHash block message).2.dag) =
      stores.dag.insert block message := by
  unfold DagStores.insert BlockDag.insert
  dsimp only
  split
  · rfl
  · split
    · rfl
    · rcases stores.dag.addMetadata block with ⟨_ | _, _⟩
      · rfl
      · rcases block.justifications.mapM stores.dag.msgMap.lookup with _ | _
        · rfl
        · dsimp only
          split
          · rfl
          · split
            · rfl
            · rcases messageFromBlockMetadata block stores.dag.msgMap with _ | msg <;> rfl

/-- The message of a block over the messages of its justifications. -/
def blockMessage (justifications : List (Message H Validator)) : Message H Validator where
  id := block.blockHash
  height := block.blockNum
  sender := block.sender
  senderSeq := block.seqNum
  bondsMap := stakes block.bondsMap
  parents := block.justifications
  fringe := block.fringe
  seen := insert block.blockHash (justifications.toFinset.biUnion (·.seen))

theorem message_from_metadata (msgMap : MsgMap H Validator) :
    messageFromBlockMetadata block msgMap =
      (block.justifications.mapM msgMap.lookup).map (blockMessage block) := by
  unfold messageFromBlockMetadata
  cases block.justifications.mapM msgMap.lookup <;> rfl

/-- The storage after the metadata and the deploys of a block are written. -/
def DagStores.indexed : DagStores H R F where
  dag :=
    { stores.dag with
      index := addBlockToDagState block stores.dag.index
      metadata := stores.dag.metadata.insert block.blockHash block }
  fringeData := stores.fringeData
  deployIndex := putDeploys stores.deployIndex message
  deployStore := deleteDeploys stores.deployStore (deployHashes message)

/-- What is written for the fringe of a block over the messages of its justifications. -/
def recordOver (msgMap : MsgMap H Validator) (justifications : List (Message H Validator))
    (block : BlockMetadata H R) (message : BlockMessage H R E) : FringeData H R :=
  fringeRecord block message (fringeDiff msgMap justifications block.fringe)

def DagStores.recorded (justifications : List (Message H Validator)) : DagStores H R F :=
  { stores.indexed block message with
    fringeData := stores.fringeData.insert (fringeHash block.fringe)
      (recordOver stores.dag.msgMap justifications block message) }

/-- The storage after the insertion of a block over the messages of its justifications. -/
def DagStores.inserted (justifications : List (Message H Validator)) : DagStores H R F :=
  { stores.recorded fringeHash block message justifications with
    dag :=
      { (stores.indexed block message).dag with
        representation := stores.dag.representation.extend
          (addBlockToDagState block stores.dag.index) block.validationFailed
          (blockMessage block justifications)
          (recordOver stores.dag.msgMap justifications block message) }
    deployStore := expireDeploys (addBlockToDagState block stores.dag.index).latestBlockNumber
      (deleteDeploys stores.deployStore (deployHashes message)) }

/-- A sender has a message with the sequence number of the block. -/
def Equivocates : Prop :=
  ∃ entry ∈ stores.dag.msgMap.entries,
    entry.2.sender = block.sender ∧ entry.2.senderSeq = block.seqNum

/-- How an insertion can end. -/
inductive Inserts (stores : DagStores H R F) (block : BlockMetadata H R)
    (message : BlockMessage H R E) : Except (StoreError H) Unit × DagStores H R F → Prop
  | known (known : block.blockHash ∈ stores.dag.index.dagSet) :
      Inserts stores block message (.ok (), stores)
  | equivocation (fresh : block.blockHash ∉ stores.dag.index.dagSet)
      (equivocates : Equivocates stores block) :
      Inserts stores block message (.error .equivocation, stores)
  | holes (fresh : block.blockHash ∉ stores.dag.index.dagSet)
      (single : ¬ Equivocates stores block)
      (broken : validateDagState (addBlockToDagState block stores.dag.index) = false) :
      Inserts stores block message (.error .heightsNotInSequence,
        { stores with
          dag := { stores.dag with index := addBlockToDagState block stores.dag.index } })
  | missing (error : StoreError H) (fresh : block.blockHash ∉ stores.dag.index.dagSet)
      (single : ¬ Equivocates stores block)
      (contiguous : validateDagState (addBlockToDagState block stores.dag.index) = true)
      (absent : block.justifications.mapM stores.dag.msgMap.lookup = none ∨
        ∃ hash ∈ block.fringe, hash ∉ stores.dag.msgMap) :
      Inserts stores block message (.error error, stores.indexed block message)
  | missingKey (justifications : List (Message H Validator))
      (fresh : block.blockHash ∉ stores.dag.index.dagSet)
      (single : ¬ Equivocates stores block)
      (contiguous : validateDagState (addBlockToDagState block stores.dag.index) = true)
      (found : block.justifications.mapM stores.dag.msgMap.lookup = some justifications)
      (held : ∀ hash ∈ block.fringe, hash ∈ stores.dag.msgMap)
      (absent : ∃ hash ∈ fringeDiff stores.dag.msgMap justifications block.fringe,
        hash ∉ stores.dag.metadata.insert block.blockHash block) :
      Inserts stores block message
        (.error .missingKey, stores.recorded fringeHash block message justifications)
  | inserted (justifications : List (Message H Validator))
      (fresh : block.blockHash ∉ stores.dag.index.dagSet)
      (single : ¬ Equivocates stores block)
      (contiguous : validateDagState (addBlockToDagState block stores.dag.index) = true)
      (found : block.justifications.mapM stores.dag.msgMap.lookup = some justifications)
      (held : ∀ hash ∈ block.fringe, hash ∈ stores.dag.msgMap)
      (marked : ∀ hash ∈ fringeDiff stores.dag.msgMap justifications block.fringe,
        hash ∈ stores.dag.metadata.insert block.blockHash block) :
      Inserts stores block message
        (.ok (), stores.inserted fringeHash block message justifications)

theorem insert_cases :
    Inserts fringeHash stores block message (stores.insert fringeHash block message) := by
  unfold DagStores.insert BlockDag.addMetadata
  dsimp only
  by_cases known : block.blockHash ∈ stores.dag.index.dagSet
  · rw [if_pos known]
    exact .known known
  rw [if_neg known]
  by_cases equivocates : Equivocates stores block
  · rw [if_pos (by simpa [Equivocates] using equivocates)]
    exact .equivocation known equivocates
  rw [if_neg (by simpa [Equivocates] using equivocates)]
  cases contiguous : validateDagState (addBlockToDagState block stores.dag.index) with
  | false => exact .holes known equivocates contiguous
  | true =>
    rw [if_pos rfl]
    dsimp only
    cases found : block.justifications.mapM stores.dag.msgMap.lookup with
    | none => exact .missing _ known equivocates contiguous (Or.inl found)
    | some justifications =>
      dsimp only
      split_ifs with outside absent
      · exact .missing _ known equivocates contiguous (Or.inr outside)
      · exact .missingKey justifications known equivocates contiguous found
          (by simpa using outside) absent
      · rw [message_from_metadata, found]
        exact .inserted justifications known equivocates contiguous found (by simpa using outside)
          fun hash mem => not_not.mp fun lost => absent ⟨hash, mem, lost⟩

end Insertion

section Creation

/-- `BlockMetadataStore::create`: the index is rebuilt block by block, in the order of the hashes. -/
def recreateInMemoryState (metadata : AList fun _ : H => BlockMetadata H R) :
    Except (StoreError H) (DagState H) :=
  let blocks := (elements metadata.keys.toFinset).filterMap metadata.lookup
  let state := blocks.foldl (fun state block => addBlockToDagState block state) DagState.empty
  if validateDagState state then .ok state else .error .heightsNotInSequence

def heightOrder (index : DagState H) : List H :=
  (elements index.heightMap.keys.toFinset).flatMap fun height =>
    elements ((index.heightMap.lookup height).getD ∅)

/-- What is rebuilt of the representation beside the index. -/
abbrev Rebuilt (H R : Type) := DagMessageState H Validator × (Finset H → Option (FringeData H R))

variable (fringeHash : Finset H → F)

def rebuildFringe (fringeData : Finmap fun _ : F => FringeData H R)
    (fringeStates : Finset H → Option (FringeData H R)) (fringe : Finset H) :
    Finset H → Option (FringeData H R) :=
  match fringeStates fringe with
  | some _ => fringeStates
  | none =>
    match fringeData.lookup (fringeHash fringe) with
    | some found => Function.update fringeStates fringe (some found)
    | none => fringeStates

def rebuildBlock (stores : DagStores H R F) (rebuilt : Rebuilt H R) (hash : H) :
    Except (StoreError H) (Rebuilt H R) :=
  if hash ∈ rebuilt.1.msgMap then .ok rebuilt
  else
    match stores.dag.metadata.lookup hash with
    | none => .error .missingKey
    | some block =>
      match messageFromBlockMetadata block rebuilt.1.msgMap with
      | none => .error .justificationNotInMessageMap
      | some msg =>
        .ok (rebuilt.1.insertMsg msg,
          rebuildFringe fringeHash stores.fringeData rebuilt.2 msg.fringe)

def DagStores.create (stores : DagStores H R F) : Except (StoreError H) (DagStores H R F) := do
  let index ← recreateInMemoryState stores.dag.metadata
  let (dagMessageState, fringeStates) ← (heightOrder index).foldlM
    (rebuildBlock fringeHash stores) (DagMessageState.empty, fun _ => none)
  return { stores with
    dag :=
      { metadata := stores.dag.metadata
        index := index
        representation := ⟨index, dagMessageState, fringeStates⟩ } }

end Creation

end RChain.Casper
