import RChain.Dag.MessageState
import RChain.Models.Block
import RChain.Rholang.NativeProcesses

/-!
# Block DAG storage

Source: `casper/src/dag.rs`, `casper/src/block_metadata_store.rs`,
`block-storage/src/dag/metadata_store.rs`, `block-storage/src/dag/representation.rs` and
`insert_genesis` of `block-storage/src/syntax.rs`.

The storage keeps an index beside the persisted metadata and a second copy of it in the
representation. Store failures are not modelled. The deploy pool, the deploy index, the
persisted fringe data and the cache of block indexes are not read by validation and are
left out; so is the member fringe of a metadata record, for which `insert` writes old
records again.
-/

namespace RChain.Casper

open BitCodec Dag Native

/-- The errors of lookups, by the message of the source. -/
inductive StoreError (H : Type) where
  /-- "missing justification" -/
  | missingJustification (hash : H)
  /-- "missing block" -/
  | missingBlock (hash : H)
  /-- "BlockMetadataStore is missing key" -/
  | missingKey
  /-- "equivocation detected: sender produced two blocks with the same sequence number" -/
  | equivocation
  /-- "DAG store height map has numbers not in sequence." -/
  | heightsNotInSequence
  /-- "justification not present in message map" -/
  | justificationNotInMessageMap
  /-- "fringe block not present in message map" -/
  | fringeBlockNotInMessageMap
  /-- "Parents must not be empty to calculate pre-state. ..." -/
  | parentsEmpty
  /-- "parent not in message map" -/
  | parentNotInMessageMap (hash : H)
  /-- "Fringe state not available in state cache, fringe: ..." -/
  | fringeStateNotAvailable (fringe : Finset H)
  /-- "justifications disagree on the bonds map" -/
  | bondsMapsDisagree
  /-- "bonds leaf not found in state" -/
  | bondsLeafNotFound
  /-- An error of the runtime, with its message. -/
  | runtime (message : String)
deriving DecidableEq

/-- What is kept for a fringe, apart from the fringe and its hash. -/
structure FringeData (H R : Type) where
  fringeDiff : Finset H
  stateHash : R
  rejectedDeploys : Finset (List Byte)
  rejectedBlocks : Finset H
  rejectedSenders : Finset (List Byte)

/-- The in-memory index of the metadata. -/
structure DagState (H : Type) where
  dagSet : Finset H
  childMap : AList fun _ : H => Finset H
  heightMap : AList fun _ : Nat => Finset H

def DagState.empty {H : Type} : DagState H := ⟨∅, ∅, ∅⟩

structure DagRepresentation (H R : Type) where
  index : DagState H
  dagMessageState : DagMessageState H Validator
  fringeStates : Finset H → Option (FringeData H R)

structure BlockDag (H R : Type) where
  metadata : AList fun _ : H => BlockMetadata H R
  index : DagState H
  representation : DagRepresentation H R

variable {H R E : Type} [LinearOrder H]

def BlockDag.empty : BlockDag H R where
  metadata := ∅
  index := DagState.empty
  representation :=
    { index := DagState.empty, dagMessageState := DagMessageState.empty,
      fringeStates := fun _ => none }

def BlockDag.lookup (dag : BlockDag H R) (hash : H) : Option (BlockMetadata H R) :=
  dag.metadata.lookup hash

def BlockDag.msgMap (dag : BlockDag H R) : MsgMap H Validator :=
  dag.representation.dagMessageState.msgMap

def stakes (bonds : Bonds) : BondsMap Validator :=
  (orderedBonds bonds).foldl (fun acc entry => acc.insert entry.1 entry.2.amount) ∅

/-- Add a child to a parent's entry; the entry is made if it is missing. -/
def addChild (childMap : AList fun _ : H => Finset H) (parent : H) (children : Finset H) :
    AList fun _ : H => Finset H :=
  childMap.insert parent ((childMap.lookup parent).getD ∅ ∪ children)

def addBlockToDagState (block : BlockMetadata H R) (state : DagState H) : DagState H where
  dagSet := insert block.blockHash state.dagSet
  childMap := addChild
    (block.justifications.foldl (fun acc parent => addChild acc parent {block.blockHash})
      state.childMap) block.blockHash ∅
  heightMap :=
    if block.validationFailed then state.heightMap
    else state.heightMap.insert block.blockNum
      (insert block.blockHash ((state.heightMap.lookup block.blockNum).getD ∅))

/-- The heights form a range without holes. -/
def validateDagState (state : DagState H) : Bool :=
  let heights := state.heightMap.keys
  match heights.min?, heights.max? with
  | some low, some high => high + 1 - low = heights.length
  | _, _ => heights.length = 0

/-- `BlockMetadataStore::add`: the index is written before it is checked. -/
def BlockDag.addMetadata (dag : BlockDag H R) (block : BlockMetadata H R) :
    Except (StoreError H) Unit × BlockDag H R :=
  let index := addBlockToDagState block dag.index
  if validateDagState index then
    (.ok (), { dag with index := index, metadata := dag.metadata.insert block.blockHash block })
  else (.error .heightsNotInSequence, { dag with index := index })

/-- `None` when a justification is absent from the message map. -/
def messageFromBlockMetadata (block : BlockMetadata H R) (msgMap : MsgMap H Validator) :
    Option (Message H Validator) := do
  let justifications ← block.justifications.mapM msgMap.lookup
  return {
    id := block.blockHash
    height := block.blockNum
    sender := block.sender
    senderSeq := block.seqNum
    bondsMap := stakes block.bondsMap
    parents := block.justifications
    fringe := block.fringe
    seen := insert block.blockHash (justifications.toFinset.biUnion (·.seen)) }

/-- The newly finalized blocks of a fringe, from the messages of the justifications. -/
def fringeDiff (msgMap : MsgMap H Validator) (justifications : List (Message H Validator))
    (fringe : Finset H) : Finset H :=
  (messagesAt msgMap fringe).biUnion (·.seen) \
    (latestFringe msgMap justifications).biUnion (·.seen)

/-- The representation after a block whose message is `msg`. -/
def DagRepresentation.extend (representation : DagRepresentation H R) (index : DagState H)
    (failed : Bool) (msg : Message H Validator) (fringeData : FringeData H R) :
    DagRepresentation H R where
  index := index
  dagMessageState :=
    if failed then representation.dagMessageState.insertMsgWithoutLatest msg
    else representation.dagMessageState.insertMsg msg
  fringeStates := Function.update representation.fringeStates msg.fringe (some fringeData)

def fringeRecord (block : BlockMetadata H R) (message : BlockMessage H R E)
    (newlyFinalized : Finset H) : FringeData H R where
  fringeDiff := newlyFinalized
  stateHash := block.fringeStateHash
  rejectedDeploys := message.rejectedDeploys
  rejectedBlocks := message.rejectedBlocks
  rejectedSenders := message.rejectedSenders

def BlockDag.insert (dag : BlockDag H R) (block : BlockMetadata H R)
    (message : BlockMessage H R E) : Except (StoreError H) Unit × BlockDag H R :=
  if block.blockHash ∈ dag.index.dagSet then (.ok (), dag)
  else if dag.msgMap.entries.any fun entry =>
      entry.2.sender = block.sender ∧ entry.2.senderSeq = block.seqNum then
    (.error .equivocation, dag)
  else
    match dag.addMetadata block with
    | (.error e, added) => (.error e, added)
    | (.ok (), added) =>
      match block.justifications.mapM dag.msgMap.lookup with
      | none => (.error .justificationNotInMessageMap, added)
      | some justifications =>
        if ∃ hash ∈ block.fringe, hash ∉ dag.msgMap then
          (.error .fringeBlockNotInMessageMap, added)
        else if ∃ hash ∈ fringeDiff dag.msgMap justifications block.fringe,
            hash ∉ added.metadata then
          (.error .missingKey, added)
        else
          match messageFromBlockMetadata block dag.msgMap with
          | none => (.error .justificationNotInMessageMap, added)
          | some msg =>
            (.ok (),
              { added with
                representation := dag.representation.extend added.index
                  block.validationFailed msg
                  (fringeRecord block message
                    (fringeDiff dag.msgMap justifications block.fringe)) })

/-- `insert_genesis`: genesis is valid, with an empty fringe and its own pre-state. -/
def genesisMetadata (zeroHash : R) (genesis : BlockMessage H R E) : BlockMetadata H R :=
  { BlockMetadata.fromBlock zeroHash genesis with
    validated := true, validationFailed := false, fringe := ∅,
    fringeStateHash := genesis.preStateHash }

end RChain.Casper
