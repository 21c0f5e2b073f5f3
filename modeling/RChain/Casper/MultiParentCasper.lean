import RChain.Casper.Replay
import RChain.Casper.Validate

/-!
# Block validation and the growth of the DAG

Source: `casper/src/multi_parent_casper.rs`, `validate_block_checkpoint` of
`casper/src/interpreter_util.rs`, `casper/src/blocks/block_processor.rs` and the stream of
`casper/src/blocks/block_receiver.rs`.

The merge of several branches is a parameter: what is proved over this model holds for
every merge. A node takes two kinds of steps. It receives a block, which it stores under
its hash unless a block is stored there, and it processes a stored block whose
justifications are in the DAG. Which blocks arrive, and in which order they are
processed, is not restricted.
-/

namespace RChain.Casper

open BitCodec Crypto Dag Native

/-- The size of the deploy safety range. -/
def deployLifespan : Int := 50

structure Node (H R E Space Rand : Type) where
  runtime : Runtime R E Space Rand
  primitives : Primitives
  /-- The protobuf encoding of deploy data. -/
  encodeDeploy : DeployData → List Byte
  zeroBlockHash : H
  hashBytes : H → List Byte
  hashBlock : BlockMessage H R E → H
  /-- The generator seeded by a block. -/
  randomGenerator : BlockMessage H R E → Rand
  /-- `MergeScope::from_dag` and `MergeScope::merge`: the merge of the first fringe over the
  second, on the base of the given state unless the scope has a base block. -/
  merge : BlockDag H R → BlockStore H R E → (mergeFringe finalFringe : Finset H) →
    (baseState : R) → Except (StoreError H) (R × Finset (List Byte))
  shardId : String
  minPhloPrice : Int64

structure ParentsMergedState (H R : Type) where
  justifications : List (BlockMetadata H R)
  maxBlockNum : Int
  maxSeqNums : AList fun _ : Validator => Int
  fringe : Finset H
  fringeState : R
  fringeBondsMap : Bonds
  fringeRejectedDeploys : Finset (List Byte)
  preStateHash : R
  rejectedDeploys : Finset (List Byte)

inductive ValidateError (H R : Type) where
  | validationFailed (block : BlockMetadata H R) (status : BlockStatus)
  | internal (error : StoreError H)

variable {H R E Space Rand : Type} [LinearOrder H] [DecidableEq R]

def computeBonds (runtime : Runtime R E Space Rand) (hash : R) : Except (StoreError H) Bonds :=
  match (runtime.nativeAt hash).bonds with
  | some bonds => .ok bonds
  | none => .error .bondsLeafNotFound

def getBlockUnsafe (blockStore : BlockStore H R E) (hash : H) :
    Except (StoreError H) (BlockMessage H R E) :=
  match blockStore hash with
  | some block => .ok block
  | none => .error (.missingBlock hash)

section PreState

variable (node : Node H R E Space Rand) (dag : BlockDag H R) (blockStore : BlockStore H R E)

def lookupMessages (hashes : List H) : Except (StoreError H) (List (Message H Validator)) :=
  hashes.mapM fun h =>
    match dag.msgMap.lookup h with
    | some msg => .ok msg
    | none => .error (.parentNotInMessageMap h)

/-- The bonds of the finalized fringe: those the justifications agree on while the fringe is
empty, then those of the proof-of-stake state. -/
def fringeBonds (justifications : List (BlockMetadata H R))
    (prevFringe : Finset (Message H Validator)) (prevFringeState : R) :
    Except (StoreError H) Bonds :=
  if prevFringe = ∅ then
    match justifications with
    | [] => .ok ∅
    | first :: others =>
      if others.all fun j => j.bondsMap = first.bondsMap then .ok first.bondsMap
      else .error .bondsMapsDisagree
  else computeBonds node.runtime prevFringeState

/-- The fringe after finalization, with its state and its rejected deploys. -/
def finalizedFringe (parents : List (Message H Validator)) (prevFringeHashes : Finset H)
    (record : FringeData H R) (bondsMap : Bonds) :
    Except (StoreError H) (Finset H × R × Finset (List Byte)) :=
  match (calculateFinalization dag.msgMap parents (stakes bondsMap)).2 with
  | some newFringe => do
    let fringe := newFringe.image (·.id)
    let merged ← node.merge dag blockStore fringe prevFringeHashes record.stateHash
    return (fringe, merged)
  | none => .ok (prevFringeHashes, record.stateHash, record.rejectedDeploys)

/-- One parent hands on its post-state; several are merged above the fringe. -/
def conflictScopeState (parentHashes : List H) (fringe : Finset H) (fringeState : R) :
    Except (StoreError H) (R × Finset (List Byte)) :=
  match parentHashes with
  | [parent] => do
    let block ← getBlockUnsafe blockStore parent
    return (block.postStateHash, ∅)
  | _ => node.merge dag blockStore parentHashes.toFinset fringe fringeState

def getPreStateForParents (parentHashes : List H) :
    Except (StoreError H) (ParentsMergedState H R) := do
  if parentHashes = [] then .error .parentsEmpty
  else
    let justifications ← lookupJustifications dag parentHashes
    let parents ← lookupMessages dag parentHashes
    let prevFringe := latestFringe dag.msgMap parents
    let prevFringeHashes := prevFringe.image (·.id)
    match dag.representation.fringeStates prevFringeHashes with
    | none => .error (.fringeStateNotAvailable prevFringeHashes)
    | some record => do
      let bondsMap ← fringeBonds node justifications prevFringe record.stateHash
      let (fringe, fringeState, fringeRejectedDeploys) ←
        finalizedFringe node dag blockStore parents prevFringeHashes record bondsMap
      let (preStateHash, rejectedDeploys) ←
        conflictScopeState node dag blockStore parentHashes fringe fringeState
      return {
        justifications := justifications
        maxBlockNum := maxBlockNumberMetadata justifications
        maxSeqNums := justifications.foldl
          (fun acc m => acc.insert m.sender (m.seqNum : Int)) ∅
        fringe := fringe
        fringeState := fringeState
        fringeBondsMap := bondsMap
        fringeRejectedDeploys := fringeRejectedDeploys
        preStateHash := preStateHash
        rejectedDeploys := rejectedDeploys }

end PreState

section Validation

variable (node : Node H R E Space Rand) (dag : BlockDag H R) (blockStore : BlockStore H R E)
  (block : BlockMessage H R E)

/-- The hashes of the justifications that are known and did not fail. -/
def validParents : List H :=
  hashSet (((block.justifications.filterMap dag.lookup).filter
    fun m => !m.validationFailed).map (·.blockHash))

/-- The pre-state of a block without parents, as for genesis. -/
def genesisPreState : ParentsMergedState H R where
  justifications := []
  maxBlockNum := 0
  maxSeqNums := (∅ : AList fun _ : Validator => Int).insert block.sender 0
  fringe := ∅
  fringeState := node.runtime.emptyStateHash
  fringeBondsMap := block.bonds
  fringeRejectedDeploys := ∅
  preStateHash := node.runtime.emptyStateHash
  rejectedDeploys := ∅

def blockPreState : Except (StoreError H) (ParentsMergedState H R) :=
  match validParents dag block with
  | [] => .ok (genesisPreState node block)
  | parents => getPreStateForParents node dag blockStore parents

/-- Compare the pre-state, the rejected deploys and the replayed post-state. -/
def checkReplay (preState : ParentsMergedState H R) (block : BlockMessage H R E) :
    Except (StoreError H) (Except BlockStatus Bool) :=
  if block.preStateHash ≠ preState.preStateHash then .ok (.ok false)
  else if preState.fringeRejectedDeploys ≠ block.rejectedDeploys then
    .ok (.error .invalidRejectedDeploy)
  else
    match handleErrors block.postStateHash
        (replayBlock node.runtime block (node.randomGenerator block)) with
    | .error e => .error (.runtime e)
    | .ok handled => .ok (.ok handled.isSome)

def checkpointFailed : Except BlockStatus Bool → Bool
  | .ok valid => !valid
  | .error _ => true

def validateBlockCheckpoint :
    Except (StoreError H) (BlockMetadata H R × Except BlockStatus Bool) := do
  let preState ← blockPreState node dag blockStore block
  let result ← checkReplay node preState block
  return ({ BlockMetadata.fromBlock node.runtime.zeroHash block with
      validated := true
      validationFailed := checkpointFailed result
      fringe := preState.fringe
      fringeStateHash := preState.fringeState }, result)

def bondsCache : Except (StoreError H) ValidBlockProcessing := do
  let computed ← computeBonds node.runtime block.postStateHash
  return verdict (block.bonds = computed) .invalidBondsCache

def markFailed (m : BlockMetadata H R) : BlockMetadata H R :=
  { m with validated := true, validationFailed := true }

/-- A failed check of a block whose metadata is `m`, or the rest of the validation. -/
def require (m : BlockMetadata H R) (check : Except (StoreError H) ValidBlockProcessing)
    (rest : Except (ValidateError H R) (BlockMetadata H R)) :
    Except (ValidateError H R) (BlockMetadata H R) :=
  match check with
  | .ok (.ok ()) => rest
  | .ok (.error status) => .error (.validationFailed (markFailed m) status)
  | .error e => .error (.internal e)

def validate : Except (ValidateError H R) (BlockMetadata H R) :=
  require (BlockMetadata.fromBlock node.runtime.zeroHash block)
    (blockSummary dag blockStore block node.shardId deployLifespan node.minPhloPrice)
    (match validateBlockCheckpoint node dag blockStore block with
      | .error e => .error (.internal e)
      | .ok (m, .error status) => .error (.validationFailed (markFailed m) status)
      | .ok (m, .ok false) => .error (.validationFailed (markFailed m) .invalidStateHash)
      | .ok (m, .ok true) =>
        require m (bondsCache node block)
          (require m (.ok (neglectedInvalidBlock dag block)) (.ok m)))

end Validation

section Growth

variable (node : Node H R E Space Rand)

structure NodeState (H R E : Type) where
  dag : BlockDag H R
  blockStore : BlockStore H R E

/-- The block is older than the lowest height of the DAG. -/
def checkIfKnown (dag : BlockDag H R) (block : BlockMessage H R E) : Bool :=
  match dag.representation.index.heightMap.keys.min? with
  | some height => block.blockNumber < height
  | none => false

/-- Validate a block and insert it, as valid or as failed. -/
def validateAndAddToDag (state : NodeState H R E) (block : BlockMessage H R E) :
    BlockDag H R :=
  match validate node state.dag state.blockStore block with
  | .ok m => (state.dag.insert m block).2
  | .error (.validationFailed m _) => (state.dag.insert m block).2
  | .error (.internal _) => state.dag

inductive Action (H R E : Type) where
  | receive (block : BlockMessage H R E)
  | process (hash : H)

def isOfInterest (block : BlockMessage H R E) : Bool :=
  checkIfOfInterest node.primitives node.zeroBlockHash node.hashBytes node.hashBlock node.shardId
    block

def NodeState.step (state : NodeState H R E) : Action H R E → NodeState H R E
  | .receive block =>
    if isOfInterest node block && !checkIfKnown state.dag block then
      match state.blockStore block.blockHash with
      | some _ => state
      | none =>
        { state with
          blockStore := Function.update state.blockStore block.blockHash (some block) }
    else state
  | .process hash =>
    match state.blockStore hash with
    | none => state
    | some block =>
      if ∀ j ∈ block.justifications, j ∈ state.dag.representation.index.dagSet then
        { state with dag := validateAndAddToDag node state block }
      else state

def NodeState.genesis (genesis : BlockMessage H R E) : NodeState H R E where
  dag := (BlockDag.empty.insert (genesisMetadata node.runtime.zeroHash genesis)
    genesis).2
  blockStore := Function.update (fun _ => none) genesis.blockHash (some genesis)

end Growth

section Sample

/-- Programs make no calls, cost nothing and do not fail, as `Nil` does; a state hash is the native
state itself. -/
def sampleRuntime : Runtime NativeState Unit Unit Unit where
  revAddress := fun _ => "vault"
  emptyStateHash := NativeState.empty
  zeroHash := NativeState.empty
  splitByte := fun rand _ => rand
  reset := fun _ => .ok ()
  rig := fun _ space => space
  createSoftCheckpoint := fun space => (space, space)
  revertToSoftCheckpoint := fun checkpoint _ => checkpoint
  evaluateWithEnv := fun _ _ _ _ _ _ _ => .ok ⟨[], (), false, 0, []⟩
  checkReplayData := fun _ => none
  getNumberChannel := fun _ _ => .ok none
  createCheckpoint := fun _ native => .ok native
  saveMergeableChannels := fun _ _ _ _ _ => .ok ()
  nativeAt := id
  read_back := fun created => (Except.ok.inj created).symm

/-- A node on a shard of its own; every signature over a block hash verifies, and none over
a deploy. -/
def sampleNode : Node Nat NativeState Unit Unit Unit where
  runtime := sampleRuntime
  primitives :=
    { blake2b256 := fun bytes => bytes
      keccak256 := fun bytes => bytes
      verify := fun _ data _ _ => data.length = 1 }
  encodeDeploy := fun _ => []
  zeroBlockHash := 1000
  hashBytes := fun _ => [0]
  hashBlock := fun block => block.blockHash
  randomGenerator := fun _ => ()
  merge := fun _ _ _ _ baseState => .ok (baseState, ∅)
  shardId := "root"
  minPhloPrice := 1

def sampleKey : List Byte := List.replicate 65 0

def sampleValidator : Validator := ⟨sampleKey, rfl⟩

def sampleStake : NonNegI64 := ⟨10, by decide⟩

def sampleBonds : Bonds := Finmap.singleton sampleValidator sampleStake

/-- One bonded validator and one vault. -/
def sampleState (balance : NonNegI64) : NativeState where
  bonds := some sampleBonds
  vaults := Finmap.singleton "vault" balance

abbrev SampleBlock := BlockMessage Nat NativeState Unit

/-- The block with this number, without deploys, over the genesis state. -/
def sampleBlock (number : Nat) (justifications : List Nat) : SampleBlock where
  shardId := "root"
  blockHash := number
  blockNumber := number
  sender := sampleValidator
  seqNum := number
  preStateHash := sampleState ⟨100, by decide⟩
  postStateHash := sampleState ⟨100, by decide⟩
  justifications := justifications
  bonds := sampleBonds
  rejectedDeploys := ∅
  rejectedBlocks := ∅
  rejectedSenders := ∅
  deploys := []
  systemDeploys := []
  sigAlgorithm := "secp256k1"
  sig := [0]

def sampleGenesis : SampleBlock := sampleBlock 0 []

def sampleDeploy (phloLimit phloPrice : Int64) (isFailed : Bool) : ProcessedDeploy Unit where
  deploy :=
    { data := ⟨"Nil", 0, phloPrice, phloLimit, 0, "root"⟩
      deployer := sampleKey
      sig := [1]
      sigAlgorithm := "secp256k1" }
  cost := 0
  deployLog := []
  isFailed := isFailed
  systemDeployError := none

end Sample

end RChain.Casper
