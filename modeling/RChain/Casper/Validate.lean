import RChain.Casper.DagStorage

/-!
# Block validation predicates

Source: `casper/src/validate.rs`, `casper/src/proto_util.rs` and `check_if_of_interest` of
`casper/src/blocks/block_receiver.rs`.

The outer result is a failed lookup, the inner one the verdict on the block. The content
hash of a block is the parameter `hashBlock`.
-/

namespace RChain.Casper

open BitCodec Crypto Dag Native

variable {H R E : Type} [LinearOrder H]

abbrev ValidBlockProcessing := Except BlockStatus Unit

abbrev BlockStore (H R E : Type) := H → Option (BlockMessage H R E)

def verdict (valid : Bool) (status : BlockStatus) : ValidBlockProcessing :=
  if valid then .ok () else .error status

section Fields

/-- The identifying fields are not empty, and the shard id is ASCII. -/
def formatOfFields (zeroBlockHash : H) (b : BlockMessage H R E) : Bool :=
  b.blockHash ≠ zeroBlockHash && !b.sig.isEmpty && b.sigAlgorithm ≠ "" && b.shardId ≠ "" &&
    b.shardId.toList.all fun c => c.toNat < 128

def blockHash (hashBlock : BlockMessage H R E → H) (b : BlockMessage H R E) : Bool :=
  b.blockHash = hashBlock b

def blockSignature (primitives : Primitives) (hashBytes : H → List Byte)
    (b : BlockMessage H R E) : Bool :=
  match fromAlgorithm b.sigAlgorithm with
  | some alg => primitives.verify alg (hashBytes b.blockHash) b.sig b.sender.bytes
  | none => false

variable (b : BlockMessage H R E)

def futureTransaction : ValidBlockProcessing :=
  verdict (!b.deploys.any fun d => (b.blockNumber : Int) < d.deploy.data.validAfterBlockNumber.toInt)
    .containsFutureDeploy

def transactionExpiration (expirationThreshold : Int) : ValidBlockProcessing :=
  let earliest := (b.blockNumber : Int) - expirationThreshold
  verdict (!b.deploys.any fun d => d.deploy.data.validAfterBlockNumber.toInt ≤ earliest)
    .containsExpiredDeploy

def deploysShardIdentifier (shardId : String) : ValidBlockProcessing :=
  verdict (b.deploys.all fun d => d.deploy.data.shardId = shardId) .invalidDeployShardId

def phloPrice (minPhloPrice : Int64) : ValidBlockProcessing :=
  verdict (b.deploys.all fun d => minPhloPrice ≤ d.deploy.data.phloPrice) .containsLowCostDeploy

end Fields

section Justifications

variable (dag : BlockDag H R)

/-- Look up every hash, in order, or fail with the first that is missing. -/
def lookupJustifications (hashes : List H) : Except (StoreError H) (List (BlockMetadata H R)) :=
  hashes.mapM fun j =>
    match dag.lookup j with
    | some m => .ok m
    | none => .error (.missingJustification j)

/-- The greatest block number, or `-1`. -/
def maxBlockNumberMetadata (blocks : List (BlockMetadata H R)) : Int :=
  blocks.foldl (fun acc b => max acc (b.blockNum : Int)) (-1)

def blockNumber (b : BlockMessage H R E) : Except (StoreError H) ValidBlockProcessing := do
  let metas ← lookupJustifications dag b.justifications
  let maxBlockNumber := maxBlockNumberMetadata (metas.filter fun m => !m.validationFailed)
  return verdict (maxBlockNumber + 1 = b.blockNumber) .invalidBlockNumber

def sequenceNumber (b : BlockMessage H R E) : Except (StoreError H) ValidBlockProcessing := do
  let metas ← lookupJustifications dag b.justifications
  let creatorLatestSeq : Int := (metas.filter fun m => m.sender = b.sender).foldl
    (fun acc m => max acc (m.seqNum : Int)) (-1)
  return verdict (creatorLatestSeq + 1 = b.seqNum) .invalidSequenceNumber

/-- `None` when a justification is not known or the sender has none of its own. -/
def checkJustificationRegression (b : BlockMessage H R E) : Option Bool := do
  let justifications ← b.justifications.mapM dag.msgMap.lookup
  let prevMsg ← justifications.find? fun m => m.sender = b.sender
  return justifications.all fun just =>
    match (prevMsg.parents.filterMap dag.msgMap.lookup).find? fun m => m.sender = just.sender with
    | some justPrevMsg => decide (justPrevMsg.seen ⊆ just.seen)
    | none => true

def justificationRegressions (b : BlockMessage H R E) : ValidBlockProcessing :=
  verdict ((checkJustificationRegression dag b).getD true) .justificationRegression

def neglectedInvalidBlock (b : BlockMessage H R E) : ValidBlockProcessing :=
  let justifications := b.justifications.filterMap dag.lookup
  verdict (!(justifications.filter (·.validationFailed)).any fun m =>
    match b.bonds.lookup m.sender with
    | some stake => decide (0 < stake.amount)
    | none => false) .neglectedInvalidBlock

end Justifications

section RepeatDeploy

variable (dag : BlockDag H R) (blockStore : BlockStore H R E)

def deployKey (d : ProcessedDeploy E) : List Byte :=
  normalizeSignatureLowS d.deploy.sigAlgorithm d.deploy.sig

def getParentsMetadata (justifications : List H) :
    Except (StoreError H) (List (BlockMetadata H R)) := do
  let metas ← lookupJustifications dag justifications
  return metas.filter fun m => !m.validationFailed

def getParentMetadatasAboveBlockNumber (justifications : List H) (number : Int) :
    Except (StoreError H) (List (BlockMetadata H R)) := do
  let parents ← getParentsMetadata dag justifications
  return parents.filter fun p => number ≤ (p.blockNum : Int)

/-- The breadth-first search of `repeat_deploy`: whether a block in reach of the queue holds
one of the keys. `none` stands for a search that has not ended within the fuel. -/
def searchRepeats (keys : List (List Byte)) (earliest : Int) :
    Nat → List (BlockMetadata H R) → Finset H → Option (Except (StoreError H) Bool)
  | 0, _, _ => none
  | _ + 1, [], _ => some (.ok false)
  | fuel + 1, curr :: queue, visited =>
    if curr.blockHash ∈ visited then searchRepeats keys earliest fuel queue visited
    else
      let seen := insert curr.blockHash visited
      match blockStore curr.blockHash with
      | none => some (.error (.missingBlock curr.blockHash))
      | some b =>
        if b.deploys.any fun d => deployKey d ∈ keys then some (.ok true)
        else
          match getParentMetadatasAboveBlockNumber dag curr.justifications earliest with
          | .error e => some (.error e)
          | .ok parents =>
            searchRepeats keys earliest fuel
              (queue ++ parents.filter fun p => p.blockHash ∉ seen) seen

/-- Every iteration takes one entry off the queue, and a block puts its justifications on it
at most once. -/
def searchFuel (initParents : List (BlockMetadata H R)) : Nat :=
  initParents.length + (dag.metadata.entries.map fun entry => entry.2.justifications.length).sum + 1

def repeatDeploy (block : BlockMessage H R E) (expirationThreshold : Int) :
    Except (StoreError H) ValidBlockProcessing := do
  let initParents ← getParentsMetadata dag (hashSet block.justifications)
  let earliest := maxBlockNumberMetadata initParents + 1 - expirationThreshold
  match searchRepeats dag blockStore (block.deploys.map deployKey) earliest
      (searchFuel dag initParents) initParents ∅ with
  | some (.ok found) => return verdict (!found) .invalidRepeatDeploy
  | some (.error e) => .error e
  | none => return .ok ()

end RepeatDeploy

/-- Run the checks in order up to the first that does not pass. -/
def firstFailure : List (Except (StoreError H) ValidBlockProcessing) →
    Except (StoreError H) ValidBlockProcessing
  | [] => .ok (.ok ())
  | .ok (.ok ()) :: checks => firstFailure checks
  | failure :: _ => failure

def blockSummary (dag : BlockDag H R) (blockStore : BlockStore H R E) (block : BlockMessage H R E)
    (shardId : String) (expirationThreshold : Int) (minPhloPrice : Int64) :
    Except (StoreError H) ValidBlockProcessing :=
  firstFailure
    [.ok (justificationRegressions dag block),
      sequenceNumber dag block,
      blockNumber dag block,
      .ok (deploysShardIdentifier block shardId),
      .ok (futureTransaction block),
      .ok (transactionExpiration block expirationThreshold),
      .ok (phloPrice block minPhloPrice),
      repeatDeploy dag blockStore block expirationThreshold]

/-- What the receiver of blocks checks before a block is stored. -/
def checkIfOfInterest (primitives : Primitives) (zeroBlockHash : H) (hashBytes : H → List Byte)
    (hashBlock : BlockMessage H R E → H) (confShardName : String) (block : BlockMessage H R E) :
    Bool :=
  confShardName = block.shardId && formatOfFields zeroBlockHash block &&
    blockHash hashBlock block && blockSignature primitives hashBytes block

end RChain.Casper
