import RChain.Crypto.Signatures
import RChain.Rholang.NativeState
import Mathlib.Data.List.Sort

/-!
# Deploys, blocks and block metadata

Source: `models/src/casper/protocol/casper_message.rs`, `models/src/block_metadata.rs`,
`models/src/normalizer_env.rs` and `casper/src/block_status.rs`.

`H` is the type of block hashes, `R` that of state hashes and `E` that of the events of
a deploy log. Fields that neither validation nor the storage reads are left out: the version
and the member fringe of a metadata record. Heights and sequence numbers are natural
numbers; an ordered set that is iterated is the list of its elements.
-/

namespace RChain.Casper

open BitCodec Crypto Native

structure DeployData where
  term : String
  timestamp : Int64
  phloPrice : Int64
  phloLimit : Int64
  validAfterBlockNumber : Int64
  shardId : String
deriving DecidableEq

/-- The total phlo charge; `none` when it does not fit in 64 bits. -/
def DeployData.totalPhloCharge (data : DeployData) : Option Int64 :=
  i64TryFrom (data.phloLimit.toInt * data.phloPrice.toInt)

structure SignedDeployData where
  data : DeployData
  deployer : PublicKey
  sig : List Byte
  sigAlgorithm : String
deriving DecidableEq

/-- `verify_signature`, with the protobuf encoding of the deploy data as a parameter. -/
def SignedDeployData.verifySignature (primitives : Primitives) (encode : DeployData → List Byte)
    (deploy : SignedDeployData) : Bool :=
  match fromAlgorithm deploy.sigAlgorithm with
  | none => false
  | some alg =>
    primitives.verify alg (signatureHash primitives alg.name (encode deploy.data)) deploy.sig
      deploy.deployer

/-- The names the normalizer binds for a deploy: `rho:rchain:deployId` and
`rho:rchain:deployerId`. -/
structure NormalizerEnv where
  deployId : List Byte
  deployerId : PublicKey
deriving DecidableEq

def NormalizerEnv.new (deploy : SignedDeployData) : NormalizerEnv where
  deployId := deploy.sig
  deployerId := deploy.deployer

structure ProcessedDeploy (E : Type) where
  deploy : SignedDeployData
  cost : UInt64
  deployLog : List E
  isFailed : Bool
  systemDeployError : Option String

inductive SystemDeployData where
  | slash (validator : Validator)
  | closeBlock
  | empty
deriving DecidableEq

inductive ProcessedSystemDeploy (E : Type) where
  | succeeded (eventList : List E) (systemDeploy : SystemDeployData)
  | failed (eventList : List E) (errorMsg : String)

structure BlockMessage (H R E : Type) where
  shardId : String
  blockHash : H
  blockNumber : Nat
  sender : Validator
  seqNum : Nat
  preStateHash : R
  postStateHash : R
  justifications : List H
  bonds : Bonds
  rejectedDeploys : Finset (List Byte)
  rejectedBlocks : Finset H
  rejectedSenders : Finset (List Byte)
  deploys : List (ProcessedDeploy E)
  systemDeploys : List (ProcessedSystemDeploy E)
  sigAlgorithm : String
  sig : List Byte

structure BlockMetadata (H R : Type) where
  blockHash : H
  blockNum : Nat
  sender : Validator
  seqNum : Nat
  justifications : List H
  bondsMap : Bonds
  validated : Bool
  validationFailed : Bool
  fringe : Finset H
  fringeStateHash : R

/-- `BTreeSet` of a list of hashes, as the list of its elements in order. -/
def hashSet {H : Type} [LinearOrder H] (hashes : List H) : List H :=
  hashes.dedup.insertionSort (· ≤ ·)

/-- The metadata of a block that has not been validated; its fringe state is the zero hash. -/
def BlockMetadata.fromBlock {H R E : Type} [LinearOrder H] (zeroHash : R)
    (block : BlockMessage H R E) : BlockMetadata H R where
  blockHash := block.blockHash
  blockNum := block.blockNumber
  sender := block.sender
  seqNum := block.seqNum
  justifications := hashSet block.justifications
  bondsMap := block.bonds
  validated := false
  validationFailed := false
  fringe := ∅
  fringeStateHash := zeroHash

inductive BlockStatus where
  | invalidBlockNumber
  | invalidRepeatDeploy
  | invalidSequenceNumber
  | invalidDeployShardId
  | justificationRegression
  | neglectedInvalidBlock
  | invalidStateHash
  | invalidBondsCache
  | invalidRejectedDeploy
  | containsExpiredDeploy
  | containsFutureDeploy
  | containsLowCostDeploy
deriving DecidableEq

theorem mem_hash_set {H : Type} [LinearOrder H] {hash : H} {hashes : List H} :
    hash ∈ hashSet hashes ↔ hash ∈ hashes := by
  rw [hashSet, (List.perm_insertionSort _ _).mem_iff, List.mem_dedup]

end RChain.Casper
