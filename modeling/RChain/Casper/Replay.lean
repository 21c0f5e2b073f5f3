import RChain.Lib.Steps
import RChain.Models.Block
import RChain.Rholang.NativeProcesses

/-!
# Replay of a block

Source: `casper/src/runtime_replay.rs`, `casper/src/system_deploy.rs`,
`replay_compute_state_with` of `casper/src/runtime_manager.rs`, and `replay_block` and
`handle_errors` of `casper/src/interpreter_util.rs`.

The tuple space and the interpreter are the fields of `Runtime`, named after the trait
they implement; an evaluation reports the calls of native processes it makes, in order,
and its own result. The native state is explicit. Soft checkpoints save and restore
both. A state hash is an opaque value, and `nativeAt` is the native state stored under
it: hashes do not collide, so a checkpoint is read back as it was written.

The trace is not in the source. It records the operations a replay performs, with the
native state around each of them, and the environments it evaluates programs in.
-/

namespace RChain.Casper

open BitCodec Native Steps

/-- The per-block data a program can read. -/
structure BlockData where
  blockNumber : Nat
  sender : PublicKey
  seqNum : Nat

def BlockData.fromBlock {H R E : Type} (block : BlockMessage H R E) : BlockData where
  blockNumber := block.blockNumber
  sender := block.sender.bytes
  seqNum := block.seqNum

inductive Process where
  | revVault
  | pos

/-- What the interpreter reports of a program that it ran. -/
structure Evaluation (R Space : Type) where
  calls : List (Process × List Value)
  space : Space
  errored : Bool
  cost : Int64
  mergeable : List R

abbrev NumberChannelsDiff (R : Type) := List (R × Int64)

structure Runtime (R E Space Rand : Type) where
  /-- Hashing and base-58 of a public key. -/
  revAddress : PublicKey → String
  /-- The hash of the state before genesis. -/
  emptyStateHash : R
  zeroHash : R
  splitByte : Rand → Byte → Rand
  reset : R → Except String Space
  rig : List E → Space → Space
  /-- The checkpoint, and the space after taking it. -/
  createSoftCheckpoint : Space → Space × Space
  revertToSoftCheckpoint : (checkpoint current : Space) → Space
  evaluateWithEnv : BlockData → String → NormalizerEnv → Rand → Int64 → Space → NativeState →
    Except String (Evaluation R Space)
  /-- The complaint about a recorded COMM that was not used. -/
  checkReplayData : Space → Option String
  getNumberChannel : R → Space → Except String (Option Int64)
  createCheckpoint : Space → NativeState → Except String R
  saveMergeableChannels : R → PublicKey → Nat → List (NumberChannelsDiff R) → R →
    Except String Unit
  nativeAt : R → NativeState
  read_back : ∀ {space native root}, createCheckpoint space native = .ok root →
    nativeAt root = native

inductive ReplayFailure where
  | internalError (cause : String)
  | replayStatusMismatch (initialFailed replayFailed : Bool)
  | unusedCommEvent (message : String)
  | replayCostMismatch (initialCost replayCost : Int64)
  | systemDeployErrorMismatch (playError replayError : String)

inductive NativeSystemDeployOp where
  | preCharge (deployer : PublicKey) (amount : Int64)
  | refund (amount : Int64)
  | closeBlock
  | slash (validator : Validator)

def NativeSystemDeployOp.run (revAddress : PublicKey → String) :
    NativeSystemDeployOp → NativeState → NativeResult × NativeState
  | .preCharge deployer amount => Native.preCharge revAddress deployer amount
  | .refund amount => Native.refund amount
  | .closeBlock => Native.closeBlock
  | .slash validator => Native.slash validator

def Process.run (revAddress : PublicKey → String) : Process → List Value → NativeState →
    ProcessResult
  | .revVault => Native.revVault revAddress
  | .pos => Native.pos revAddress

/-- An operation on the native state. -/
inductive Operation where
  | system (op : NativeSystemDeployOp)
  | call (process : Process) (args : List Value)

inductive Activity where
  | operation (operation : Operation) (before : NativeState) (failed : Bool) (after : NativeState)
  | evaluation (env : NormalizerEnv) (before : NativeState) (failed : Bool) (after : NativeState)

structure Machine (Space : Type) where
  space : Space
  native : NativeState
  trace : List Activity

abbrev ReplayM (Space Value : Type) := Step ReplayFailure (Machine Space) Value

def Machine.log {Space : Type} (machine : Machine Space) (activity : Activity) : Machine Space :=
  { machine with trace := activity :: machine.trace }

/-- The refund of the unused phlo, clamped to the range of `i64`. -/
def ProcessedDeploy.refundAmount {E : Type} (processed : ProcessedDeploy E) : Int64 :=
  let remaining := max (max (processed.deploy.data.phloLimit.toInt - processed.cost.toNat)
    (-2 ^ 63)) 0
  (i64TryFrom (remaining * processed.deploy.data.phloPrice.toInt)).getD Int64.maxValue

/-- Whether a native system deploy did what it was asked to. -/
def nativeSucceeded : NativeResult → Bool
  | .ok (.ok ()) => true
  | _ => false

def Machine.afterSystem {Space : Type} (machine : Machine Space)
    (revAddress : PublicKey → String) (op : NativeSystemDeployOp) : Machine Space :=
  let (result, native) := op.run revAddress machine.native
  ({ machine with native := native }).log
    (.operation (.system op) machine.native (!nativeSucceeded result) native)

def Machine.afterCall {Space : Type} (machine : Machine Space)
    (revAddress : PublicKey → String) (process : Process) (args : List Value) : Machine Space :=
  let (result, native) := process.run revAddress args machine.native
  ({ machine with native := native }).log
    (.operation (.call process args) machine.native (refused result) native)

/-- Perform the calls of a program until one of them raises an error, which ends the program. -/
def Machine.performCalls {Space : Type} (revAddress : PublicKey → String) :
    List (Process × List Value) → Machine Space → Bool × Machine Space
  | [], machine => (true, machine)
  | (process, args) :: calls, machine =>
    match (process.run revAddress args machine.native).1 with
    | .error _ => (false, machine.afterCall revAddress process args)
    | .ok _ => Machine.performCalls revAddress calls (machine.afterCall revAddress process args)

section Replay

variable {R E Space Rand : Type} (runtime : Runtime R E Space Rand)

def createSoftCheckpoint : ReplayM Space PUnit :=
  modify fun machine =>
    { machine with space := (runtime.createSoftCheckpoint machine.space).2 }

def evalNativeSystemDeploy (op : NativeSystemDeployOp) : ReplayM Space (Except String Unit) := do
  let machine ← get
  set (machine.afterSystem runtime.revAddress op)
  match (op.run runtime.revAddress machine.native).1 with
  | .error e => throw (.internalError e)
  | .ok answer => return answer

/-- Run an evaluated program, and keep or undo what it did. The value says whether it failed. -/
def runProgram (env : NormalizerEnv) (evaluation : Evaluation R Space) (fallback : Space)
    (machine : Machine Space) : Bool × Machine Space :=
  let (answered, called) := machine.performCalls runtime.revAddress evaluation.calls
  let failed := evaluation.errored || !answered
  let settled : Machine Space :=
    if failed then
      { called with
        space := runtime.revertToSoftCheckpoint fallback evaluation.space
        native := machine.native }
    else { called with space := evaluation.space }
  (failed, settled.log (.evaluation env machine.native failed settled.native))

def checkRecorded (processed : ProcessedDeploy E) (failed : Bool) (cost : Int64) :
    ReplayM Space PUnit :=
  if processed.isFailed ≠ failed then throw (.replayStatusMismatch processed.isFailed failed)
  else
    match i64TryFrom processed.cost.toNat with
    | none => throw (.replayCostMismatch Int64.maxValue cost)
    | some recordedCost =>
      if recordedCost ≠ cost then throw (.replayCostMismatch recordedCost cost)
      else return

/-- Replay the user deploy body and verify that it matches the play result. The value says
whether the deploy succeeded and which number channels it touched. -/
def replayDeployEval (blockData : BlockData) (processed : ProcessedDeploy E) (rand : Rand) :
    ReplayM Space (Bool × List R) := do
  let machine ← get
  let (fallback, space) := runtime.createSoftCheckpoint machine.space
  let env := NormalizerEnv.new processed.deploy
  match runtime.evaluateWithEnv blockData processed.deploy.data.term env rand
      processed.deploy.data.phloLimit space machine.native with
  | .error e => throw (.internalError e)
  | .ok evaluation => do
    let (failed, next) := runProgram runtime env evaluation fallback machine
    set next
    checkRecorded processed failed evaluation.cost
    return (!failed, if failed then [] else evaluation.mergeable)

/-- Evaluate a system deploy that the play run recorded as successful. -/
def replaySystemDeployInternal (op : NativeSystemDeployOp) : ReplayM Space PUnit := do
  match ← evalNativeSystemDeploy runtime op with
  | .ok () => return
  | .error _ => throw (.replayStatusMismatch false true)

def replayDeployEvaluator (blockData : BlockData) (processed : ProcessedDeploy E) (rand : Rand)
    (withCostAccounting : Bool) : ReplayM Space (Bool × List R) := do
  if !withCostAccounting then
    replayDeployEval runtime blockData processed (runtime.splitByte rand 1)
  else
    match processed.deploy.data.totalPhloCharge with
    | none => throw (.internalError "phlo charge overflow")
    | some amount => do
      let charged ←
        evalNativeSystemDeploy runtime (.preCharge processed.deploy.deployer amount)
      createSoftCheckpoint runtime
      match charged with
      | .error actual =>
        match processed.systemDeployError with
        | some expected =>
          if expected = actual then return (true, [])
          else throw (.systemDeployErrorMismatch expected actual)
        | none => throw (.replayStatusMismatch false true)
      | .ok () => do
        let result ← replayDeployEval runtime blockData processed (runtime.splitByte rand 1)
        if result.1 then
          createSoftCheckpoint runtime
        replaySystemDeployInternal runtime (.refund processed.refundAmount)
        createSoftCheckpoint runtime
        return result

/-- Unused COMM events are ignored for failed deploys. -/
def checkReplayDataWithFix (evalSuccessful : Bool) : ReplayM Space PUnit := do
  let machine ← get
  match runtime.checkReplayData machine.space with
  | none => return
  | some message => if evalSuccessful then throw (.unusedCommEvent message)

def getNumberChannelsData : List R → ReplayM Space (NumberChannelsDiff R)
  | [] => return []
  | channel :: channels => do
    let machine ← get
    match runtime.getNumberChannel channel machine.space with
    | .error e => throw (.internalError e)
    | .ok none => getNumberChannelsData channels
    | .ok (some number) => do
      let rest ← getNumberChannelsData channels
      return (channel, number) :: rest

def rigLog (log : List E) : ReplayM Space PUnit :=
  modify fun machine => { machine with space := runtime.rig log machine.space }

def replayDeployE (blockData : BlockData) (processed : ProcessedDeploy E) (rand : Rand)
    (withCostAccounting : Bool) : ReplayM Space (NumberChannelsDiff R) := do
  rigLog runtime processed.deployLog
  let (succeeded, mergeable) ←
    replayDeployEvaluator runtime blockData processed rand withCostAccounting
  checkReplayDataWithFix runtime succeeded
  getNumberChannelsData runtime mergeable

/-- The operation of a recorded system deploy that can be replayed. -/
def systemDeployOp : ProcessedSystemDeploy E → Option (List E × NativeSystemDeployOp)
  | .succeeded eventList (.slash validator) => some (eventList, .slash validator)
  | .succeeded eventList .closeBlock => some (eventList, .closeBlock)
  | .succeeded _ .empty => none
  | .failed _ _ => none

def replayBlockSystemDeploy (processed : ProcessedSystemDeploy E) :
    ReplayM Space (NumberChannelsDiff R) := do
  match systemDeployOp processed with
  | none => throw (.internalError "Expected system deploy")
  | some (eventList, op) => do
    rigLog runtime eventList
    replaySystemDeployInternal runtime op
    createSoftCheckpoint runtime
    checkReplayDataWithFix runtime true
    return []

/-- The generator of the deploy with this index; indexes are bytes. -/
def splitIndex (rand : Rand) (index : Nat) : ReplayM Space Rand :=
  if bound : index < 256 then return runtime.splitByte rand ⟨index, bound⟩
  else throw (.internalError "deploy count exceeds 255")

def replayTerms (blockData : BlockData) (rand : Rand) (withCostAccounting : Bool) :
    Nat → List (ProcessedDeploy E) → ReplayM Space (List (NumberChannelsDiff R))
  | _, [] => return []
  | index, term :: terms => do
    let split ← splitIndex runtime rand index
    let first ← replayDeployE runtime blockData term split withCostAccounting
    let rest ← replayTerms blockData rand withCostAccounting (index + 1) terms
    return first :: rest

def replaySystemDeploys (rand : Rand) :
    Nat → List (ProcessedSystemDeploy E) → ReplayM Space (List (NumberChannelsDiff R))
  | _, [] => return []
  | index, deploy :: deploys => do
    let _ ← splitIndex runtime rand index
    let first ← replayBlockSystemDeploy runtime deploy
    let rest ← replaySystemDeploys rand (index + 1) deploys
    return first :: rest

/-- Without cost accounting the native bonds and vaults of genesis are installed again. -/
def installGenesis (bonds : Bonds) (vaults : List (String × NonNegI64)) (native : NativeState) :
    NativeState :=
  vaults.foldl (fun next vault => next.setVaultBalance vault.1 vault.2) (native.setBonds bonds)

def replayFrom (blockData : BlockData) (rand : Rand) (terms : List (ProcessedDeploy E))
    (systemDeploys : List (ProcessedSystemDeploy E)) (withCostAccounting : Bool) (bonds : Bonds)
    (vaults : List (String × NonNegI64)) : ReplayM Space (R × List (NumberChannelsDiff R)) := do
  if !withCostAccounting then
    modify fun machine => { machine with native := installGenesis bonds vaults machine.native }
  let deployed ← replayTerms runtime blockData rand withCostAccounting 0 terms
  let closed ← replaySystemDeploys runtime rand terms.length systemDeploys
  let machine ← get
  match runtime.createCheckpoint machine.space machine.native with
  | .error e => throw (.internalError e)
  | .ok root => return (root, deployed ++ closed)

/-- The result of `replay_deploys` with the trace of the replay. -/
def replayDeploys (startHash : R) (blockData : BlockData) (rand : Rand)
    (terms : List (ProcessedDeploy E)) (systemDeploys : List (ProcessedSystemDeploy E))
    (withCostAccounting : Bool) (bonds : Bonds) (vaults : List (String × NonNegI64)) :
    Except ReplayFailure (R × List (NumberChannelsDiff R)) × List Activity :=
  match runtime.reset startHash with
  | .error e => (.error (.internalError e), [])
  | .ok space =>
    let ended := replayFrom runtime blockData rand terms systemDeploys withCostAccounting bonds
      vaults { space := space, native := runtime.nativeAt startHash, trace := [] }
    (ended.1, ended.2.trace)

variable {H : Type}

def replayComputeState (block : BlockMessage H R E) (rand : Rand) :
    Except ReplayFailure (R × List (NumberChannelsDiff R)) × List Activity :=
  replayDeploys runtime block.preStateHash (BlockData.fromBlock block) rand block.deploys
    block.systemDeploys (!block.justifications.isEmpty) block.bonds []

def replayBlock (block : BlockMessage H R E) (rand : Rand) : Except ReplayFailure R :=
  match (replayComputeState runtime block rand).1 with
  | .error failure => .error failure
  | .ok (stateHash, mergeable) =>
    match runtime.saveMergeableChannels stateHash block.sender.bytes block.seqNum mergeable
        block.preStateHash with
    | .error e => .error (.internalError e)
    | .ok () => .ok stateHash

/-- Every failure that is not internal means that the block is wrong. -/
def handleErrors [DecidableEq R] (tsHash : R) : Except ReplayFailure R → Except String (Option R)
  | .ok computed => .ok (if tsHash = computed then some computed else none)
  | .error (.internalError cause) =>
    .error s!"Internal errors encountered while processing deploy: {cause}"
  | .error _ => .ok none

end Replay

end RChain.Casper
