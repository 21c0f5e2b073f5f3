import RChain.Casper.Replay

/-!
# Play of a block

Source: `process_deploy`, `play_deploy_with_cost_accounting`,
`play_deploys_with_cost_accounting`, `play_system_deploy` and `compute_state` of
`casper/src/runtime_manager.rs`, and `evaluate_with_env` of `rholang/src/runtime.rs`.

The play runtime is the record `PlayRuntime`, as the replay runtime is `Runtime`. Parsing and
normalization can fail; the evaluation of a normalized term cannot, it reports its error. The
rendering of that error is `errorText`, which is also given the error of the native process that
ended the program, if one did. System deploys are native operations, as all that are constructed.
-/

namespace RChain.Casper

open BitCodec Native Steps

structure PlayRuntime (R E Space Term Rand : Type) where
  /-- Hashing and base-58 of a public key. -/
  revAddress : PublicKey → String
  splitByte : Rand → Byte → Rand
  reset : R → Except String Space
  /-- The checkpoint, and the space after taking it. -/
  createSoftCheckpoint : Space → Space × Space
  /-- The log of a soft checkpoint, as events of a block. -/
  checkpointLog : Space → List E
  revertToSoftCheckpoint : (checkpoint current : Space) → Space
  sourceToAdtWithEnv : String → NormalizerEnv → Except String Term
  inj : BlockData → Term → Rand → Int64 → Space → NativeState → Evaluation R Space
  errorText : Evaluation R Space → Option String → String
  createCheckpoint : Space → NativeState → Except String R
  saveMergeableChannels : R → PublicKey → Nat → List (NumberChannelsDiff R) → R →
    Except String Unit
  nativeAt : R → NativeState
  read_back : ∀ {space native root}, createCheckpoint space native = .ok root →
    nativeAt root = native

abbrev PlayM (Space Value : Type) := Step String (Machine Space) Value

structure UserDeployRuntimeResult (R E : Type) where
  deploy : ProcessedDeploy E
  mergeable : NumberChannelsDiff R

structure SystemDeployRuntimeResult (R E : Type) where
  deploy : ProcessedSystemDeploy E
  mergeable : NumberChannelsDiff R

section Records

variable {R E Space : Type}

def callError (revAddress : PublicKey → String) :
    List (Process × List Value) → NativeState → Option String
  | [], _ => none
  | (process, args) :: calls, native =>
    match process.run revAddress args native with
    | (.error e, _) => some e
    | (.ok _, next) => callError revAddress calls next

/-- What is recorded of a deploy whose charge is refused. -/
def refusedRecord (deploy : SignedDeployData) (log : List E) (error : String) :
    ProcessedDeploy E where
  deploy := deploy
  cost := 0
  deployLog := log
  isFailed := true
  systemDeployError := some error

def programRecord (errorText : Evaluation R Space → Option String → String)
    (deploy : SignedDeployData) (log : List E) (evaluation : Evaluation R Space)
    (calling : Option String) (failed : Bool) : ProcessedDeploy E where
  deploy := deploy
  cost := evaluation.cost.toUInt64
  deployLog := log
  isFailed := failed
  systemDeployError := if failed then some (errorText evaluation calling) else none

theorem cost_recorded {cost : Int64} {recorded : UInt64} (value : cost.toInt = recorded.toNat) :
    cost.toUInt64 = recorded := by
  apply UInt64.toNat_inj.mp
  have bits : cost.toInt = cost.toBitVec.toInt := rfl
  have bound := cost.toBitVec.isLt
  rw [bits, BitVec.toInt_eq_toNat_cond] at value
  change cost.toBitVec.toNat = recorded.toNat
  split_ifs at value <;> omega

end Records

namespace PlayRuntime

section Play

variable {R E Space Term Rand : Type} (runtime : PlayRuntime R E Space Term Rand)

def softCheckpointLog : PlayM Space (List E) := do
  let machine ← get
  let (checkpoint, space) := runtime.createSoftCheckpoint machine.space
  set { machine with space := space }
  return runtime.checkpointLog checkpoint

/-- No evaluation reports mergeable channels. -/
def evaluateWithEnv (blockData : BlockData) (term : String) (env : NormalizerEnv) (rand : Rand)
    (phloLimit : Int64) (space : Space) (native : NativeState) :
    Except String (Evaluation R Space) := do
  let par ← runtime.sourceToAdtWithEnv term env
  return { runtime.inj blockData par rand phloLimit space native with mergeable := [] }

def evalNativeSystemDeploy (op : NativeSystemDeployOp) : PlayM Space (Except String Unit) := do
  let machine ← get
  set (machine.afterSystem runtime.revAddress op)
  match (op.run runtime.revAddress machine.native).1 with
  | .error e => throw e
  | .ok answer => return answer

/-- Execute a single deploy; what it did is undone when it failed. -/
def processDeploy (blockData : BlockData) (deploy : SignedDeployData) (rand : Rand) :
    PlayM Space (ProcessedDeploy E) := do
  let machine ← get
  let (fallback, space) := runtime.createSoftCheckpoint machine.space
  let env := NormalizerEnv.new deploy
  match runtime.evaluateWithEnv blockData deploy.data.term env rand deploy.data.phloLimit space
      machine.native with
  | .error e => throw e
  | .ok evaluation => do
    let (answered, called) := machine.performCalls runtime.revAddress evaluation.calls
    let (checkpoint, after) := runtime.createSoftCheckpoint evaluation.space
    let failed := evaluation.errored || !answered
    if evaluation.cost < 0 then throw s!"deploy cost is negative: {evaluation.cost}"
    let settled : Machine Space :=
      if failed then
        { called with
          space := runtime.revertToSoftCheckpoint fallback after
          native := machine.native }
      else { called with space := after }
    set (settled.log (.evaluation env machine.native failed settled.native))
    return programRecord runtime.errorText deploy (runtime.checkpointLog checkpoint) evaluation
      (callError runtime.revAddress evaluation.calls machine.native) failed

def playDeployWithCostAccounting (blockData : BlockData) (deploy : SignedDeployData)
    (rand : Rand) : PlayM Space (UserDeployRuntimeResult R E) := do
  match deploy.data.totalPhloCharge with
  | none => throw "phlo charge overflow"
  | some amount => do
    let charged ← runtime.evalNativeSystemDeploy (.preCharge deploy.deployer amount)
    let chargeLog ← runtime.softCheckpointLog
    match charged with
    | .error e => return ⟨refusedRecord deploy chargeLog e, []⟩
    | .ok () => do
      let processed ← runtime.processDeploy blockData deploy (runtime.splitByte rand 1)
      let _ ← runtime.evalNativeSystemDeploy (.refund processed.refundAmount)
      return ⟨{ processed with deployLog := chargeLog ++ processed.deployLog }, []⟩

/-- The generator of the deploy with this index; indexes are bytes. -/
def splitIndex (rand : Rand) (index : Nat) : Except String Rand :=
  if bound : index < 256 then .ok (runtime.splitByte rand ⟨index, bound⟩)
  else .error "out of range integral type conversion attempted"

def playTerms (blockData : BlockData) (rand : Rand) :
    Nat → List SignedDeployData → PlayM Space (List (UserDeployRuntimeResult R E))
  | _, [] => return []
  | index, deploy :: deploys => do
    match runtime.splitIndex rand index with
    | .error e => throw e
    | .ok split => do
      let first ← runtime.playDeployWithCostAccounting blockData deploy split
      let rest ← playTerms blockData rand (index + 1) deploys
      return first :: rest

def startAt (space : Space) (hash : R) : Machine Space where
  space := space
  native := runtime.nativeAt hash
  trace := []

def playDeploysWithCostAccounting (startHash : R) (blockData : BlockData)
    (terms : List SignedDeployData) (rand : Rand) :
    Except String (R × List (UserDeployRuntimeResult R E)) := do
  let space ← runtime.reset startHash
  let (outcome, machine) := runtime.playTerms blockData rand 0 terms
    (runtime.startAt space startHash)
  let results ← outcome
  let root ← runtime.createCheckpoint machine.space machine.native
  return (root, results)

/-- The system deploy that is recorded for a native operation. -/
def systemDeployData : NativeSystemDeployOp → SystemDeployData
  | .closeBlock => .closeBlock
  | .slash validator => .slash validator
  | _ => .empty

def playSystemDeploy (stateHash : R) (op : NativeSystemDeployOp) :
    Except String (R × SystemDeployRuntimeResult R E) := do
  let space ← runtime.reset stateHash
  let (outcome, machine) := runtime.evalNativeSystemDeploy op (runtime.startAt space stateHash)
  let result ← outcome
  let (checkpoint, after) := runtime.createSoftCheckpoint machine.space
  let finalHash ← runtime.createCheckpoint after machine.native
  match result with
  | .ok () =>
    return (finalHash, ⟨.succeeded (runtime.checkpointLog checkpoint) (systemDeployData op), []⟩)
  | .error e => .error s!"System deploy failed: {e}"

def playSystemDeploys (stateHash : R) :
    List NativeSystemDeployOp → Except String (R × List (SystemDeployRuntimeResult R E))
  | [] => return (stateHash, [])
  | op :: ops => do
    let (next, first) ← runtime.playSystemDeploy stateHash op
    let (final, rest) ← playSystemDeploys next ops
    return (final, first :: rest)

structure ComputedState (R E : Type) where
  stateHash : R
  deploys : List (UserDeployRuntimeResult R E)
  systemDeploys : List (SystemDeployRuntimeResult R E)

/-- The mergeable channels of all deploys, as they are saved. -/
def ComputedState.mergeable {R E : Type} (computed : ComputedState R E) :
    List (NumberChannelsDiff R) :=
  computed.deploys.map (·.mergeable) ++ computed.systemDeploys.map (·.mergeable)

/-- The user deploys, then the system deploys, of a block. -/
def computeState (startHash : R) (terms : List SignedDeployData)
    (systemDeploys : List NativeSystemDeployOp) (rand : Rand) (blockData : BlockData) :
    Except String (ComputedState R E) := do
  let (stateHash, deploys) ←
    runtime.playDeploysWithCostAccounting startHash blockData terms rand
  let (stateHash, closed) ← runtime.playSystemDeploys stateHash systemDeploys
  let computed : ComputedState R E := ⟨stateHash, deploys, closed⟩
  runtime.saveMergeableChannels stateHash blockData.sender blockData.seqNum computed.mergeable
    startHash
  return computed

end Play

end PlayRuntime

end RChain.Casper
