import RChain.Casper.MultiParentCasper
import RChain.Casper.Play

/-!
# What a replay authenticates

A record of a deploy carries a failure flag, a cost and an error. `execute` runs the deploys of a
block against their logs and makes the records that play would make; it does not read the
recorded results. A replay that succeeds has run through the same states. It has compared the
flag and the cost of every program that ran, and the error of every refused charge, and nothing
else.
-/

namespace RChain.Casper

open BitCodec Native Steps

section Execution

variable {R E Space Rand : Type} (runtime : Runtime R E Space Rand)
  (errorText : Evaluation R Space → Option String → String)

def Machine.checkpointed (machine : Machine Space) : Machine Space :=
  { machine with space := (runtime.createSoftCheckpoint machine.space).2 }

def Machine.rigged (log : List E) (machine : Machine Space) : Machine Space :=
  { machine with space := runtime.rig log machine.space }

def executeProgram (blockData : BlockData) (deploy : SignedDeployData) (log : List E)
    (rand : Rand) (machine : Machine Space) : Option (ProcessedDeploy E × Machine Space) :=
  let (fallback, space) := runtime.createSoftCheckpoint machine.space
  let env := NormalizerEnv.new deploy
  match runtime.evaluateWithEnv blockData deploy.data.term env rand deploy.data.phloLimit space
      machine.native with
  | .error _ => none
  | .ok evaluation =>
    if evaluation.cost < 0 then none
    else
      let (failed, next) := runProgram runtime env evaluation fallback machine
      some (programRecord errorText deploy log evaluation
        (callError runtime.revAddress evaluation.calls machine.native) failed, next)

def refunded (record : ProcessedDeploy E) (machine : Machine Space) : Machine Space :=
  let kept := if record.isFailed then machine else machine.checkpointed runtime
  (kept.afterSystem runtime.revAddress (.refund record.refundAmount)).checkpointed runtime

def executeDeploy (blockData : BlockData) (withCostAccounting : Bool) (deploy : SignedDeployData)
    (log : List E) (rand : Rand) (machine : Machine Space) :
    Option (ProcessedDeploy E × Machine Space) :=
  if !withCostAccounting then
    executeProgram runtime errorText blockData deploy log (runtime.splitByte rand 1) machine
  else
    match deploy.data.totalPhloCharge with
    | none => none
    | some amount =>
      let op := .preCharge deploy.deployer amount
      let charged := (machine.afterSystem runtime.revAddress op).checkpointed runtime
      match (op.run runtime.revAddress machine.native).1 with
      | .error _ => none
      | .ok (.error refusal) => some (refusedRecord deploy log refusal, charged)
      | .ok (.ok ()) =>
        match executeProgram runtime errorText blockData deploy log (runtime.splitByte rand 1)
            charged with
        | none => none
        | some (record, next) => some (record, refunded runtime record next)

/-- Execute the deploy with this index of a block against its log. -/
def executeAt (blockData : BlockData) (rand : Rand) (withCostAccounting : Bool) (index : Nat)
    (deploy : SignedDeployData) (log : List E) (machine : Machine Space) :
    Option (ProcessedDeploy E × Machine Space) :=
  if bound : index < 256 then
    executeDeploy runtime errorText blockData withCostAccounting deploy log
      (runtime.splitByte rand ⟨index, bound⟩) (machine.rigged runtime log)
  else none

/-- The records of executing the deploys one after another. -/
def execute (blockData : BlockData) (rand : Rand) (withCostAccounting : Bool) :
    Nat → List (SignedDeployData × List E) → Machine Space → Option (List (ProcessedDeploy E))
  | _, [], _ => some []
  | index, (deploy, log) :: programs, machine =>
    match executeAt runtime errorText blockData rand withCostAccounting index deploy log machine with
    | none => none
    | some (record, next) =>
      (execute blockData rand withCostAccounting (index + 1) programs next).map (record :: ·)

/-- The charge of a deploy is refused, so that its program does not run. -/
def chargeRefused (withCostAccounting : Bool) (deploy : SignedDeployData)
    (native : NativeState) : Bool :=
  withCostAccounting &&
    match deploy.data.totalPhloCharge with
    | none => false
    | some amount =>
      match (preCharge runtime.revAddress deploy.deployer amount native).1 with
      | .ok (.error _) => true
      | _ => false

/-- The fields of a record that a replay does not compare are those of the execution. -/
def UncheckedAgree (withCostAccounting : Bool) (native : NativeState)
    (recorded executed : ProcessedDeploy E) : Prop :=
  if chargeRefused runtime withCostAccounting recorded.deploy native then
    recorded.isFailed = true ∧ recorded.cost = 0
  else recorded.systemDeployError = executed.systemDeployError

/-- A deploy whose charge is refused is recorded as failed and as free of cost, and every other
deploy is recorded with the error of its program. -/
def HonestlyRecorded (blockData : BlockData) (rand : Rand) (withCostAccounting : Bool) :
    Nat → List (ProcessedDeploy E) → Machine Space → Prop
  | _, [], _ => True
  | index, term :: terms, machine =>
    match executeAt runtime errorText blockData rand withCostAccounting index term.deploy
        term.deployLog machine with
    | none => True
    | some (executed, next) =>
      UncheckedAgree runtime withCostAccounting machine.native term executed ∧
        HonestlyRecorded blockData rand withCostAccounting (index + 1) terms next

end Execution

section Agreement

variable {R E Space Rand : Type} {runtime : Runtime R E Space Rand}
  {errorText : Evaluation R Space → Option String → String} {blockData : BlockData}
  {withCostAccounting : Bool} {processed : ProcessedDeploy E} {machine next : Machine Space}
  {rand : Rand} {result : Bool × List R} {op : NativeSystemDeployOp} {executed : ProcessedDeploy E}
  {diff : NumberChannelsDiff R} {index : Nat}

theorem check_recorded_ok {failed : Bool} {cost : Int64}
    (ended : checkRecorded processed failed cost machine = (.ok PUnit.unit, next)) :
    processed.isFailed = failed ∧ ¬ cost < 0 ∧ cost.toUInt64 = processed.cost ∧ next = machine := by
  unfold checkRecorded at ended
  split_ifs at ended with mismatch
  · cases ended
  · cases converted : i64TryFrom processed.cost.toNat with
    | none =>
      rw [converted] at ended
      cases ended
    | some =>
      rw [converted] at ended
      dsimp only at ended
      split_ifs at ended with different
      · cases ended
      · cases ended
        have value := i64_try_from_some converted
        rw [not_not.mp different] at value
        refine ⟨not_not.mp mismatch, ?_, ?_, rfl⟩
        · rw [Int64.lt_iff_toInt_lt, value, Int64.toInt_zero]
          omega
        · exact cost_recorded value

variable (errorText) in
theorem deploy_eval_executes
    (ended : replayDeployEval runtime blockData processed rand machine = (.ok result, next)) :
    ∃ executed, executeProgram runtime errorText blockData processed.deploy processed.deployLog
        rand machine = some (executed, next) ∧
      executed.deploy = processed.deploy ∧ executed.deployLog = processed.deployLog ∧
      executed.isFailed = processed.isFailed ∧ executed.cost = processed.cost ∧
      result.1 = !executed.isFailed := by
  unfold replayDeployEval at ended
  obtain ⟨_, _, got, ended⟩ := run_bind_ok ended
  cases got
  unfold executeProgram
  dsimp only at ended ⊢
  cases evaluated : runtime.evaluateWithEnv blockData processed.deploy.data.term
      (NormalizerEnv.new processed.deploy) rand processed.deploy.data.phloLimit
      (runtime.createSoftCheckpoint machine.space).2 machine.native with
  | error =>
    rw [evaluated] at ended
    cases ended
  | ok =>
    rw [evaluated] at ended
    dsimp only at ended ⊢
    obtain ⟨_, _, stored, ended⟩ := run_bind_ok ended
    cases stored
    obtain ⟨_, _, compared, ended⟩ := run_bind_ok ended
    obtain ⟨flag, nonneg, cost, same⟩ := check_recorded_ok compared
    subst same
    cases ended
    rw [if_neg nonneg]
    exact ⟨_, rfl, rfl, rfl, flag.symm, cost, rfl⟩

theorem native_deploy_ok {answer : Except String Unit}
    (ended : evalNativeSystemDeploy runtime op machine = (.ok answer, next)) :
    (op.run runtime.revAddress machine.native).1 = .ok answer ∧
      next = machine.afterSystem runtime.revAddress op := by
  unfold evalNativeSystemDeploy at ended
  obtain ⟨_, _, got, ended⟩ := run_bind_ok ended
  cases got
  obtain ⟨_, _, stored, ended⟩ := run_bind_ok ended
  cases stored
  cases outcome : (op.run runtime.revAddress machine.native).1 with
  | error =>
    rw [outcome] at ended
    cases ended
  | ok =>
    rw [outcome] at ended
    cases ended
    exact ⟨rfl, rfl⟩

theorem system_deploy_ok
    (ended : replaySystemDeployInternal runtime op machine = (.ok PUnit.unit, next)) :
    next = machine.afterSystem runtime.revAddress op := by
  unfold replaySystemDeployInternal at ended
  obtain ⟨answer, _, evaluated, ended⟩ := run_bind_ok ended
  obtain ⟨_, same⟩ := native_deploy_ok evaluated
  cases answer with
  | error => cases ended
  | ok =>
    cases ended
    exact same

/-- Once the flag and the cost are known to agree, only the errors can tell two records of a
deploy apart. -/
theorem record_eq_iff (deploy : executed.deploy = processed.deploy)
    (log : executed.deployLog = processed.deployLog) (flag : executed.isFailed = processed.isFailed)
    (cost : executed.cost = processed.cost) :
    executed = processed ↔ processed.systemDeployError = executed.systemDeployError := by
  constructor
  · intro same
    rw [same]
  · intro _
    cases executed
    cases processed
    simp_all

theorem refund_ok {evaluation : Bool × List R} (flag : evaluation.1 = !executed.isFailed)
    (amount : executed.refundAmount = processed.refundAmount) (ended : (do
      if evaluation.1 then
        createSoftCheckpoint runtime
      replaySystemDeployInternal runtime (.refund processed.refundAmount)
      createSoftCheckpoint runtime
      return evaluation : ReplayM Space (Bool × List R)) machine = (.ok result, next)) :
    next = refunded runtime executed machine := by
  have settled {kept : Machine Space} (ended : (do
      replaySystemDeployInternal runtime (.refund processed.refundAmount)
      createSoftCheckpoint runtime
      return evaluation : ReplayM Space (Bool × List R)) kept = (.ok result, next)) :
      next = (kept.afterSystem runtime.revAddress
        (.refund executed.refundAmount)).checkpointed runtime := by
    obtain ⟨_, _, replayed, ended⟩ := run_bind_ok ended
    obtain ⟨_, _, checkpoint, ended⟩ := run_bind_ok ended
    have same := system_deploy_ok replayed
    subst same
    cases checkpoint
    cases ended
    rw [amount]
    rfl
  unfold refunded
  cases failed : executed.isFailed with
  | true =>
    rw [failed] at flag
    simp only [flag, Bool.not_true, Bool.false_eq_true, if_false] at ended
    exact settled ended
  | false =>
    rw [failed] at flag
    simp only [flag, Bool.not_false, if_true] at ended
    obtain ⟨_, _, checkpoint, ended⟩ := run_bind_ok ended
    cases checkpoint
    exact settled ended

variable (errorText) in
/-- A replayed deploy went through the states of the execution, and what was recorded for it is
what was executed as soon as the fields that were not compared agree. -/
theorem evaluator_executes
    (ended : replayDeployEvaluator runtime blockData processed rand withCostAccounting machine =
      (.ok result, next)) :
    ∃ executed, executeDeploy runtime errorText blockData withCostAccounting processed.deploy
        processed.deployLog rand machine = some (executed, next) ∧
      (executed = processed ↔
        UncheckedAgree runtime withCostAccounting machine.native processed executed) := by
  unfold replayDeployEvaluator at ended
  unfold executeDeploy UncheckedAgree chargeRefused
  cases withCostAccounting with
  | false =>
    obtain ⟨executed, ran, deploy, log, flag, cost, _⟩ :=
      deploy_eval_executes errorText ended
    exact ⟨executed, ran, record_eq_iff deploy log flag cost⟩
  | true =>
    simp only [Bool.not_true, Bool.false_eq_true, if_false, Bool.true_and] at ended ⊢
    cases charge : processed.deploy.data.totalPhloCharge with
    | none =>
      rw [charge] at ended
      cases ended
    | some amount =>
      rw [charge] at ended
      dsimp only at ended ⊢
      obtain ⟨answer, _, evaluated, ended⟩ := run_bind_ok ended
      obtain ⟨outcome, same⟩ := native_deploy_ok evaluated
      subst same
      obtain ⟨_, _, checkpoint, ended⟩ := run_bind_ok ended
      cases checkpoint
      change (preCharge runtime.revAddress processed.deploy.deployer amount
        machine.native).1 = .ok answer at outcome
      simp only [NativeSystemDeployOp.run, outcome]
      cases answer with
      | error =>
        cases error : processed.systemDeployError with
        | none =>
          rw [error] at ended
          cases ended
        | some =>
          rw [error] at ended
          dsimp only at ended
          split_ifs at ended with equal
          · cases ended
            subst equal
            refine ⟨_, rfl, fun same => ?_, fun agree => ?_⟩
            · rw [← same]
              exact ⟨rfl, rfl⟩
            · obtain ⟨_, _⟩ := agree
              cases processed
              simp_all [refusedRecord]
          · cases ended
      | ok _ =>
        dsimp only at ended ⊢
        obtain ⟨_, _, programmed, ended⟩ := run_bind_ok ended
        obtain ⟨executed, executes, deploy, log, flag, cost, succeeded⟩ :=
          deploy_eval_executes errorText programmed
        have refund : executed.refundAmount = processed.refundAmount := by
          unfold ProcessedDeploy.refundAmount
          rw [deploy, cost]
        have same := refund_ok succeeded refund ended
        subst same
        refine ⟨executed, ?_, record_eq_iff deploy log flag cost⟩
        simp only [Machine.checkpointed, executes]

theorem replay_data_reads {evalSuccessful : Bool}
    (ended : checkReplayDataWithFix runtime evalSuccessful machine = (.ok PUnit.unit, next)) :
    next = machine := by
  unfold checkReplayDataWithFix at ended
  obtain ⟨_, _, got, ended⟩ := run_bind_ok ended
  cases got
  cases unused : runtime.checkReplayData machine.space with
  | none =>
    rw [unused] at ended
    cases ended
    rfl
  | some =>
    rw [unused] at ended
    dsimp only at ended
    split_ifs at ended with successful
    · cases ended
    · cases ended
      rfl

theorem number_channels_read {channels : List R}
    (ended : getNumberChannelsData runtime channels machine = (.ok diff, next)) :
    next = machine := by
  induction channels generalizing diff with
  | nil =>
    cases ended
    rfl
  | cons channel _ ih =>
    unfold getNumberChannelsData at ended
    obtain ⟨_, _, got, ended⟩ := run_bind_ok ended
    cases got
    cases number : runtime.getNumberChannel channel machine.space with
    | error =>
      rw [number] at ended
      cases ended
    | ok found =>
      rw [number] at ended
      cases found with
      | none => exact ih ended
      | some =>
        obtain ⟨_, _, others, ended⟩ := run_bind_ok ended
        cases ended
        exact ih others

variable (errorText) in
/-- The records of a replayed list of deploys are those of its execution exactly when it is
honestly recorded. -/
theorem terms_execute {terms : List (ProcessedDeploy E)} {diffs : List (NumberChannelsDiff R)}
    (ended : replayTerms runtime blockData rand withCostAccounting index terms machine =
      (.ok diffs, next)) :
    execute runtime errorText blockData rand withCostAccounting index
        (terms.map fun term => (term.deploy, term.deployLog)) machine = some terms ↔
      HonestlyRecorded runtime errorText blockData rand withCostAccounting index terms
        machine := by
  induction terms generalizing index machine diffs with
  | nil => exact ⟨fun _ => trivial, fun _ => rfl⟩
  | cons term terms ih =>
    unfold replayTerms at ended
    obtain ⟨_, _, divided, remaining⟩ := run_bind_ok ended
    unfold splitIndex at divided
    split_ifs at divided with bound <;> cases divided
    obtain ⟨_, ran, replayed, remaining⟩ := run_bind_ok remaining
    obtain ⟨_, _, others, remaining⟩ := run_bind_ok remaining
    cases remaining
    unfold replayDeployE at replayed
    obtain ⟨_, _, loaded, replayed⟩ := run_bind_ok replayed
    cases loaded
    obtain ⟨⟨_, _⟩, _, evaluated, replayed⟩ := run_bind_ok replayed
    obtain ⟨_, _, compared, replayed⟩ := run_bind_ok replayed
    have ranChecked := replay_data_reads compared
    have nextChecked := number_channels_read replayed
    subst ranChecked nextChecked
    obtain ⟨executed, executes, agrees⟩ := evaluator_executes errorText evaluated
    have here : executeAt runtime errorText blockData rand withCostAccounting index term.deploy
        term.deployLog machine = some (executed, ran) := by
      rw [executeAt, dif_pos bound]
      exact executes
    rw [List.map_cons, execute, HonestlyRecorded, here]
    dsimp only
    rw [← agrees, ← ih others, Option.map_eq_some_iff]
    constructor
    · rintro ⟨_, executed, same⟩
      cases same
      exact ⟨rfl, executed⟩
    · rintro ⟨same, executed⟩
      exact ⟨terms, executed, by rw [same]⟩

end Agreement

section Replay

variable {R E Space Rand : Type} (runtime : Runtime R E Space Rand)
  (errorText : Evaluation R Space → Option String → String) (startHash : R)
  (blockData : BlockData) (rand : Rand) (withCostAccounting : Bool) (bonds : Bonds)
  (vaults : List (String × NonNegI64))

/-- The state in which the first deploy of a block is executed. -/
def executionStart (space : Space) : Machine Space where
  space := space
  native :=
    if withCostAccounting then runtime.nativeAt startHash
    else installGenesis bonds vaults (runtime.nativeAt startHash)
  trace := []

/-- Executing the deploys from the start state gives the recorded flags, costs and errors. -/
def Authentic (terms : List (ProcessedDeploy E)) : Prop :=
  ∃ space, runtime.reset startHash = .ok space ∧
    execute runtime errorText blockData rand withCostAccounting 0
      (terms.map fun term => (term.deploy, term.deployLog))
      (executionStart runtime startHash withCostAccounting bonds vaults space) = some terms

/-- The deploys are honestly recorded, each in the state in which it is executed. -/
def HonestFrom (terms : List (ProcessedDeploy E)) : Prop :=
  ∀ space, runtime.reset startHash = .ok space →
    HonestlyRecorded runtime errorText blockData rand withCostAccounting 0 terms
      (executionStart runtime startHash withCostAccounting bonds vaults space)

variable {runtime errorText startHash blockData rand withCostAccounting bonds vaults} in
theorem replay_from_terms {space : Space} {terms : List (ProcessedDeploy E)}
    {systemDeploys : List (ProcessedSystemDeploy E)} {result : R × List (NumberChannelsDiff R)}
    (replayed : (replayFrom runtime blockData rand terms systemDeploys withCostAccounting bonds
      vaults ⟨space, runtime.nativeAt startHash, []⟩).1 = .ok result) :
    ∃ diffs next, replayTerms runtime blockData rand withCostAccounting 0 terms
      (executionStart runtime startHash withCostAccounting bonds vaults space) =
        (.ok diffs, next) := by
  obtain ⟨final, ended⟩ : ∃ final, replayFrom runtime blockData rand terms systemDeploys
      withCostAccounting bonds vaults ⟨space, runtime.nativeAt startHash, []⟩ =
        (.ok result, final) := ⟨_, Prod.ext replayed rfl⟩
  unfold replayFrom at ended
  cases withCostAccounting with
  | true =>
    obtain ⟨diffs, next, deployed, _⟩ := run_bind_ok ended
    exact ⟨diffs, next, deployed⟩
  | false =>
    obtain ⟨_, _, modified, ended⟩ := run_bind_ok ended
    cases modified
    obtain ⟨diffs, next, deployed, _⟩ := run_bind_ok ended
    exact ⟨diffs, next, deployed⟩

/-- In a replay that succeeds, the recorded results are those of the execution exactly when every
deploy whose charge is refused is recorded as failed and as free of cost, and every other deploy
is recorded with the error of its program. -/
theorem replay_authentic_iff (terms : List (ProcessedDeploy E))
    (systemDeploys : List (ProcessedSystemDeploy E)) (result : R × List (NumberChannelsDiff R))
    (replayed : (replayDeploys runtime startHash blockData rand terms systemDeploys
      withCostAccounting bonds vaults).1 = .ok result) :
    Authentic runtime errorText startHash blockData rand withCostAccounting bonds vaults terms ↔
      HonestFrom runtime errorText startHash blockData rand withCostAccounting bonds vaults
        terms := by
  unfold replayDeploys at replayed
  unfold Authentic HonestFrom
  cases entered : runtime.reset startHash with
  | error =>
    rw [entered] at replayed
    cases replayed
  | ok space =>
    rw [entered] at replayed
    obtain ⟨_, _, deployed⟩ := replay_from_terms replayed
    have executes := terms_execute errorText deployed
    constructor
    · intro authentic _ same
      obtain ⟨_, found, executed⟩ := authentic
      cases same
      cases found
      exact executes.mp executed
    · intro honest
      exact ⟨space, rfl, executes.mpr (honest space rfl)⟩

end Replay

section Example

/-- The answer to a deploy that is to pay 200 from a vault with 100. -/
def refusalText : String := s!"preCharge: insufficient funds ({(100 : Int64)} < {(200 : Int64)})"

/-- A deploy that cannot pay its charge, with this flag and cost in its record. -/
def refusedDeploy (isFailed : Bool) (cost : UInt64) : ProcessedDeploy Unit :=
  { sampleDeploy 200 1 isFailed with
    cost := cost
    systemDeployError := some refusalText }

/-- A block on top of genesis with one deploy, which changes nothing. -/
def refusedBlock (isFailed : Bool) (cost : UInt64) : SampleBlock :=
  { sampleBlock 1 [0] with deploys := [refusedDeploy isFailed cost] }

/-- The recorded results of a sample block are those of its execution. -/
def SampleAuthentic (block : SampleBlock) : Prop :=
  Authentic sampleRuntime (fun _ _ => "") block.preStateHash (BlockData.fromBlock block) () true
    block.bonds [] block.deploys

/-- A deploy that never ran is recorded as succeeded, at a cost of 7, and its block is
accepted. -/
theorem refused_deploy_misrecorded :
    let final := [Action.receive (refusedBlock false 7), Action.process 1].foldl
      (NodeState.step sampleNode) (NodeState.genesis sampleNode sampleGenesis)
    (final.dag.lookup 1).map (·.validationFailed) = some false ∧
      ¬ SampleAuthentic (refusedBlock false 7) := by
  refine ⟨by decide +kernel, ?_⟩
  intro authentic
  obtain ⟨space, _, executed⟩ := authentic
  cases space
  have flags := congrArg (Option.map (List.map ProcessedDeploy.isFailed)) executed
  revert flags
  decide +kernel

/-- Recorded as failed and as free of cost, the same deploy is authentic. -/
theorem refused_deploy_authentic : SampleAuthentic (refusedBlock true 0) := by
  have refused : chargeRefused sampleRuntime true (refusedDeploy true 0).deploy
      (executionStart sampleRuntime (refusedBlock true 0).preStateHash true
        (refusedBlock true 0).bonds [] ()).native = true := by
    decide +kernel
  refine (replay_authentic_iff sampleRuntime _ _ _ _ _ _ _ _ (refusedBlock true 0).systemDeploys
    (sampleState ⟨100, by decide⟩, [[]]) ?_).mpr ?_
  · rfl
  · intro space _
    cases space
    change HonestlyRecorded _ _ _ _ _ _ [refusedDeploy true 0] _
    unfold HonestlyRecorded
    split
    · trivial
    · rw [UncheckedAgree, if_pos refused]
      exact ⟨⟨rfl, rfl⟩, trivial⟩

end Example

end RChain.Casper
