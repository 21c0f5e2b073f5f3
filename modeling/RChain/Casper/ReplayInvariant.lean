import RChain.Casper.Replay

/-!
# Invariants of a replay

A replay changes the native state in four ways only: it installs the bonds of genesis, it
charges a deploy of the block, it runs a program of the block, and it runs a system
operation that takes no key. `Respected` lists these ways once; an invariant that each of
them keeps is kept by the whole replay of the block.
-/

namespace RChain.Casper

open BitCodec Native Steps

section Replay

variable {R E Space Rand : Type} (runtime : Runtime R E Space Rand)

/-- What a replay of `deploys` may do to a machine. -/
structure Respected (deploys : List (ProcessedDeploy E)) (withCostAccounting : Bool)
    (bonds : Bonds) (vaults : List (String × NonNegI64)) (invariant : Machine Space → Prop) :
    Prop where
  space : ∀ machine space, invariant machine → invariant { machine with space := space }
  install : withCostAccounting = false → ∀ machine, invariant machine →
    invariant { machine with native := installGenesis bonds vaults machine.native }
  charge : withCostAccounting = true → ∀ machine, ∀ processed ∈ deploys, ∀ amount,
    processed.deploy.data.totalPhloCharge = some amount → invariant machine →
    invariant (machine.afterSystem runtime.revAddress
      (.preCharge processed.deploy.deployer amount))
  refund : ∀ machine amount, invariant machine →
    invariant (machine.afterSystem runtime.revAddress (.refund amount))
  closeBlock : ∀ machine, invariant machine →
    invariant (machine.afterSystem runtime.revAddress .closeBlock)
  slash : ∀ machine validator, invariant machine →
    invariant (machine.afterSystem runtime.revAddress (.slash validator))
  program : ∀ machine, ∀ processed ∈ deploys, ∀ evaluation fallback, invariant machine →
    invariant (runProgram runtime (NormalizerEnv.new processed.deploy) evaluation fallback
      machine).2

variable {runtime} {deploys : List (ProcessedDeploy E)} {withCostAccounting : Bool}
  {bonds : Bonds} {vaults : List (String × NonNegI64)} {invariant : Machine Space → Prop}
  (respected : Respected runtime deploys withCostAccounting bonds vaults invariant)

include respected

theorem checkpoint_keeps : Keeps invariant (createSoftCheckpoint runtime) :=
  keeps_modify fun machine holds => respected.space machine _ holds

theorem rig_keeps (log : List E) : Keeps invariant (rigLog runtime log) :=
  keeps_modify fun machine holds => respected.space machine _ holds

variable {op : NativeSystemDeployOp} {processed : ProcessedDeploy E}

omit respected in
theorem native_deploy_keeps
    (kept : ∀ machine, invariant machine → invariant (machine.afterSystem runtime.revAddress op)) :
    Keeps invariant (evalNativeSystemDeploy runtime op) := by
  apply ensures_get_bind
  intro machine holds
  apply keeps_bind (keeps_set (kept machine holds))
  intro _
  cases (op.run runtime.revAddress machine.native).1 with
  | error => exact ensures_throw _
  | ok => exact ensures_pure trivial

omit respected in
theorem check_recorded_keeps (processed : ProcessedDeploy E) (failed : Bool) (cost : Int64) :
    Keeps invariant (checkRecorded processed failed cost) := by
  unfold checkRecorded
  split_ifs with mismatch
  · exact ensures_throw _
  · cases i64TryFrom processed.cost.toNat with
    | none => exact ensures_throw _
    | some =>
      dsimp only
      split_ifs with different
      · exact ensures_throw _
      · exact ensures_pure trivial

theorem deploy_eval_keeps (blockData : BlockData) (mem : processed ∈ deploys) (rand : Rand) :
    Keeps invariant (replayDeployEval runtime blockData processed rand) := by
  apply ensures_get_bind
  intro machine holds
  dsimp only
  cases runtime.evaluateWithEnv blockData processed.deploy.data.term
      (NormalizerEnv.new processed.deploy) rand processed.deploy.data.phloLimit
      (runtime.createSoftCheckpoint machine.space).2 machine.native with
  | error => exact ensures_throw _
  | ok evaluation =>
    apply keeps_bind (keeps_set (respected.program machine processed mem evaluation _ holds))
    intro _
    apply keeps_bind (check_recorded_keeps processed _ _)
    intro _
    exact ensures_pure trivial

omit respected in
theorem system_deploy_keeps
    (kept : ∀ machine, invariant machine → invariant (machine.afterSystem runtime.revAddress op)) :
    Keeps invariant (replaySystemDeployInternal runtime op) := by
  apply keeps_bind (native_deploy_keeps kept)
  intro answer
  cases answer with
  | error => exact ensures_throw _
  | ok => exact ensures_pure trivial

theorem deploy_evaluator_keeps (blockData : BlockData) (mem : processed ∈ deploys) (rand : Rand) :
    Keeps invariant
      (replayDeployEvaluator runtime blockData processed rand withCostAccounting) := by
  have evaluated := deploy_eval_keeps respected blockData mem (runtime.splitByte rand 1)
  unfold replayDeployEvaluator
  cases accounting : withCostAccounting with
  | false => exact evaluated
  | true =>
    cases charge : processed.deploy.data.totalPhloCharge with
    | none => exact ensures_throw _
    | some amount =>
      apply keeps_bind (native_deploy_keeps fun machine =>
        respected.charge accounting machine processed mem amount charge)
      intro charged
      apply keeps_bind (checkpoint_keeps respected)
      intro _
      cases charged with
      | error =>
        cases processed.systemDeployError with
        | none => exact ensures_throw _
        | some =>
          dsimp only
          split_ifs with same
          · exact ensures_pure trivial
          · exact ensures_throw _
      | ok _ =>
        have refunded (result : Bool × List R) : Keeps invariant (do
            replaySystemDeployInternal runtime (.refund processed.refundAmount)
            createSoftCheckpoint runtime
            return result) := by
          apply keeps_bind (system_deploy_keeps fun machine => respected.refund machine _)
          intro _
          apply keeps_bind (checkpoint_keeps respected)
          intro _
          exact ensures_pure trivial
        apply keeps_bind evaluated
        intro result
        split_ifs with succeeded
        · apply keeps_bind (checkpoint_keeps respected)
          intro _
          exact refunded result
        · exact refunded result

omit respected in
theorem replay_data_keeps (evalSuccessful : Bool) :
    Keeps invariant (checkReplayDataWithFix runtime evalSuccessful) := by
  apply ensures_get_bind
  intro machine _
  cases runtime.checkReplayData machine.space with
  | none => exact ensures_pure trivial
  | some =>
    dsimp only
    split_ifs with successful
    · exact ensures_throw _
    · exact ensures_pure trivial

omit respected in
theorem number_channels_keeps (channels : List R) :
    Keeps invariant (getNumberChannelsData runtime channels) := by
  induction channels with
  | nil => exact ensures_pure trivial
  | cons channel _ ih =>
    apply ensures_get_bind
    intro machine _
    cases runtime.getNumberChannel channel machine.space with
    | error => exact ensures_throw _
    | ok read =>
      cases read with
      | none => exact ih
      | some =>
        apply keeps_bind ih
        intro _
        exact ensures_pure trivial

theorem deploy_keeps (blockData : BlockData) (mem : processed ∈ deploys) (rand : Rand) :
    Keeps invariant (replayDeployE runtime blockData processed rand withCostAccounting) := by
  apply keeps_bind (rig_keeps respected processed.deployLog)
  intro _
  apply keeps_bind (deploy_evaluator_keeps respected blockData mem rand)
  intro result
  apply keeps_bind (replay_data_keeps result.1)
  intro _
  exact number_channels_keeps result.2

theorem block_system_deploy_keeps (processed : ProcessedSystemDeploy E) :
    Keeps invariant (replayBlockSystemDeploy runtime processed) := by
  have replayed (eventList : List E) {op : NativeSystemDeployOp}
      (kept : ∀ machine, invariant machine →
        invariant (machine.afterSystem runtime.revAddress op)) :
      Keeps invariant (do
        rigLog runtime eventList
        replaySystemDeployInternal runtime op
        createSoftCheckpoint runtime
        checkReplayDataWithFix runtime true
        return ([] : NumberChannelsDiff R)) := by
    apply keeps_bind (rig_keeps respected eventList)
    intro _
    apply keeps_bind (system_deploy_keeps kept)
    intro _
    apply keeps_bind (checkpoint_keeps respected)
    intro _
    apply keeps_bind (replay_data_keeps true)
    intro _
    exact ensures_pure trivial
  unfold replayBlockSystemDeploy
  cases processed with
  | failed => exact ensures_throw _
  | succeeded eventList systemDeploy =>
    cases systemDeploy with
    | empty => exact ensures_throw _
    | closeBlock => exact replayed eventList respected.closeBlock
    | slash validator => exact replayed eventList fun machine => respected.slash machine validator

omit respected in
theorem split_index_keeps (rand : Rand) (index : Nat) :
    Keeps invariant (splitIndex runtime rand index : ReplayM Space Rand) := by
  unfold splitIndex
  split_ifs with bound
  · exact ensures_pure trivial
  · exact ensures_throw _

theorem terms_keep (blockData : BlockData) (rand : Rand) (index : Nat)
    (terms : List (ProcessedDeploy E)) (members : ∀ term ∈ terms, term ∈ deploys) :
    Keeps invariant (replayTerms runtime blockData rand withCostAccounting index terms) := by
  induction terms generalizing index with
  | nil => exact ensures_pure trivial
  | cons term _ ih =>
    apply keeps_bind (split_index_keeps rand index)
    intro split
    apply keeps_bind (deploy_keeps respected blockData (members term List.mem_cons_self) split)
    intro _
    apply keeps_bind (ih (index + 1) fun other mem => members other (List.mem_cons_of_mem term mem))
    intro _
    exact ensures_pure trivial

theorem system_deploys_keep (rand : Rand) (index : Nat)
    (systemDeploys : List (ProcessedSystemDeploy E)) :
    Keeps invariant (replaySystemDeploys runtime rand index systemDeploys) := by
  induction systemDeploys generalizing index with
  | nil => exact ensures_pure trivial
  | cons deploy _ ih =>
    apply keeps_bind (split_index_keeps rand index)
    intro _
    apply keeps_bind (block_system_deploy_keeps respected deploy)
    intro _
    apply keeps_bind (ih (index + 1))
    intro _
    exact ensures_pure trivial

/-- The replay keeps the invariant, and the state it commits is that of a machine that
has the invariant. -/
theorem replay_from_ensures (blockData : BlockData) (rand : Rand)
    (systemDeploys : List (ProcessedSystemDeploy E)) :
    Ensures invariant
      (replayFrom runtime blockData rand deploys systemDeploys withCostAccounting bonds vaults)
      fun result => ∃ machine, invariant machine ∧ runtime.nativeAt result.1 = machine.native := by
  unfold replayFrom
  cases withCostAccounting
  on_goal 1 =>
    apply keeps_bind (keeps_modify (respected.install rfl))
    intro _
  all_goals
    apply keeps_bind (terms_keep respected blockData rand 0 deploys fun _ mem => mem)
    intro _
    apply keeps_bind (system_deploys_keep respected rand deploys.length systemDeploys)
    intro _
    apply ensures_get_bind
    intro machine holds
    cases created : runtime.createCheckpoint machine.space machine.native with
    | error => exact ensures_throw _
    | ok => exact ensures_pure ⟨machine, holds, runtime.read_back created⟩

theorem replay_deploys_spec {startHash : R} {blockData : BlockData} {rand : Rand}
    {systemDeploys : List (ProcessedSystemDeploy E)} {root : R}
    {mergeable : List (NumberChannelsDiff R)}
    (initial : ∀ space, invariant ⟨space, runtime.nativeAt startHash, []⟩)
    (replayed : (replayDeploys runtime startHash blockData rand deploys systemDeploys
      withCostAccounting bonds vaults).1 = .ok (root, mergeable)) :
    (∃ machine, invariant machine ∧ runtime.nativeAt root = machine.native) ∧
      ∃ machine, invariant machine ∧
        (replayDeploys runtime startHash blockData rand deploys systemDeploys withCostAccounting
          bonds vaults).2 = machine.trace := by
  unfold replayDeploys at replayed ⊢
  cases entered : runtime.reset startHash with
  | error =>
    rw [entered] at replayed
    cases replayed
  | ok space =>
    rw [entered] at replayed
    have ensured := replay_from_ensures respected blockData rand systemDeploys _ (initial space)
    exact ⟨ensured.2 (root, mergeable) replayed, _, ensured.1, rfl⟩

end Replay

end RChain.Casper
