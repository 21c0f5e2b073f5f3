import RChain.Casper.Acceptance
import RChain.Rholang.Supply

/-!
# No money is minted

The supply along the blocks of a DAG. A replay that charges no negative amount cannot
raise the supply of the state it starts from; a block with one valid parent starts from
the state of that parent. So over a run in which every processed block is of this kind,
no block raises the supply of its parent.
-/

namespace RChain.Native

def NativeState.NonNegative (state : NativeState) : Prop :=
  (∀ address, 0 ≤ (state.vaultBalance address).value.toInt) ∧
    ∀ validator stake, state.bondsMap.lookup validator = some stake → 0 ≤ stake.value.toInt

theorem non_negative (state : NativeState) : state.NonNegative := by
  refine ⟨fun address => ?_, fun validator stake _ => ?_⟩
  · rw [← amount_cast]
    exact Int.natCast_nonneg _
  · rw [← amount_cast]
    exact Int.natCast_nonneg _

end RChain.Native

namespace RChain.Casper

open BitCodec Crypto Dag Native Steps

def Operation.isCall : Operation → Bool
  | .call _ _ => true
  | .system _ => false

/-- What an activity may do to the money: it does not raise the supply, a call of a process
and a whole program keep it, and what fails changes nothing. -/
def Activity.Fair : Activity → Prop
  | .operation performed before failed after =>
    after.NonNegative ∧ after.supply ≤ before.supply ∧
      (performed.isCall = true → after.supply = before.supply) ∧
      (failed = true → after = before)
  | .evaluation _ before failed after =>
    after.NonNegative ∧ after.supply = before.supply ∧ (failed = true → after = before)

section Replay

variable {R E Space Rand : Type}

/-- The machine holds at most `bound`, and whatever happened was fair. -/
structure Sound (bound : Nat) (machine : Machine Space) : Prop where
  supply : machine.native.supply ≤ bound
  fair : ∀ activity ∈ machine.trace, activity.Fair

theorem fair_cons (machine : Machine Space) {activity : Activity}
    (fair : ∀ earlier ∈ machine.trace, earlier.Fair) (next : activity.Fair) :
    ∀ earlier ∈ activity :: machine.trace, earlier.Fair := by
  intro earlier mem
  rcases List.mem_cons.mp mem with rfl | before
  · exact next
  · exact fair earlier before

variable {bound : Nat} {machine : Machine Space}

theorem sound_system (revAddress : PublicKey → String) {op : NativeSystemDeployOp}
    (sound : Sound bound machine)
    (lowered : (op.run revAddress machine.native).2.supply ≤ machine.native.supply)
    (unchanged : nativeSucceeded (op.run revAddress machine.native).1 = false →
      (op.run revAddress machine.native).2 = machine.native) :
    Sound bound (machine.afterSystem revAddress op) := by
  refine ⟨lowered.trans sound.supply, fair_cons _ sound.fair ?_⟩
  refine ⟨non_negative _, lowered, (fun impossible => by cases impossible), fun failed => ?_⟩
  have stopped : (!nativeSucceeded (op.run revAddress machine.native).1) = true := failed
  exact unchanged (by simpa using stopped)

theorem sound_charge (revAddress : PublicKey → String) (deployer : PublicKey) {amount : Int64}
    (positive : 0 ≤ amount.toInt) (sound : Sound bound machine) :
    Sound bound (machine.afterSystem revAddress (.preCharge deployer amount)) := by
  rcases pre_charge_spec revAddress deployer amount machine.native with
    ⟨charged, _⟩ | ⟨_, same⟩
  · apply sound_system revAddress sound
    · simp only [NativeSystemDeployOp.run]
      omega
    · intro failed
      simp only [NativeSystemDeployOp.run, charged, nativeSucceeded] at failed
      cases failed
  · exact sound_system revAddress sound (by simp only [NativeSystemDeployOp.run, same, le_refl])
      fun _ => same

theorem calls_conserve (revAddress : PublicKey → String) (calls : List (Process × List Value))
    (machine : Machine Space) (bounded : machine.native.supply < 2 ^ 63)
    (fair : ∀ activity ∈ machine.trace, activity.Fair) :
    (machine.performCalls revAddress calls).2.native.supply = machine.native.supply ∧
      ∀ activity ∈ (machine.performCalls revAddress calls).2.trace, activity.Fair := by
  induction calls generalizing machine with
  | nil => exact ⟨rfl, fair⟩
  | cons call _ ih =>
    obtain ⟨process, args⟩ := call
    obtain ⟨kept, unchanged⟩ :
        Conserves machine.native (process.run revAddress args machine.native) := by
      cases process with
      | revVault => exact rev_vault_conserves revAddress args machine.native
      | pos => exact pos_conserves revAddress args machine.native bounded
    have called : ∀ activity ∈ (machine.afterCall revAddress process args).trace, activity.Fair :=
      fair_cons _ fair ⟨non_negative _, kept.le, fun _ => kept, unchanged⟩
    have sameSupply : (machine.afterCall revAddress process args).native.supply =
        machine.native.supply := kept
    unfold Machine.performCalls
    split
    · exact ⟨sameSupply, called⟩
    · obtain ⟨rest, restFair⟩ := ih (machine.afterCall revAddress process args)
        (sameSupply ▸ bounded) called
      exact ⟨rest.trans sameSupply, restFair⟩

theorem sound_program (runtime : Runtime R E Space Rand) (env : NormalizerEnv)
    (evaluation : Evaluation R Space) (fallback : Space) (bounded : bound < 2 ^ 63)
    (sound : Sound bound machine) :
    Sound bound (runProgram runtime env evaluation fallback machine).2 := by
  obtain ⟨kept, fair⟩ := calls_conserve runtime.revAddress evaluation.calls machine
    (sound.supply.trans_lt bounded) sound.fair
  unfold runProgram
  dsimp only
  split_ifs with failed
  · exact ⟨sound.supply, fair_cons (machine.performCalls _ _).2 fair
      ⟨non_negative _, rfl, fun _ => rfl⟩⟩
  · exact ⟨kept.le.trans sound.supply, fair_cons (machine.performCalls _ _).2 fair
      ⟨non_negative _, kept, fun impossible => absurd impossible failed⟩⟩

def ChargesPositive (deploys : List (ProcessedDeploy E)) : Prop :=
  ∀ processed ∈ deploys, ∀ amount ∈ processed.deploy.data.totalPhloCharge, 0 ≤ amount.toInt

instance decidableChargesPositive (deploys : List (ProcessedDeploy E)) :
    Decidable (ChargesPositive deploys) :=
  have _charge (processed : ProcessedDeploy E) :
      Decidable (∀ amount ∈ processed.deploy.data.totalPhloCharge, 0 ≤ amount.toInt) :=
    Option.decidableForallMem _
  inferInstanceAs (Decidable (∀ processed ∈ deploys,
    ∀ amount ∈ processed.deploy.data.totalPhloCharge, 0 ≤ amount.toInt))

theorem sound_respected (runtime : Runtime R E Space Rand) (deploys : List (ProcessedDeploy E))
    (bonds : Bonds) (vaults : List (String × NonNegI64)) (bounded : bound < 2 ^ 63)
    (positive : ChargesPositive deploys) :
    Respected runtime deploys true bonds vaults (fun machine : Machine Space => Sound bound machine) where
  space := fun _ _ sound => ⟨sound.supply, sound.fair⟩
  install := fun impossible => by cases impossible
  charge := fun _ _ processed mem amount charge sound =>
    sound_charge runtime.revAddress _ (positive processed mem amount charge) sound
  refund := fun _ _ sound => sound_system runtime.revAddress sound le_rfl fun _ => rfl
  closeBlock := fun _ sound => sound_system runtime.revAddress sound le_rfl fun _ => rfl
  slash := fun machine validator sound =>
    sound_system runtime.revAddress sound (slash_supply validator machine.native)
      fun impossible => by cases impossible
  program := fun _ processed _ evaluation fallback sound =>
    sound_program runtime _ evaluation fallback bounded sound

end Replay

section Run

variable {H R E Space Rand : Type} [LinearOrder H] [DecidableEq R] (node : Node H R E Space Rand)

def postSupply (block : BlockMessage H R E) : Nat :=
  (node.runtime.nativeAt block.postStateHash).supply

/-- A processed block charges no negative amount and has exactly one valid parent. -/
def PaysOneParent (state : NodeState H R E) : Action H R E → Prop
  | .receive _ => True
  | .process hash => ∀ block, state.blockStore hash = some block →
      ChargesPositive block.deploys ∧ (validParents state.dag block).length = 1

/-- What a block did to the money: it has no more than genesis and than each of its valid
parents, nothing in it is negative, and every operation of its replay was fair. -/
structure Solvent (genesis : BlockMessage H R E) (state : NodeState H R E)
    (block : BlockMessage H R E) : Prop where
  genesis : postSupply node block ≤ postSupply node genesis
  parents : ∀ j ∈ block.justifications, ∀ m parent, state.dag.lookup j = some m →
    m.validationFailed = false → state.blockStore j = some parent →
    postSupply node block ≤ postSupply node parent
  balances : (node.runtime.nativeAt block.postStateHash).NonNegative
  operations : ∀ activity ∈
    (replayComputeState node.runtime block (node.randomGenerator block)).2, activity.Fair

variable {node} {genesis : BlockMessage H R E} {state : NodeState H R E}
  {block : BlockMessage H R E} {m : BlockMetadata H R}

omit [DecidableEq R] in
theorem accepted_solvent {parent : BlockMessage H R E} {preState : ParentsMergedState H R}
    (bounded : postSupply node parent < 2 ^ 63)
    (accepted : Accepted node state.dag state.blockStore block m preState)
    (justified : block.justifications ≠ []) (positive : ChargesPositive block.deploys)
    (started : block.preStateHash = parent.postStateHash) :
    postSupply node block ≤ postSupply node parent ∧
      ∀ activity ∈ (replayComputeState node.runtime block (node.randomGenerator block)).2,
        activity.Fair := by
  obtain ⟨_, replayed⟩ := accepted.compute_state
  have accounting : (!block.justifications.isEmpty) = true := by
    simpa using justified
  unfold replayComputeState at replayed ⊢
  rw [accounting, started] at replayed ⊢
  obtain ⟨⟨_, sound, committed⟩, ⟨_, lastSound, traced⟩⟩ := replay_deploys_spec
    (sound_respected node.runtime block.deploys block.bonds [] bounded positive)
    (fun _ => ⟨le_rfl, fun activity impossible => by cases impossible⟩) replayed
  refine ⟨?_, ?_⟩
  · unfold postSupply
    rw [committed]
    exact sound.supply
  · rw [traced]
    exact lastSound.fair

omit [DecidableEq R] in
theorem solvent_lasting : Lasting fun state block _ => Solvent node genesis state block := by
  intro _ _ _ _ coherent extended known solvent
  refine ⟨solvent.genesis, fun j mem m parent found passed held => ?_, solvent.balances,
    solvent.operations⟩
  obtain ⟨described, before⟩ := known j mem
  have same : m = described := by
    have after := extended.known j described before
    rw [found] at after
    exact Option.some.inj after
  subst same
  obtain ⟨stored, heldBefore, _⟩ := coherent.described j m before
  have sameBlock : parent = stored := by
    have after := extended.stored j stored heldBefore
    rw [held] at after
    exact Option.some.inj after
  subst sameBlock
  exact solvent.parents j mem m parent before passed heldBefore

theorem accept_solvent (bounded : postSupply node genesis < 2 ^ 63)
    (settled : Settled (fun state block _ => Solvent node genesis state block) genesis state)
    (guard : ChargesPositive block.deploys ∧ (validParents state.dag block).length = 1)
    (accepted : validate node state.dag state.blockStore block = .ok m) :
    Solvent node genesis state block := by
  obtain ⟨_, stages⟩ := validate_ok accepted
  obtain ⟨parent, single⟩ := List.length_eq_one_iff.mp guard.2
  have merged := stages.merged
  rw [blockPreState, single] at merged
  obtain ⟨parentBlock, held, started⟩ := pre_state_single merged
  have isParent (hash : H) (found : BlockMetadata H R) (mem : hash ∈ block.justifications)
      (looked : state.dag.lookup hash = some found) (passed : found.validationFailed = false) :
      hash = parent := by
    have valid : hash ∈ validParents state.dag block := mem_valid_parents.mpr
      ⟨hash, mem, found, looked, passed, settled.coherent.key hash found looked⟩
    rw [single] at valid
    exact List.mem_singleton.mp valid
  have mem : parent ∈ validParents state.dag block := single ▸ List.mem_singleton_self parent
  obtain ⟨j, justified, found, looked, passed, _⟩ := mem_valid_parents.mp mem
  have sameParent := isParent j found justified looked passed
  subst sameParent
  have parentSupply : postSupply node parentBlock ≤ postSupply node genesis := by
    rcases settled.blocks j found parentBlock looked passed held with same | ⟨solvent, _⟩
    · rw [same]
    · exact solvent.genesis
  obtain ⟨lowered, fair⟩ := accepted_solvent (parentSupply.trans_lt bounded) stages
    (List.ne_nil_of_mem justified) guard.1 (stages.preStateHash.trans started)
  refine ⟨lowered.trans parentSupply, ?_, non_negative _, fair⟩
  intro other otherMember otherFound _ otherLooked otherPassed otherHeld
  have same := isParent other otherFound otherMember otherLooked otherPassed
  subst same
  rw [held] at otherHeld
  rw [← Option.some.inj otherHeld]
  exact lowered

/-- From a genesis whose supply fits in 64 bits, as long as every processed block charges no
negative amount and has one valid parent, every block in the DAG that did not fail is
solvent. -/
theorem supply_never_grows (genesis : BlockMessage H R E)
    (bounded : postSupply node genesis < 2 ^ 63) (actions : List (Action H R E))
    (guarded : Runs.Guarded (NodeState.step node) PaysOneParent actions
      (NodeState.genesis node genesis)) :
    ∀ hash m block,
      (actions.foldl (NodeState.step node) (NodeState.genesis node genesis)).dag.lookup hash =
        some m → m.validationFailed = false →
      (actions.foldl (NodeState.step node) (NodeState.genesis node genesis)).blockStore hash =
        some block → block ≠ genesis →
      Solvent node genesis
        (actions.foldl (NodeState.step node) (NodeState.genesis node genesis)) block := by
  have settled := run_settled solvent_lasting (fun state hash block m settled guard held accepted =>
      accept_solvent bounded settled (guard block held) accepted) guarded
  intro hash m block found passed held different
  rcases settled.blocks hash m block found passed held with same | ⟨solvent, _⟩
  · exact absurd same different
  · exact solvent

end Run

section Example

/-- A block on top of genesis whose only deploy has this limit and price. -/
def chargedBlock (phloLimit phloPrice : Int64) (balance : NonNegI64) : SampleBlock :=
  { sampleBlock 1 [0] with
    postStateHash := sampleState balance
    deploys := [sampleDeploy phloLimit phloPrice false] }

/-- A deploy with a negative limit is charged a negative amount: its block is accepted and
adds to the vault of the deployer. -/
theorem negative_charge_mints :
    let minting := chargedBlock (-5) 1 ⟨105, by decide⟩
    let final := [Action.receive minting, Action.process 1].foldl
      (NodeState.step sampleNode) (NodeState.genesis sampleNode sampleGenesis)
    (final.dag.lookup 1).map (·.validationFailed) = some false ∧
      (final.blockStore 1).map (·.postStateHash) = some minting.postStateHash ∧
      postSupply sampleNode sampleGenesis < 2 ^ 63 ∧
      postSupply sampleNode sampleGenesis < postSupply sampleNode minting := by
  decide +kernel

/-- A block that charges its deploy, processed on top of genesis. -/
theorem charge_is_solvent :
    let paying := chargedBlock 5 1 ⟨95, by decide⟩
    let final := [Action.receive paying, Action.process 1].foldl
      (NodeState.step sampleNode) (NodeState.genesis sampleNode sampleGenesis)
    (final.dag.lookup 1).map (·.validationFailed) = some false ∧
      Solvent sampleNode sampleGenesis final paying := by
  intro paying final
  have accepted : (final.dag.lookup 1).map (·.validationFailed) = some false := by decide +kernel
  have received : ((NodeState.genesis sampleNode sampleGenesis).step sampleNode
      (.receive paying)).blockStore 1 = some paying :=
    receive_stores (by decide +kernel) (by decide +kernel) rfl
  have held : final.blockStore 1 = some paying :=
    (congrFun (process_keeps_store _ 1) 1).trans received
  have different : paying ≠ sampleGenesis := fun same => by
    have hashes := congrArg BlockMessage.blockHash same
    cases hashes
  obtain ⟨m, found, passed⟩ := Option.map_eq_some_iff.mp accepted
  refine ⟨accepted, supply_never_grows sampleGenesis (by decide +kernel)
    [.receive paying, .process 1] ⟨trivial, ?_, trivial⟩ 1 m paying found passed held different⟩
  intro _ stored
  rw [received] at stored
  rw [← Option.some.inj stored]
  exact ⟨by decide +kernel, by decide +kernel⟩

end Example

end RChain.Casper
