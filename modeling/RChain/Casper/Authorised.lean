import RChain.Casper.Acceptance

/-!
# Which keys a block acts for

A replay charges the deployers of the block and lends their keys to their programs, and
no other key. Nothing between the wire and the replay asks for the signature of a deploy,
so the keys are those of owners who signed exactly when the signatures in the block verify.
-/

namespace RChain.Casper

open BitCodec Crypto Dag Native Steps

def Activity.key : Activity → Option PublicKey
  | .operation (.system (.preCharge deployer _)) _ _ _ => some deployer
  | .operation _ _ _ _ => none
  | .evaluation env _ _ _ => some env.deployerId

section Replay

variable {R E Space Rand : Type}

def KeysOf (deploys : List (ProcessedDeploy E)) (machine : Machine Space) : Prop :=
  ∀ activity ∈ machine.trace, ∀ key ∈ activity.key,
    ∃ processed ∈ deploys, processed.deploy.deployer = key

variable {deploys : List (ProcessedDeploy E)}

theorem keys_log (machine : Machine Space) {activity : Activity} (keys : KeysOf deploys machine)
    (used : ∀ key ∈ activity.key, ∃ processed ∈ deploys, processed.deploy.deployer = key) :
    KeysOf deploys (machine.log activity) := by
  intro earlier mem
  rcases List.mem_cons.mp mem with rfl | before
  · exact used
  · exact keys earlier before

theorem keys_calls (revAddress : PublicKey → String) (calls : List (Process × List Value))
    (machine : Machine Space) (keys : KeysOf deploys machine) :
    KeysOf deploys (machine.performCalls revAddress calls).2 := by
  induction calls generalizing machine with
  | nil => exact keys
  | cons call _ ih =>
    obtain ⟨process, args⟩ := call
    have called : KeysOf deploys (machine.afterCall revAddress process args) :=
      keys_log { machine with native := _ } keys fun key used => by cases used
    unfold Machine.performCalls
    split
    · exact called
    · exact ih _ called

theorem keys_respected (runtime : Runtime R E Space Rand) (withCostAccounting : Bool)
    (bonds : Bonds) (vaults : List (String × NonNegI64)) :
    Respected runtime deploys withCostAccounting bonds vaults
      (fun machine : Machine Space => KeysOf deploys machine) where
  space := fun _ _ keys => keys
  install := fun _ _ keys => keys
  charge := fun _ machine processed mem _ _ keys =>
    keys_log { machine with native := _ } keys fun key used =>
      ⟨processed, mem, Option.some.inj used⟩
  refund := fun machine _ keys =>
    keys_log { machine with native := _ } keys fun key used => by cases used
  closeBlock := fun machine keys =>
    keys_log { machine with native := _ } keys fun key used => by cases used
  slash := fun machine _ keys =>
    keys_log { machine with native := _ } keys fun key used => by cases used
  program := fun machine processed mem evaluation fallback keys => by
    have called := keys_calls runtime.revAddress evaluation.calls machine keys
    unfold runProgram
    dsimp only
    split_ifs
    · exact keys_log _ called fun key used => ⟨processed, mem, Option.some.inj used⟩
    · exact keys_log _ called fun key used => ⟨processed, mem, Option.some.inj used⟩

end Replay

section Acceptance

variable {H R E Space Rand : Type} [LinearOrder H] [DecidableEq R]

theorem replay_keys {node : Node H R E Space Rand} {dag : BlockDag H R}
    {blockStore : BlockStore H R E} {block : BlockMessage H R E} {m : BlockMetadata H R}
    (accepted : validate node dag blockStore block = .ok m) :
    ∀ activity ∈ (replayComputeState node.runtime block (node.randomGenerator block)).2,
      ∀ key ∈ activity.key, ∃ processed ∈ block.deploys, processed.deploy.deployer = key := by
  obtain ⟨_, stages⟩ := validate_ok accepted
  obtain ⟨_, replayed⟩ := stages.compute_state
  obtain ⟨_, _, keys, traced⟩ := replay_deploys_spec
    (keys_respected node.runtime (!block.justifications.isEmpty) block.bonds [])
    (fun _ activity impossible => by cases impossible) replayed
  unfold replayComputeState
  rw [traced]
  exact keys

/-- Every deploy of the block carries a signature that verifies, and every key that its
replay charges or lends is the key of an owner who signed a deploy of the block. -/
def Authorised (node : Node H R E Space Rand) (signed : PublicKey → DeployData → Prop)
    (block : BlockMessage H R E) : Prop :=
  (∀ processed ∈ block.deploys,
    processed.deploy.verifySignature node.primitives node.encodeDeploy = true) ∧
  ∀ activity ∈ (replayComputeState node.runtime block (node.randomGenerator block)).2,
    ∀ key ∈ activity.key, ∃ processed ∈ block.deploys,
      processed.deploy.deployer = key ∧ signed key processed.deploy.data

/-- A signature scheme is unforgeable when only the owner of a key makes signatures that
verify for it. -/
theorem accepted_authorised_iff (node : Node H R E Space Rand)
    (signed : PublicKey → DeployData → Prop)
    (unforgeable : ∀ deploy : SignedDeployData,
      deploy.verifySignature node.primitives node.encodeDeploy = true →
      signed deploy.deployer deploy.data)
    (dag : BlockDag H R) (blockStore : BlockStore H R E) (block : BlockMessage H R E)
    (m : BlockMetadata H R) (accepted : validate node dag blockStore block = .ok m) :
    Authorised node signed block ↔ ∀ processed ∈ block.deploys,
      processed.deploy.verifySignature node.primitives node.encodeDeploy = true := by
  constructor
  · intro authorised
    exact authorised.1
  · intro verified
    refine ⟨verified, fun activity member key used => ?_⟩
    obtain ⟨processed, held, same⟩ := replay_keys accepted activity member key used
    subst same
    exact ⟨processed, held, rfl, unforgeable processed.deploy (verified processed held)⟩

end Acceptance

section Example

/-- A block with one deploy, charged to the deployer's vault. -/
def oneDeployBlock : SampleBlock :=
  { sampleBlock 1 [0] with
    postStateHash := sampleState ⟨95, by decide⟩
    deploys := [sampleDeploy 5 1 false] }

/-- The block of an unsigned deploy is received and accepted, and takes the charge out of the
vault of a key whose owner signed nothing. -/
theorem unsigned_deploy_accepted :
    let state := NodeState.genesis sampleNode sampleGenesis
    let final := [Action.receive oneDeployBlock, Action.process 1].foldl
      (NodeState.step sampleNode) state
    (final.dag.lookup 1).map (·.validationFailed) = some false ∧
      (∀ processed ∈ oneDeployBlock.deploys, processed.deploy.verifySignature
        sampleNode.primitives sampleNode.encodeDeploy = false) ∧
      ((sampleNode.runtime.nativeAt sampleGenesis.postStateHash).vaultBalance "vault").value = 100 ∧
      ((sampleNode.runtime.nativeAt oneDeployBlock.postStateHash).vaultBalance "vault").value =
        95 := by
  decide +kernel

/-- A node to which one signature over a deploy verifies, that of the sample key over `Nil`, and
every one over a block hash. -/
def signingNode : Node Nat NativeState Unit Unit Unit :=
  { sampleNode with
    encodeDeploy := fun data => 1 :: textBytes data.term
    primitives := { sampleNode.primitives with
      verify := fun alg data sig key => alg = .secp256k1 &&
        (data = [0] || (sig = [1] && key = sampleKey && data = 1 :: textBytes "Nil")) } }

def SignedNil (key : PublicKey) (data : DeployData) : Prop :=
  key = sampleKey ∧ textBytes data.term = textBytes "Nil"

theorem signing_unforgeable (deploy : SignedDeployData)
    (verified : deploy.verifySignature signingNode.primitives signingNode.encodeDeploy = true) :
    SignedNil deploy.deployer deploy.data := by
  unfold SignedDeployData.verifySignature at verified
  split at verified
  · cases verified
  · rename_i alg _
    cases alg with
    | secp256k1 =>
      have checked : (true && (decide (1 :: textBytes deploy.data.term = [0]) ||
          (decide (deploy.sig = [1]) && decide (deploy.deployer = sampleKey) &&
            decide (1 :: textBytes deploy.data.term = 1 :: textBytes "Nil")))) = true := verified
      simp only [Bool.true_and, Bool.or_eq_true, Bool.and_eq_true, decide_eq_true_eq] at checked
      rcases checked with block | ⟨⟨_, key⟩, term⟩
      · exact absurd (List.cons.inj block).1 (by decide)
      · exact ⟨key, (List.cons.inj term).2⟩
    | secp256k1Eth => simp [signingNode] at verified

theorem signed_deploy_authorised : Authorised signingNode SignedNil oneDeployBlock ∧
    { (sampleDeploy 5 1 false).deploy with sig := [2] }.verifySignature signingNode.primitives
      signingNode.encodeDeploy = false := by
  have accepted : ∃ m, validate signingNode (NodeState.genesis signingNode sampleGenesis).dag
      (NodeState.genesis signingNode sampleGenesis).blockStore oneDeployBlock = .ok m := by
    have passes : (validate signingNode (NodeState.genesis signingNode sampleGenesis).dag
        (NodeState.genesis signingNode sampleGenesis).blockStore oneDeployBlock).isOk = true := by
      decide +kernel
    cases outcome : validate signingNode (NodeState.genesis signingNode sampleGenesis).dag
        (NodeState.genesis signingNode sampleGenesis).blockStore oneDeployBlock with
    | ok m => exact ⟨m, rfl⟩
    | error =>
      rw [outcome] at passes
      cases passes
  obtain ⟨m, accepted⟩ := accepted
  exact ⟨(accepted_authorised_iff signingNode SignedNil signing_unforgeable _ _ oneDeployBlock m
    accepted).mpr (by decide +kernel), by decide +kernel⟩

end Example

end RChain.Casper
