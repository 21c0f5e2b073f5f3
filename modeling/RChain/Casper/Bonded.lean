import RChain.Casper.Acceptance

/-!
# Who extends the chain

An accepted block has a valid justification exactly when its number is not zero. Nothing
in the validation asks for the stake of the sender: a sender is bonded in the fringe that
its block sees only if it was bonded there to begin with.
-/

namespace RChain.Casper

open BitCodec Crypto Dag Native Steps List

variable {H R E Space Rand : Type} [LinearOrder H]

section Numbers

omit [LinearOrder H] in
theorem max_block_number_le {blocks : List (BlockMetadata H R)} {bound : Int} :
    maxBlockNumberMetadata blocks ≤ bound ↔ -1 ≤ bound ∧ ∀ b ∈ blocks, (b.blockNum : Int) ≤ bound := by
  unfold maxBlockNumberMetadata
  generalize (-1 : Int) = start
  induction blocks generalizing start with
  | nil => simp
  | cons _ _ ih => rw [foldl_cons, ih, max_le_iff, forall_mem_cons, and_assoc]

theorem block_number_ok {dag : BlockDag H R} {block : BlockMessage H R E}
    (numbered : blockNumber dag block = .ok (.ok ())) :
    ∃ metas, lookupJustifications dag block.justifications = .ok metas ∧ (block.blockNumber : Int) =
        maxBlockNumberMetadata (metas.filter fun m => !m.validationFailed) + 1 := by
  obtain ⟨metas, found, checked⟩ := bind_eq_ok.mp numbered
  have equal := of_decide_eq_true (verdict_ok.mp (Except.ok.inj checked))
  exact ⟨metas, found, equal.symm⟩

end Numbers

section Fringe

variable (node : Node H R E Space Rand) (dag : BlockDag H R)

/-- A justification of the block is known and did not fail. -/
def JustifiedByValid (block : BlockMessage H R E) : Prop :=
  ∃ j ∈ block.justifications, ∃ m, dag.lookup j = some m ∧ m.validationFailed = false

/-- The block has a valid justification, and its sender has a positive stake in the bonds that
validation finds for the fringe. -/
def ExtendsBonded (blockStore : BlockStore H R E) (block : BlockMessage H R E) : Prop :=
  JustifiedByValid dag block ∧ ∃ preState, blockPreState node dag blockStore block = .ok preState ∧
    0 < Ledger.held NonNegI64.amount preState.fringeBondsMap block.sender

/-- The stake of a validator in the DAG under the latest fringe of these blocks: that of the
metadata of the first of them while the fringe is empty, then that of the stored state. -/
def fringeStake (parents : List H) (validator : Validator) : Nat :=
  let prevFringe := latestFringe dag.msgMap (parents.filterMap dag.msgMap.lookup)
  if prevFringe = ∅ then
    match parents.filterMap dag.lookup with
    | [] => 0
    | first :: _ => Ledger.held NonNegI64.amount first.bondsMap validator
  else
    match dag.representation.fringeStates (prevFringe.image (·.id)) with
    | none => 0
    | some record =>
      Ledger.held NonNegI64.amount (node.runtime.nativeAt record.stateHash).bondsMap validator

variable {node dag}

theorem justified_iff {block : BlockMessage H R E}
    (numbered : blockNumber dag block = .ok (.ok ())) :
    JustifiedByValid dag block ↔ block.blockNumber ≠ 0 := by
  obtain ⟨metas, found, number⟩ := block_number_ok numbered
  constructor
  · rintro ⟨j, mem, m, looked, passed⟩
    have listed : m ∈ metas.filter fun m => !m.validationFailed := by
      rw [mem_filter]
      exact ⟨(lookups_mem found).mpr ⟨j, mem, looked⟩, by simpa using passed⟩
    have bound := (max_block_number_le.mp (le_refl _)).2 m listed
    omega
  · intro _
    cases valid : metas.filter fun m => !m.validationFailed with
    | nil =>
      rw [valid] at number
      have zero : (block.blockNumber : Int) = 0 := number
      omega
    | cons first =>
      have listed : first ∈ metas.filter fun m => !m.validationFailed :=
        valid ▸ mem_cons_self
      obtain ⟨known, passed⟩ := mem_filter.mp listed
      obtain ⟨j, mem, looked⟩ := (lookups_mem found).mp known
      exact ⟨j, mem, first, looked, by simpa using passed⟩

theorem messages_ok {hashes : List H} {messages : List (Message H Validator)}
    (found : lookupMessages dag hashes = .ok messages) :
    hashes.filterMap dag.msgMap.lookup = messages := by
  apply filterMap_of_forall₂
  refine (mapM_eq_ok found).imp fun hash msg here => ?_
  cases looked : dag.msgMap.lookup hash with
  | none =>
    rw [looked] at here
    cases here
  | some =>
    rw [looked] at here
    rw [Except.ok.inj here]

theorem pre_state_stake {parents : List H} {blockStore : BlockStore H R E}
    {preState : ParentsMergedState H R}
    (merged : getPreStateForParents node dag blockStore parents = .ok preState)
    (validator : Validator) :
    Ledger.held NonNegI64.amount preState.fringeBondsMap validator =
      fringeStake node dag parents validator := by
  unfold getPreStateForParents at merged
  by_cases empty : parents = []
  · rw [if_pos empty] at merged
    cases merged
  · rw [if_neg empty] at merged
    obtain ⟨justifications, known, merged⟩ := bind_eq_ok.mp merged
    obtain ⟨messages, mapped, merged⟩ := bind_eq_ok.mp merged
    dsimp only at merged
    unfold fringeStake
    rw [messages_ok mapped, (lookups_ok known).1]
    dsimp only
    cases stored : dag.representation.fringeStates
        ((latestFringe dag.msgMap messages).image (·.id)) with
    | none =>
      rw [stored] at merged
      cases merged
    | some record =>
      rw [stored] at merged
      obtain ⟨bonds, agreed, merged⟩ := bind_eq_ok.mp merged
      obtain ⟨_, _, merged⟩ := bind_eq_ok.mp merged
      obtain ⟨_, _, merged⟩ := bind_eq_ok.mp merged
      cases merged
      dsimp only
      unfold fringeBonds at agreed
      split_ifs at agreed ⊢ with noFringe
      · cases justifications with
        | nil =>
          rw [← Except.ok.inj agreed]
          rfl
        | cons =>
          dsimp only at agreed
          split_ifs at agreed
          rw [← Except.ok.inj agreed]
      · unfold computeBonds at agreed
        unfold NativeState.bondsMap
        cases leaf : (node.runtime.nativeAt record.stateHash).bonds with
        | none =>
          rw [leaf] at agreed
          cases agreed
        | some =>
          rw [leaf] at agreed
          rw [← Except.ok.inj agreed]
          rfl

/-- An accepted block extends the chain as a bonded validator exactly when its number is not
zero and the DAG holds a stake of its sender under the fringe. -/
theorem accepted_bonded_iff [DecidableEq R] (node : Node H R E Space Rand) (dag : BlockDag H R)
    (blockStore : BlockStore H R E) (block : BlockMessage H R E) (m : BlockMetadata H R)
    (accepted : validate node dag blockStore block = .ok m) :
    ExtendsBonded node dag blockStore block ↔
      block.blockNumber ≠ 0 ∧ 0 < fringeStake node dag (validParents dag block) block.sender := by
  obtain ⟨preState, stages⟩ := validate_ok accepted
  unfold ExtendsBonded
  rw [justified_iff stages.check.2.1]
  refine and_congr_right fun numbered => ?_
  obtain ⟨j, mem, m, looked, passed⟩ := (justified_iff stages.check.2.1).mpr numbered
  have parents := ne_nil_of_mem (mem_valid_parents.mpr ⟨j, mem, m, looked, passed, rfl⟩)
  have merged := stages.merged
  have computed : blockPreState node dag blockStore block =
      getPreStateForParents node dag blockStore (validParents dag block) := by
    unfold blockPreState
    split
    · exact absurd ‹_› parents
    · rfl
  constructor
  · rintro ⟨_, same, staked⟩
    rw [computed] at same
    rw [← pre_state_stake same]
    exact staked
  · intro staked
    refine ⟨preState, merged, ?_⟩
    rw [computed] at merged
    rw [pre_state_stake merged]
    exact staked

end Fringe

section Example

/-- A validator that nobody bonded. -/
def strangerValidator : Validator := ⟨List.replicate 65 1, rfl⟩

/-- A block of the stranger on top of genesis. -/
def strangerBlock : SampleBlock :=
  { sampleBlock 1 [0] with sender := strangerValidator, seqNum := 0 }

/-- A second genesis: no justification, and bonds that it makes up for its sender. -/
def groundlessBlock : SampleBlock :=
  { sampleBlock 0 [] with
    blockHash := 7
    sender := strangerValidator
    preStateHash := NativeState.empty
    bonds := Finmap.singleton strangerValidator sampleStake
    postStateHash := ⟨some (Finmap.singleton strangerValidator sampleStake), ∅⟩ }

/-- Both blocks are accepted after genesis: one has no justification at all, the sender of the
other has no stake. -/
theorem stranger_extends_chain :
    let state := NodeState.genesis sampleNode sampleGenesis
    let final := fun block : SampleBlock => [Action.receive block, Action.process block.blockHash].foldl
      (NodeState.step sampleNode) state
    ((final groundlessBlock).dag.lookup 7).map (·.validationFailed) = some false ∧
      groundlessBlock.justifications = [] ∧
      ((final strangerBlock).dag.lookup 1).map (·.validationFailed) = some false ∧
      fringeStake sampleNode state.dag (validParents state.dag strangerBlock)
        strangerBlock.sender = 0 := by
  decide +kernel

theorem bonded_block_extends :
    ExtendsBonded sampleNode (NodeState.genesis sampleNode sampleGenesis).dag
      (NodeState.genesis sampleNode sampleGenesis).blockStore (sampleBlock 1 [0]) := by
  have passes : (validate sampleNode (NodeState.genesis sampleNode sampleGenesis).dag
      (NodeState.genesis sampleNode sampleGenesis).blockStore (sampleBlock 1 [0])).isOk = true := by
    decide +kernel
  cases outcome : validate sampleNode (NodeState.genesis sampleNode sampleGenesis).dag
      (NodeState.genesis sampleNode sampleGenesis).blockStore (sampleBlock 1 [0]) with
  | error =>
    rw [outcome] at passes
    cases passes
  | ok m =>
    exact (accepted_bonded_iff sampleNode _ _ _ m outcome).mpr ⟨by decide, by decide +kernel⟩

end Example

end RChain.Casper
