import RChain.Casper.MultiParentCasper
import RChain.Casper.ReplayInvariant
import RChain.Lib.Runs

/-!
# What acceptance of a block means, and what a growing DAG keeps

A block is accepted when every stage of `validate` passed; `Accepted` names the stages.
`Coherent` is what every node state keeps: metadata is written once and describes the block
that is stored under its hash.
-/

namespace RChain.Casper

open BitCodec Crypto Dag Native Steps List Function

variable {H R E Space Rand : Type} [LinearOrder H]

section Checks

omit [LinearOrder H] in
theorem first_failure_passes {checks : List (Except (StoreError H) ValidBlockProcessing)}
    (passed : firstFailure checks = .ok (.ok ())) : ∀ check ∈ checks, check = .ok (.ok ()) := by
  fun_induction firstFailure checks with
  | case1 => simp
  | case2 _ ih => simpa using ih passed
  | case3 _ _ different => exact absurd passed fun passes => different passes

theorem verdict_ok {valid : Bool} {status : BlockStatus} :
    verdict valid status = .ok () ↔ valid = true := by
  cases valid <;> simp [verdict]

variable {hashes : List H} {dag : BlockDag H R} {metas : List (BlockMetadata H R)}

theorem lookups_ok (found : lookupJustifications dag hashes = .ok metas) :
    hashes.filterMap dag.lookup = metas ∧ ∀ hash ∈ hashes, ∃ m, dag.lookup hash = some m := by
  have each : List.Forall₂ (fun hash m => dag.lookup hash = some m) hashes metas := by
    refine (mapM_eq_ok found).imp fun hash m here => ?_
    cases looked : dag.lookup hash with
    | none =>
      rw [looked] at here
      cases here
    | some =>
      rw [looked] at here
      rw [Except.ok.inj here]
  refine ⟨filterMap_of_forall₂ each, fun hash mem => ?_⟩
  obtain ⟨m, _, looked⟩ := exists_of_forall₂ each mem
  exact ⟨m, looked⟩

theorem lookups_mem (found : lookupJustifications dag hashes = .ok metas) {m : BlockMetadata H R} :
    m ∈ metas ↔ ∃ j ∈ hashes, dag.lookup j = some m := by
  rw [← (lookups_ok found).1, mem_filterMap]

end Checks

section Accepted

variable {node : Node H R E Space Rand} {dag : BlockDag H R}
  {blockStore : BlockStore H R E} {block : BlockMessage H R E} {m : BlockMetadata H R}

variable (node dag blockStore block m) in
/-- The stages of validation that an accepted block went through. -/
structure Accepted (preState : ParentsMergedState H R) : Prop where
  summary : blockSummary dag blockStore block node.shardId deployLifespan node.minPhloPrice =
    .ok (.ok ())
  merged : blockPreState node dag blockStore block = .ok preState
  preStateHash : block.preStateHash = preState.preStateHash
  replayed : replayBlock node.runtime block (node.randomGenerator block) =
    .ok block.postStateHash
  bonds : computeBonds node.runtime block.postStateHash = (.ok block.bonds : Except (StoreError H) _)
  neglected : neglectedInvalidBlock dag block = .ok ()
  metadata : m = { BlockMetadata.fromBlock node.runtime.zeroHash block with
    validated := true
    validationFailed := false
    fringe := preState.fringe
    fringeStateHash := preState.fringeState }

omit [LinearOrder H] in
theorem require_ok {check : Except (StoreError H) ValidBlockProcessing}
    {described : BlockMetadata H R} {rest : Except (ValidateError H R) (BlockMetadata H R)} :
    require described check rest = .ok m ↔ check = .ok (.ok ()) ∧ rest = .ok m := by
  unfold require
  split
  · simp
  · simp
  · simp

variable {preState : ParentsMergedState H R}

theorem Accepted.check (accepted : Accepted node dag blockStore block m preState) :
    sequenceNumber dag block = .ok (.ok ()) ∧ blockNumber dag block = .ok (.ok ()) ∧
      futureTransaction block = .ok () ∧ transactionExpiration block deployLifespan = .ok () ∧
      repeatDeploy dag blockStore block deployLifespan = .ok (.ok ()) := by
  have passed := first_failure_passes accepted.summary
  simp only [mem_cons, not_mem_nil, or_false, forall_eq_or_imp, forall_eq] at passed
  obtain ⟨_, sequenced, numbered, _, future, expiration, _, repeats⟩ := passed
  exact ⟨sequenced, numbered, Except.ok.inj future, Except.ok.inj expiration, repeats⟩

theorem Accepted.compute_state (accepted : Accepted node dag blockStore block m preState) :
    ∃ mergeable, (replayComputeState node.runtime block (node.randomGenerator block)).1 =
      .ok (block.postStateHash, mergeable) := by
  have replayed := accepted.replayed
  unfold replayBlock at replayed
  cases computed : (replayComputeState node.runtime block (node.randomGenerator block)).1 with
  | error =>
    rw [computed] at replayed
    cases replayed
  | ok outcome =>
    rw [computed] at replayed
    dsimp only at replayed
    cases saved : node.runtime.saveMergeableChannels outcome.1 block.sender.bytes block.seqNum
        outcome.2 block.preStateHash with
    | error =>
      rw [saved] at replayed
      cases replayed
    | ok =>
      rw [saved] at replayed
      exact ⟨outcome.2, by rw [← Except.ok.inj replayed]⟩

theorem pre_state_single {parent : H}
    (merged : getPreStateForParents node dag blockStore [parent] = .ok preState) :
    ∃ parentBlock, blockStore parent = some parentBlock ∧
      preState.preStateHash = parentBlock.postStateHash := by
  unfold getPreStateForParents at merged
  rw [if_neg (cons_ne_nil parent [])] at merged
  obtain ⟨_, _, merged⟩ := bind_eq_ok.mp merged
  obtain ⟨_, _, merged⟩ := bind_eq_ok.mp merged
  dsimp only at merged
  split at merged
  · cases merged
  · obtain ⟨_, _, merged⟩ := bind_eq_ok.mp merged
    obtain ⟨_, _, merged⟩ := bind_eq_ok.mp merged
    obtain ⟨_, started, merged⟩ := bind_eq_ok.mp merged
    obtain ⟨parentBlock, held, started⟩ := bind_eq_ok.mp started
    cases merged
    cases started
    refine ⟨parentBlock, ?_, rfl⟩
    unfold getBlockUnsafe at held
    cases found : blockStore parent with
    | none =>
      rw [found] at held
      cases held
    | some =>
      rw [found] at held
      rw [Except.ok.inj held]

theorem mem_valid_parents {hash : H} :
    hash ∈ validParents dag block ↔ ∃ j ∈ block.justifications, ∃ found,
      dag.lookup j = some found ∧ found.validationFailed = false ∧ found.blockHash = hash := by
  unfold validParents
  simp only [mem_hash_set, mem_map, mem_filter, mem_filterMap]
  constructor
  · rintro ⟨found, ⟨⟨j, mem, looked⟩, passed⟩, same⟩
    exact ⟨j, mem, found, looked, by simpa using passed, same⟩
  · rintro ⟨j, mem, found, looked, passed, same⟩
    exact ⟨found, ⟨⟨j, mem, looked⟩, by simpa using passed⟩, same⟩

variable [DecidableEq R]

omit [LinearOrder H] in
theorem check_replay_ok (checked : checkReplay node preState block = .ok (.ok true)) :
    block.preStateHash = preState.preStateHash ∧
      replayBlock node.runtime block (node.randomGenerator block) = .ok block.postStateHash := by
  unfold checkReplay at checked
  split_ifs at checked with differs rejected
  · simp at checked
  · simp at checked
  · cases replayed : replayBlock node.runtime block (node.randomGenerator block) with
    | error failure =>
      rw [replayed] at checked
      cases failure <;> cases checked
    | ok =>
      rw [replayed] at checked
      dsimp only [handleErrors] at checked
      split_ifs at checked with same
      · exact ⟨not_not.mp differs, by rw [same]⟩
      · simp at checked

theorem validate_ok (accepted : validate node dag blockStore block = .ok m) :
    ∃ preState, Accepted node dag blockStore block m preState := by
  unfold validate at accepted
  obtain ⟨summary, accepted⟩ := require_ok.mp accepted
  cases checkpoint : validateBlockCheckpoint node dag blockStore block with
  | error =>
    rw [checkpoint] at accepted
    cases accepted
  | ok outcome =>
    rcases outcome with ⟨_, result⟩
    rw [checkpoint] at accepted
    unfold validateBlockCheckpoint at checkpoint
    obtain ⟨preState, merged, checkpoint⟩ := bind_eq_ok.mp checkpoint
    obtain ⟨_, replay, checkpoint⟩ := bind_eq_ok.mp checkpoint
    cases checkpoint
    cases result with
    | error => cases accepted
    | ok valid =>
      cases valid with
      | false => cases accepted
      | true =>
        obtain ⟨bonds, accepted⟩ := require_ok.mp accepted
        obtain ⟨neglected, accepted⟩ := require_ok.mp accepted
        obtain ⟨samePreState, replayed⟩ := check_replay_ok replay
        obtain ⟨computed, found, equal⟩ := bind_eq_ok.mp bonds
        have sameBonds : block.bonds = computed := by
          have passed := verdict_ok.mp (Except.ok.inj equal)
          exact of_decide_eq_true passed
        exact ⟨preState, summary, merged, samePreState, replayed, sameBonds ▸ found,
          Except.ok.inj neglected, (Except.ok.inj accepted).symm⟩

end Accepted

section Growth

theorem insert_metadata (dag : BlockDag H R) (block : BlockMetadata H R)
    (message : BlockMessage H R E) :
    dag.index.dagSet ⊆ (dag.insert block message).2.index.dagSet ∧
      ((dag.insert block message).2.metadata = dag.metadata ∨ block.blockHash ∉ dag.index.dagSet ∧
          block.blockHash ∈ (dag.insert block message).2.index.dagSet ∧
          (dag.insert block message).2.metadata = dag.metadata.insert block.blockHash block) := by
  have grown : dag.index.dagSet ⊆ (addBlockToDagState block dag.index).dagSet :=
    Finset.subset_insert _ _
  have added : block.blockHash ∈ (addBlockToDagState block dag.index).dagSet :=
    Finset.mem_insert_self _ _
  unfold BlockDag.insert BlockDag.addMetadata
  by_cases known : block.blockHash ∈ dag.index.dagSet
  · rw [if_pos known]
    exact ⟨Finset.Subset.refl _, .inl rfl⟩
  · rw [if_neg known]
    split
    · exact ⟨Finset.Subset.refl _, .inl rfl⟩
    · dsimp only
      by_cases valid : validateDagState (addBlockToDagState block dag.index) = true
      · rw [if_pos valid]
        dsimp only
        split
        · exact ⟨grown, .inr ⟨known, added, rfl⟩⟩
        · split
          · exact ⟨grown, .inr ⟨known, added, rfl⟩⟩
          · split
            · exact ⟨grown, .inr ⟨known, added, rfl⟩⟩
            · split <;> exact ⟨grown, .inr ⟨known, added, rfl⟩⟩
      · rw [if_neg valid]
        exact ⟨grown, .inl rfl⟩

variable {dag : BlockDag H R} {block : BlockMessage H R E} {m : BlockMetadata H R} {hash : H}
  {message : BlockMessage H R E}

theorem insert_lookup {block : BlockMetadata H R}
    (found : (dag.insert block message).2.lookup hash = some m) :
    dag.lookup hash = some m ∨ hash = block.blockHash ∧ m = block ∧
      block.blockHash ∉ dag.index.dagSet ∧
      block.blockHash ∈ (dag.insert block message).2.index.dagSet := by
  unfold BlockDag.lookup at found ⊢
  rcases (insert_metadata dag block message).2 with same | ⟨fresh, indexed, written⟩
  · rw [same] at found
    exact .inl found
  · rw [written] at found
    by_cases here : hash = block.blockHash
    · subst here
      rw [AList.lookup_insert] at found
      exact .inr ⟨rfl, (Option.some.inj found).symm, fresh, indexed⟩
    · rw [AList.lookup_insert_ne here] at found
      exact .inl found

/-- A later state knows everything that an earlier one knew. -/
structure Extends (earlier later : NodeState H R E) : Prop where
  stored : ∀ hash block, earlier.blockStore hash = some block →
    later.blockStore hash = some block
  known : ∀ hash m, earlier.dag.lookup hash = some m → later.dag.lookup hash = some m

variable {node : Node H R E Space Rand} {state : NodeState H R E}

/-- The metadata of a block, apart from the result of its validation. -/
structure Describes (block : BlockMessage H R E) (m : BlockMetadata H R) : Prop where
  blockHash : m.blockHash = block.blockHash
  blockNum : m.blockNum = block.blockNumber
  sender : m.sender = block.sender
  justifications : m.justifications = hashSet block.justifications

structure Coherent (state : NodeState H R E) : Prop where
  stored : ∀ hash block, state.blockStore hash = some block → block.blockHash = hash
  indexed : ∀ hash m, state.dag.lookup hash = some m → hash ∈ state.dag.index.dagSet
  described : ∀ hash m, state.dag.lookup hash = some m →
    ∃ block, state.blockStore hash = some block ∧ Describes block m

theorem Coherent.key (coherent : Coherent state) (hash : H) (m : BlockMetadata H R)
    (found : state.dag.lookup hash = some m) : m.blockHash = hash := by
  obtain ⟨block, held, describes⟩ := coherent.described hash m found
  rw [describes.blockHash]
  exact coherent.stored hash block held

theorem genesis_store {genesis : BlockMessage H R E}
    (held : (NodeState.genesis node genesis).blockStore hash = some block) :
    block = genesis ∧ hash = genesis.blockHash := by
  dsimp only [NodeState.genesis] at held
  by_cases here : hash = genesis.blockHash
  · rw [here, update_self] at held
    exact ⟨(Option.some.inj held).symm, here⟩
  · rw [update_of_ne here] at held
    cases held

theorem coherent_genesis (genesis : BlockMessage H R E) :
    Coherent (NodeState.genesis node genesis) := by
  refine ⟨fun hash block held => ?_, fun hash m found => ?_, fun hash m found => ?_⟩
  · obtain ⟨same, here⟩ := genesis_store held
    rw [same, here]
  · rcases insert_lookup found with before | ⟨here, _, _, indexed⟩
    · cases before
    · rw [here]
      exact indexed
  · rcases insert_lookup found with before | ⟨here, same, _, _⟩
    · cases before
    · refine ⟨genesis, ?_, ?_⟩
      · dsimp only [NodeState.genesis]
        rw [here]
        exact update_self (β := fun _ => Option (BlockMessage H R E)) _ _ _
      · rw [same]
        exact ⟨rfl, rfl, rfl, rfl⟩

theorem insert_known {block : BlockMetadata H R}
    (indexed : ∀ hash m, dag.lookup hash = some m → hash ∈ dag.index.dagSet)
    (known : dag.lookup hash = some m) :
    (dag.insert block message).2.lookup hash = some m := by
  unfold BlockDag.lookup
  rcases (insert_metadata dag block message).2 with same | ⟨fresh, _, written⟩
  · rw [same]
    exact known
  · rw [written]
    by_cases here : hash = block.blockHash
    · exact absurd (here ▸ indexed hash m known) fresh
    · rw [AList.lookup_insert_ne here]
      exact known

/-- Validation answers with a description of the block, marked as failed in an error. -/
def Reported (block : BlockMessage H R E) :
    Except (ValidateError H R) (BlockMetadata H R) → Prop
  | .ok m => Describes block m
  | .error (.validationFailed m _) => Describes block m ∧ m.validationFailed = true
  | .error (.internal _) => True

theorem describes_mark_failed (describes : Describes block m) : Describes block (markFailed m) :=
  ⟨describes.blockHash, describes.blockNum, describes.sender, describes.justifications⟩

theorem require_reported {check : Except (StoreError H) ValidBlockProcessing}
    {rest : Except (ValidateError H R) (BlockMetadata H R)} (describes : Describes block m)
    (reported : Reported block rest) : Reported block (require m check rest) := by
  unfold require
  split
  · exact reported
  · exact ⟨describes_mark_failed describes, rfl⟩
  · trivial

variable [DecidableEq R]

theorem validate_reported (dag : BlockDag H R) (blockStore : BlockStore H R E)
    (block : BlockMessage H R E) :
    Reported block (validate node dag blockStore block) := by
  apply require_reported ⟨rfl, rfl, rfl, rfl⟩
  cases checkpoint : validateBlockCheckpoint node dag blockStore block with
  | error => trivial
  | ok outcome =>
    rcases outcome with ⟨described, result⟩
    have describes : Describes block described := by
      obtain ⟨_, _, checkpoint⟩ := bind_eq_ok.mp checkpoint
      obtain ⟨_, _, checkpoint⟩ := bind_eq_ok.mp checkpoint
      cases checkpoint
      exact ⟨rfl, rfl, rfl, rfl⟩
    cases result with
    | error => exact ⟨describes_mark_failed describes, rfl⟩
    | ok valid =>
      cases valid with
      | false => exact ⟨describes_mark_failed describes, rfl⟩
      | true => exact require_reported describes (require_reported describes describes)

/-- A step does nothing, stores a block under a vacant hash, or inserts the result of
validating a stored block. -/
inductive Stepped (node : Node H R E Space Rand) (state : NodeState H R E) :
    Action H R E → NodeState H R E → Prop
  | idle (action : Action H R E) : Stepped node state action state
  | store (block : BlockMessage H R E) (vacant : state.blockStore block.blockHash = none)
      (ofInterest : isOfInterest node block = true) :
      Stepped node state (.receive block) { state with
        blockStore := Function.update state.blockStore block.blockHash (some block) }
  | insert (hash : H) (block : BlockMessage H R E) (m : BlockMetadata H R)
      (held : state.blockStore hash = some block) (describes : Describes block m)
      (passed : m.validationFailed = false →
        validate node state.dag state.blockStore block = .ok m) :
      Stepped node state (.process hash)
        { state with dag := (state.dag.insert m block).2 }

theorem step_stepped (action : Action H R E) :
    Stepped node state action (state.step node action) := by
  cases action with
  | receive block =>
    simp only [NodeState.step]
    split_ifs with wanted
    · cases vacant : state.blockStore block.blockHash with
      | some => exact .idle _
      | none => exact .store block vacant (Bool.and_eq_true_iff.mp wanted).1
    · exact .idle _
  | process hash =>
    simp only [NodeState.step]
    cases held : state.blockStore hash with
    | none => exact .idle _
    | some block =>
      dsimp only
      split_ifs with ready
      · have reported : Reported block (validate node state.dag state.blockStore block) :=
          validate_reported state.dag state.blockStore block
        unfold validateAndAddToDag
        cases outcome : validate node state.dag state.blockStore block with
        | ok m =>
          rw [outcome] at reported
          exact .insert hash block m held reported fun _ => outcome
        | error failure =>
          rw [outcome] at reported
          cases failure with
          | internal => exact .idle _
          | validationFailed m =>
            refine .insert hash block m held reported.1 fun passed => ?_
            rw [reported.2] at passed
            cases passed
      · exact .idle _

theorem receive_stores (wanted : isOfInterest node block = true)
    (recent : checkIfKnown state.dag block = false)
    (vacant : state.blockStore block.blockHash = none) :
    (state.step node (.receive block)).blockStore block.blockHash = some block := by
  simp only [NodeState.step, wanted, recent, vacant, Bool.not_false, Bool.and_self, if_true,
    update_self]

theorem process_keeps_store (state : NodeState H R E) (hash : H) :
    (state.step node (.process hash)).blockStore = state.blockStore := by
  simp only [NodeState.step]
  split
  · rfl
  · split_ifs <;> rfl

variable {action : Action H R E} {next : NodeState H R E}

theorem Stepped.extends (stepped : Stepped node state action next) (coherent : Coherent state) :
    Extends state next := by
  cases stepped with
  | idle => exact ⟨fun _ _ => id, fun _ _ => id⟩
  | store block vacant =>
    refine ⟨fun hash other held => ?_, fun _ _ => id⟩
    have different : hash ≠ block.blockHash := by
      rintro rfl
      rw [vacant] at held
      cases held
    dsimp only
    rw [update_of_ne different]
    exact held
  | insert => exact ⟨fun _ _ => id, fun _ _ known => insert_known coherent.indexed known⟩

theorem Stepped.coherent (stepped : Stepped node state action next) (coherent : Coherent state) :
    Coherent next := by
  have extended := stepped.extends coherent
  cases stepped with
  | idle => exact coherent
  | store block =>
    refine ⟨fun hash other held => ?_, coherent.indexed, fun hash m found => ?_⟩
    · dsimp only at held
      by_cases here : hash = block.blockHash
      · rw [here, update_self] at held
        rw [here, Option.some.inj held]
      · rw [update_of_ne here] at held
        exact coherent.stored hash other held
    · obtain ⟨other, held, describes⟩ := coherent.described hash m found
      exact ⟨other, extended.stored hash other held, describes⟩
  | insert hash block m held describes =>
    have key := coherent.stored hash block held
    refine ⟨coherent.stored, fun other found known => ?_, fun other found known => ?_⟩
    · rcases insert_lookup known with before | ⟨here, _, _, indexed⟩
      · exact (insert_metadata _ _ _).1 (coherent.indexed other found before)
      · rw [here]
        exact indexed
    · rcases insert_lookup known with before | ⟨here, same, _, _⟩
      · exact coherent.described other found before
      · rw [here, same, describes.blockHash, key]
        exact ⟨block, held, describes⟩

theorem Stepped.accepts (stepped : Stepped node state action next) (coherent : Coherent state)
    (found : next.dag.lookup hash = some m) (passed : m.validationFailed = false) :
    state.dag.lookup hash = some m ∨
      ∃ block, action = .process hash ∧ state.blockStore hash = some block ∧
        validate node state.dag state.blockStore block = .ok m := by
  cases stepped with
  | idle | store => exact .inl found
  | insert processed block _ held describes accepted =>
    have key := coherent.stored processed block held
    rcases insert_lookup found with before | ⟨here, same, _, _⟩
    · exact .inl before
    · rw [describes.blockHash, key] at here
      subst here same
      exact .inr ⟨block, rfl, held, accepted passed⟩

end Growth

section Runs

def JustificationsKnown (state : NodeState H R E) (block : BlockMessage H R E) : Prop :=
  ∀ j ∈ block.justifications, ∃ m, state.dag.lookup j = some m

/-- Every block that did not fail is genesis or has the property, with its justifications
known. -/
structure Settled (property : NodeState H R E → BlockMessage H R E → BlockMetadata H R → Prop)
    (genesis : BlockMessage H R E) (state : NodeState H R E) : Prop where
  coherent : Coherent state
  blocks : ∀ hash m block, state.dag.lookup hash = some m → m.validationFailed = false →
    state.blockStore hash = some block →
    block = genesis ∨ property state block m ∧ JustificationsKnown state block

def Lasting (property : NodeState H R E → BlockMessage H R E → BlockMetadata H R → Prop) : Prop :=
  ∀ state later block m, Coherent state → Extends state later →
    JustificationsKnown state block → property state block m → property later block m

variable {node : Node H R E Space Rand} {genesis : BlockMessage H R E}
  {property : NodeState H R E → BlockMessage H R E → BlockMetadata H R → Prop}
  {guard : NodeState H R E → Action H R E → Prop}

theorem settled_genesis : Settled property genesis (NodeState.genesis node genesis) :=
  ⟨coherent_genesis genesis, fun _ _ _ _ _ held => .inl (genesis_store held).1⟩

section

variable [DecidableEq R] (lasting : Lasting property)
  (accept : ∀ state hash block m, Settled property genesis state →
    guard state (.process hash) → state.blockStore hash = some block →
    validate node state.dag state.blockStore block = .ok m → property state block m)

include lasting accept

theorem settled_step {state : NodeState H R E} {action : Action H R E}
    (settled : Settled property genesis state) (guarded : guard state action) : Settled property genesis (state.step node action) := by
  have stepped : Stepped node state action (state.step node action) := step_stepped action
  have extended := stepped.extends settled.coherent
  have keep {block : BlockMessage H R E} {m : BlockMetadata H R}
      (holds : property state block m) (known : JustificationsKnown state block) :
      property (state.step node action) block m ∧
        JustificationsKnown (state.step node action) block := by
    refine ⟨lasting state _ block m settled.coherent extended known holds, fun j mem => ?_⟩
    obtain ⟨described, looked⟩ := known j mem
    exact ⟨described, extended.known j described looked⟩
  refine ⟨stepped.coherent settled.coherent, fun hash m block found passed held => ?_⟩
  have sameBlock {stored : BlockMessage H R E} (before : state.blockStore hash = some stored) :
      block = stored := by
    have after := extended.stored hash stored before
    rw [held] at after
    exact Option.some.inj after
  rcases stepped.accepts settled.coherent found passed with
    before | ⟨stored, rfl, heldBefore, accepted⟩
  · obtain ⟨stored, heldBefore, _⟩ := settled.coherent.described hash m before
    rw [sameBlock heldBefore]
    rcases settled.blocks hash m stored before passed heldBefore with same | ⟨holds, known⟩
    · exact .inl same
    · exact .inr (keep holds known)
  · rw [sameBlock heldBefore]
    obtain ⟨_, stages⟩ := validate_ok accepted
    obtain ⟨_, found, _⟩ := bind_eq_ok.mp stages.check.2.1
    exact .inr (keep (accept state hash stored m settled guarded heldBefore accepted)
      (lookups_ok found).2)

/-- The rule for runs: a lasting property that every accepted block has, given that the
blocks before it have it, holds of every block of every guarded run. -/
theorem run_settled {actions : List (Action H R E)}
    (guarded : Runs.Guarded (NodeState.step node) guard actions (NodeState.genesis node genesis)) :
    Settled property genesis
      (actions.foldl (NodeState.step node) (NodeState.genesis node genesis)) :=
  Runs.guarded_invariant (Settled property genesis)
    (fun _ _ settled guard => settled_step lasting accept settled guard) actions _
    settled_genesis guarded

end

variable (node genesis) in
/-- Apart from genesis, everything stored passed the checks of the receiver. -/
structure Trusted (state : NodeState H R E) : Prop where
  coherent : Coherent state
  received : ∀ hash block, state.blockStore hash = some block →
    block = genesis ∨ isOfInterest node block = true

variable [DecidableEq R]

theorem trusted_step {state : NodeState H R E} (trusted : Trusted node genesis state)
    (action : Action H R E) :
    Trusted node genesis (state.step node action) ∧ Extends state (state.step node action) := by
  have stepped : Stepped node state action (state.step node action) := step_stepped action
  refine ⟨⟨stepped.coherent trusted.coherent, fun hash block held => ?_⟩,
    stepped.extends trusted.coherent⟩
  generalize state.step node action = next at stepped held
  cases stepped with
  | idle | insert => exact trusted.received hash block held
  | store other _ ofInterest =>
    by_cases here : hash = other.blockHash
    · simp only [here, update_self, Option.some.injEq] at held
      exact .inr (held ▸ ofInterest)
    · simp only [update_of_ne here] at held
      exact trusted.received hash block held

variable (node genesis) in
/-- Nothing that a node stored or validated is lost or replaced by later actions, whatever they
are, and no block gets into its store unchecked. -/
theorem storage_append_only (earlier later : List (Action H R E)) :
    let before := earlier.foldl (NodeState.step node) (NodeState.genesis node genesis)
    let after := later.foldl (NodeState.step node) before
    Extends before after ∧ Trusted node genesis after := by
  intro before
  have started : Trusted node genesis before := foldlRecOn _ _
    ⟨coherent_genesis genesis, fun _ _ held => .inl (genesis_store held).1⟩
    fun _ trusted action _ => (trusted_step trusted action).1
  refine foldlRecOn (motive := fun state => Extends before state ∧ Trusted node genesis state)
    later _ ⟨⟨fun _ _ => id, fun _ _ => id⟩, started⟩ ?_
  rintro state ⟨kept, trusted⟩ action _
  obtain ⟨next, added⟩ := trusted_step trusted action
  exact ⟨⟨fun hash block held => added.stored hash block (kept.stored hash block held),
    fun hash m known => added.known hash m (kept.known hash m known)⟩, next⟩

end Runs

end RChain.Casper
