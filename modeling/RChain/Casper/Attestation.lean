import RChain.Casper.Sync

/-!
# When a proposer attests

Source: the suppression of attestations in `create_block` of
`casper/src/blocks/proposer/proposer.rs`.

The blocks that count as newly seen are those that the justifications of the creator's latest
message see and the parents do not. The parents see whatever the latest message, which is one of
them, sees, so the difference is empty and the proposer never attests.
-/

namespace RChain.Casper

open Dag List Native Sorted Steps

variable {H R E F Space Rand : Type} [LinearOrder H] [DecidableEq F]

section Proposer

variable (dag : BlockDag H R) (blockStore : BlockStore H R E) (preState : ParentsMergedState H R)
  (preStateBonds : Bonds) (creatorsValidator : Validator)

def seenBlocks (h : H) : Finset H :=
  ((dag.msgMap.lookup h).map (·.seen)).getD ∅

def parentSeen : Finset H :=
  (preState.justifications.map (·.blockHash)).toFinset.biUnion (seenBlocks dag)

def conflictSet : Finset H :=
  parentSeen dag preState \ preState.fringe.biUnion (seenBlocks dag)

def hasDeploys (b : BlockMessage H R E) : Bool :=
  !b.systemDeploys.isEmpty || !b.deploys.isEmpty

def blocksOf (hashes : Finset H) : List (BlockMessage H R E) :=
  (elements hashes).filterMap blockStore

def nothingToFinalize : Bool :=
  !(blocksOf blockStore (conflictSet dag preState)).any hasDeploys

def creatorsLatest : Option (BlockMetadata H R) :=
  preState.justifications.find? (·.sender = creatorsValidator)

def newlySeen : Finset H :=
  match creatorsLatest preState creatorsValidator with
  | some m => m.justifications.toFinset.biUnion (seenBlocks dag) \ parentSeen dag preState
  | none => ∅

def stakeAmong (chosen : Validator → Bool) : Nat :=
  (((orderedBonds preStateBonds).filter fun entry => chosen entry.1).map (·.2.amount)).sum

/-- There is a state transition among the blocks, or their senders hold more than two thirds of the
stake. -/
def attests (newBlocks : List (BlockMessage H R E)) : Bool :=
  newBlocks.any hasDeploys ||
    isSuperMajority (stakeAmong preStateBonds (· ∈ newBlocks.map (·.sender)))
      (stakeAmong preStateBonds fun _ => true)

def suppressAttestation : Bool :=
  nothingToFinalize dag blockStore preState ||
    !attests preStateBonds (blocksOf blockStore (newlySeen dag preState creatorsValidator))

/-- The blocks that the parents see and the creator's latest message does not. To a creator without
a message among the justifications none is new, as in the source: it has no earlier view that a
block could be new to, and so nothing to attest. -/
def unseen : Finset H :=
  match creatorsLatest preState creatorsValidator with
  | some m => parentSeen dag preState \ seenBlocks dag m.blockHash
  | none => ∅

end Proposer

variable {fringeHash : Finset H → F} {stores : DagStores H R F} {preState : ParentsMergedState H R}
  {node : Node H R E Space Rand} {blockStore : BlockStore H R E} {parents : List H}

theorem seen_of_justification (tracks : Tracks fringeHash stores) {m : BlockMetadata H R}
    (held : stores.dag.lookup m.blockHash = some m) {j : H} (justified : j ∈ m.justifications) :
    seenBlocks stores.dag j ⊆ seenBlocks stores.dag m.blockHash := by
  obtain ⟨_, found, sent⟩ := tracks.messages m.blockHash m held
  obtain ⟨_, among, here⟩ := mapM_some_mem found justified
  simp only [seenBlocks, sent, here, Option.map_some, Option.getD_some, blockMessage]
  exact (Finset.subset_biUnion_of_mem (·.seen) (mem_toFinset.mpr among)).trans
    (Finset.subset_insert _ _)

omit [LinearOrder H] in
theorem attests_nothing (bonds : Bonds) :
    attests bonds ([] : List (BlockMessage H R E)) = false := by
  simp [attests, isSuperMajority, stakeAmong]

section Attestation

variable (tracks : Tracks fringeHash stores)
  (merged : getPreStateForParents node stores.dag blockStore parents = .ok preState)

include tracks merged

theorem pre_state_held : ∀ m ∈ preState.justifications, stores.dag.lookup m.blockHash = some m := by
  unfold getPreStateForParents at merged
  split_ifs at merged
  obtain ⟨_, found, merged⟩ := bind_eq_ok.mp merged
  obtain ⟨_, _, merged⟩ := bind_eq_ok.mp merged
  dsimp only at merged
  split at merged
  · cases merged
  obtain ⟨_, _, merged⟩ := bind_eq_ok.mp merged
  obtain ⟨_, _, merged⟩ := bind_eq_ok.mp merged
  obtain ⟨_, _, merged⟩ := bind_eq_ok.mp merged
  cases merged
  intro m among
  obtain ⟨j, _, here⟩ := (lookups_mem found).mp among
  rw [tracks.named j m here]
  exact here

theorem newly_seen_empty (creator : Validator) : newlySeen stores.dag preState creator = ∅ := by
  unfold newlySeen
  split
  · rename_i m latest
    have among := mem_of_find?_eq_some latest
    refine Finset.sdiff_eq_empty_iff_subset.mpr (Finset.biUnion_subset.mpr fun j justified => ?_)
    have own : m.blockHash ∈ (preState.justifications.map (·.blockHash)).toFinset :=
      mem_toFinset.mpr (mem_map_of_mem among)
    exact (seen_of_justification tracks (pre_state_held tracks merged m among)
      (mem_toFinset.mp justified)).trans (Finset.subset_biUnion_of_mem _ own)
  · rfl

theorem attestation_suppressed (preStateBonds : Bonds) (creator : Validator) :
    suppressAttestation stores.dag blockStore preState preStateBonds creator = true := by
  have nothing : blocksOf blockStore ∅ = [] := rfl
  rw [suppressAttestation, newly_seen_empty tracks merged, nothing, attests_nothing, Bool.not_false,
    Bool.or_true]

theorem attestation_rule_iff (preStateBonds : Bonds) (creator : Validator) :
    (nothingToFinalize stores.dag blockStore preState = false →
      attests preStateBonds (blocksOf blockStore (unseen stores.dag preState creator)) = true →
      suppressAttestation stores.dag blockStore preState preStateBonds creator = false) ↔
    nothingToFinalize stores.dag blockStore preState = true ∨
      attests preStateBonds (blocksOf blockStore (unseen stores.dag preState creator)) = false := by
  rw [attestation_suppressed tracks merged]
  cases nothingToFinalize stores.dag blockStore preState <;> simp

end Attestation

section Samples

/-- A block with a deploy over genesis, by another validator than that of genesis. -/
def deployingBlock : SampleBlock :=
  { sampleBlock 1 [0] with sender := otherValidator, deploys := [sampleDeploy 10 1 false] }

def deployingMetadata : BlockMetadata Nat NativeState :=
  { BlockMetadata.fromBlock sampleRuntime.zeroHash deployingBlock with validated := true }

def deployingStores : DagStores Nat NativeState (Finset Nat) :=
  (genesisStores.insert id deployingMetadata deployingBlock).2

def deployingBlocks (hash : Nat) : Option SampleBlock :=
  if hash = 0 then some sampleGenesis else if hash = 1 then some deployingBlock else none

theorem deploying_grown : Grown id Unit deployingStores :=
  .insert _ deployingBlock genesis_grown (fun _ j mem p found _ => by
    cases mem_singleton.mp mem
    cases found
    decide) rfl

/-- The creator of genesis has not seen the block with the deploy, and does not attest. -/
theorem unseen_deploy_suppressed : ∃ preState,
    getPreStateForParents sampleNode deployingStores.dag deployingBlocks [0, 1] = .ok preState ∧
    nothingToFinalize deployingStores.dag deployingBlocks preState = false ∧
    attests sampleBonds (blocksOf deployingBlocks
      (unseen deployingStores.dag preState sampleValidator)) = true ∧
    suppressAttestation deployingStores.dag deployingBlocks preState sampleBonds
      sampleValidator = true := by
  have merged : getPreStateForParents sampleNode deployingStores.dag deployingBlocks [0, 1] =
    .ok _ := rfl
  exact ⟨_, merged, rfl, rfl,
    attestation_suppressed (grown_tracks Function.injective_id deploying_grown) merged _ _⟩

/-- The same storage with a block that failed. -/
def refusingStores : DagStores Nat NativeState (Finset Nat) :=
  (deployingStores.insert id skippingMetadata skippingBlock).2

theorem refusing_grown : Grown id Unit refusingStores :=
  .insert _ skippingBlock deploying_grown (fun passed => Bool.noConfusion passed) rfl

/-- The creator of the block with the deploy has seen all that its parents see. -/
theorem nothing_to_attest : ∃ preState,
    getPreStateForParents sampleNode refusingStores.dag deployingBlocks [0, 1] = .ok preState ∧
    nothingToFinalize refusingStores.dag deployingBlocks preState = false ∧
    (nothingToFinalize refusingStores.dag deployingBlocks preState = false →
      attests sampleBonds (blocksOf deployingBlocks
        (unseen refusingStores.dag preState otherValidator)) = true →
      suppressAttestation refusingStores.dag deployingBlocks preState sampleBonds
        otherValidator = false) := by
  have merged : getPreStateForParents sampleNode refusingStores.dag deployingBlocks [0, 1] =
    .ok _ := rfl
  exact ⟨_, merged, rfl, (attestation_rule_iff (grown_tracks Function.injective_id refusing_grown)
    merged _ _).mpr (.inr rfl)⟩

end Samples

end RChain.Casper
