import RChain.Casper.Sync

/-!
# Runs of insertions

A storage over whole runs of `insert`. Where every block that did not fail passed the check of its
number, the heights have no holes, whatever the calls return. A call that fails after it has begun to
write leaves its block in the index of the metadata, without a message.
-/

namespace RChain.Casper

open Dag Steps List Finset AList

variable {H R E F : Type} [LinearOrder H] [DecidableEq F] {fringeHash : Finset H → F}
  {stores next : DagStores H R F} {block : BlockMetadata H R} {message : BlockMessage H R E}

section Heights

/-- The block, if it did not fail, passed the check of its number. -/
def NumberChecked (dag : BlockDag H R) (block : BlockMetadata H R) (message : BlockMessage H R E) :
    Prop :=
  block.blockNum = message.blockNumber ∧
    (block.validationFailed = false → blockNumber dag message = .ok (.ok ()))

variable (E fringeHash) in
/-- The storages that calls of `insert` reach, with whatever result. -/
inductive CheckedRun : DagStores H R F → Prop
  | empty : CheckedRun DagStores.empty
  | insert {stores : DagStores H R F} (block : BlockMetadata H R) (message : BlockMessage H R E)
      (run : CheckedRun stores) (checked : NumberChecked stores.dag block message) :
      CheckedRun (stores.insert fringeHash block message).2

omit [DecidableEq F] in
theorem checked_dense (indexes : Indexes stores.dag.index stores.dag.lookup)
    (dense : Dense stores.dag.index.heightMap) (checked : NumberChecked stores.dag block message) :
    Dense (addBlockToDagState block stores.dag.index).heightMap := by
  unfold addBlockToDagState
  dsimp only
  split_ifs with failed
  · exact dense
  · refine dense_insert dense ?_ _
    obtain ⟨metas, found, number⟩ := block_number_ok (checked.2 (by simpa using failed))
    by_contra ungrounded
    simp only [not_or, not_exists, not_and] at ungrounded
    -- the greatest number of the parents would be below itself
    have below : maxBlockNumberMetadata (metas.filter fun m => !m.validationFailed) ≤
        (block.blockNum : Int) - 2 := by
      refine max_block_number_le.mpr ⟨by omega, fun p listed => ?_⟩
      have parent := mem_filter.mp listed
      obtain ⟨j, _, here⟩ := (lookups_mem found).mp parent.1
      have level := (indexes.heights p.blockNum).mpr ⟨j, p, here, by simpa using parent.2, rfl⟩
      have le := (max_block_number_le.mp (le_refl _)).2 p listed
      have other := ungrounded.2 p.blockNum level
      have same := checked.1
      omega
    have same := checked.1
    omega

theorem checked_run_dense (run : CheckedRun E fringeHash stores) :
    Indexes stores.dag.index stores.dag.lookup ∧ Dense stores.dag.index.heightMap := by
  induction run with
  | empty => exact ⟨indexes_empty, 0, fun height => by simp [DagStores.empty, BlockDag.empty,
      DagState.empty]⟩
  | @insert stores block message _ checked ih =>
    obtain ⟨indexes, dense⟩ := ih
    have denser := checked_dense indexes dense checked
    have grown (fresh : block.blockHash ∉ stores.dag.index.dagSet) :
        Indexes (stores.indexed block message).dag.index
          (stores.indexed block message).dag.lookup := by
      have absent : stores.dag.lookup block.blockHash = none := by
        simpa [indexes.dagSet] using fresh
      have written : (stores.inserted fringeHash block message []).dag.lookup = _ := inserted_lookup
      rw [show (stores.indexed block message).dag.lookup = _ from written]
      exact indexes_step indexes block absent
    have outcome := insert_cases fringeHash stores block message
    generalize stores.insert fringeHash block message = result at outcome
    cases outcome with
    | known | equivocation => exact ⟨indexes, dense⟩
    | holes _ _ broken =>
      rw [dense_validates denser] at broken
      cases broken
    | missing _ fresh | missingKey _ fresh | inserted _ fresh => exact ⟨grown fresh, denser⟩

theorem heights_contiguous (run : CheckedRun E fringeHash stores) :
    Dense stores.dag.index.heightMap ∧
    (∀ hash m, stores.dag.lookup hash = some m → ∀ height,
      hash ∈ (stores.dag.index.heightMap.lookup height).getD ∅ ↔
        m.validationFailed = false ∧ m.blockNum = height) ∧
    validateDagState stores.dag.index = true ∧
    ∀ (block : BlockMetadata H R) (message : BlockMessage H R E),
      NumberChecked stores.dag block message → (stores.dag.addMetadata block).1 = .ok () := by
  obtain ⟨indexes, dense⟩ := checked_run_dense run
  refine ⟨dense, fun hash m found height => ?_, dense_validates dense, fun block message checked => ?_⟩
  · rw [indexes.levels]
    simp [AtHeight, found]
  · rw [BlockDag.addMetadata, if_pos (dense_validates (checked_dense indexes dense checked))]

/-- A block that failed is listed at no height. -/
theorem failed_block_unlisted : blockNumber genesisStores.dag skewedBlock = .ok (.ok ()) ∧
    ((genesisStores.insert id skewedMetadata skewedBlock).2.dag.lookup 1).isSome ∧
    1 ∉ ((genesisStores.insert id skewedMetadata skewedBlock).2.dag.index.heightMap.lookup
      skewedBlock.blockNumber).getD ∅ :=
  ⟨rfl, rfl, by decide⟩

/-- A storage with a child of genesis and a block that failed. -/
def mixedStores : DagStores Nat Native.NativeState (Finset Nat) :=
  (childStores.insert id skippingMetadata skippingBlock).2

theorem mixed_checked : CheckedRun Unit id mixedStores :=
  .insert _ skippingBlock
    (.insert _ childBlock (.insert _ sampleGenesis .empty ⟨rfl, fun _ => rfl⟩) ⟨rfl, fun _ => rfl⟩)
    ⟨rfl, fun passed => Bool.noConfusion passed⟩

theorem mixed_heights : Dense mixedStores.dag.index.heightMap ∧
    1 ∈ (mixedStores.dag.index.heightMap.lookup 1).getD ∅ ∧
    5 ∈ mixedStores.dag.msgMap ∧ 5 ∉ (mixedStores.dag.index.heightMap.lookup 5).getD ∅ := by
  obtain ⟨dense, listed, _⟩ := heights_contiguous mixed_checked
  refine ⟨dense, (listed 1 _ rfl 1).mpr ⟨rfl, rfl⟩, by decide, fun failed => ?_⟩
  exact Bool.noConfusion ((listed 5 _ rfl 5).mp failed).1

end Heights

section Failures

variable (fringeHash stores block message) in
/-- How a call of `insert` ends: whether a store failed, whether the call returned `Ok`, and the
storage after it. A store that fails stops the call, with everything that was written before. -/
inductive Calls : (storeFailed returned : Bool) → DagStores H R F → Prop
  | ends {result : Except (StoreError H) Unit} {next : DagStores H R F}
      (inserted : Inserts fringeHash stores block message (result, next)) :
      Calls false result.isOk next
  | metadataFails (fresh : block.blockHash ∉ stores.dag.index.dagSet)
      (single : ¬ Equivocates stores block)
      (contiguous : validateDagState (addBlockToDagState block stores.dag.index) = true) :
      Calls true false { stores with
        dag := { stores.dag with index := addBlockToDagState block stores.dag.index } }
  | laterFails (next : DagStores H R F) (fresh : block.blockHash ∉ stores.dag.index.dagSet)
      (single : ¬ Equivocates stores block)
      (contiguous : validateDagState (addBlockToDagState block stores.dag.index) = true)
      (written : next.dag = (stores.indexed block message).dag) : Calls true false next
  | expiryFails (next : DagStores H R F) {done : DagStores H R F}
      (fresh : block.blockHash ∉ stores.dag.index.dagSet)
      (inserted : Inserts fringeHash stores block message (.ok (), done))
      (written : next.dag = done.dag) : Calls true false next

/-- The index knows the blocks that have a message, the parents of a message have one, and only
accepted blocks have metadata. -/
structure Consistent (accepted : Finset H) (stores : DagStores H R F) : Prop where
  known : ∀ hash, hash ∈ stores.dag.index.dagSet ↔ hash ∈ stores.dag.msgMap
  parents : ∀ hash m, stores.dag.msgMap.lookup hash = some m →
    ∀ parent ∈ m.parents, parent ∈ stores.dag.msgMap
  persisted : ∀ hash ∈ stores.dag.metadata, hash ∈ accepted

/-- The call finds all that it reads, and no store fails. -/
def Completes (stores : DagStores H R F) (block : BlockMetadata H R) (storeFailed : Bool) : Prop :=
  storeFailed = false ∧ validateDagState (addBlockToDagState block stores.dag.index) = true ∧
    ∃ justifications, block.justifications.mapM stores.dag.msgMap.lookup = some justifications ∧
      (∀ hash ∈ block.fringe, hash ∈ stores.dag.msgMap) ∧
      ∀ hash ∈ fringeDiff stores.dag.msgMap justifications block.fringe,
        hash ∈ stores.dag.metadata.insert block.blockHash block

/-- The call returns before it writes, or it completes. -/
def Undisturbed (stores : DagStores H R F) (block : BlockMetadata H R) (storeFailed : Bool) :
    Prop :=
  block.blockHash ∈ stores.dag.index.dagSet ∨ Equivocates stores block ∨
    Completes stores block storeFailed

/-- The hashes of the blocks that were accepted after a call. -/
def acceptedAfter (accepted : Finset H) (block : BlockMetadata H R) (returned : Bool) : Finset H :=
  if returned then insert block.blockHash accepted else accepted

variable (E fringeHash) in
/-- Runs of undisturbed calls, with the hashes of the accepted blocks. -/
inductive UndisturbedRun : Finset H → DagStores H R F → Prop
  | empty : UndisturbedRun ∅ DagStores.empty
  | call {accepted : Finset H} {stores next : DagStores H R F} {block : BlockMetadata H R}
      {message : BlockMessage H R E} {storeFailed returned : Bool}
      (run : UndisturbedRun accepted stores)
      (called : Calls fringeHash stores block message storeFailed returned next)
      (undisturbed : Undisturbed stores block storeFailed) :
      UndisturbedRun (acceptedAfter accepted block returned) next

variable {accepted : Finset H} {storeFailed returned : Bool}

theorem consistent_inserted (consistent : Consistent accepted stores)
    (fresh : block.blockHash ∉ stores.dag.index.dagSet)
    {justifications : List (Message H Validator)}
    (found : block.justifications.mapM stores.dag.msgMap.lookup = some justifications) :
    Consistent (insert block.blockHash accepted)
      (stores.inserted fringeHash block message justifications) := by
  have unsent : block.blockHash ∉ stores.dag.msgMap := fun held =>
    fresh ((consistent.known _).mpr held)
  refine ⟨fun hash => ?_, fun hash m held parent among => ?_, fun hash stored => ?_⟩
  · rw [inserted_msg_map unsent, AList.mem_insert, ← consistent.known]
    exact mem_insert
  · rw [inserted_msg_map unsent] at held ⊢
    refine (mem_insert _).mpr (.inr ?_)
    by_cases here : hash = block.blockHash
    · subst here
      rw [lookup_insert] at held
      cases held
      obtain ⟨_, _, sent⟩ := mapM_some_mem found among
      exact held_of_lookup sent
    · rw [lookup_insert_ne here] at held
      exact consistent.parents hash m held parent among
  · rcases (mem_insert _).mp stored with here | old
    · exact here ▸ mem_insert_self _ _
    · exact mem_insert_of_mem (consistent.persisted hash old)

omit [DecidableEq F] in
theorem disturbed_iff (consistent : Consistent accepted stores)
    (fresh : block.blockHash ∉ stores.dag.index.dagSet) (single : ¬ Equivocates stores block)
    (incomplete : ¬ Completes stores block storeFailed) {other : Finset H}
    (index : next.dag.index = addBlockToDagState block stores.dag.index)
    (messages : next.dag.msgMap = stores.dag.msgMap) :
    Consistent other next ↔ Undisturbed stores block storeFailed := by
  refine iff_of_false (fun after => ?_) (not_or.mpr ⟨fresh, not_or.mpr ⟨single, incomplete⟩⟩)
  have known := (after.known block.blockHash).mp (index ▸ mem_insert_self _ _)
  rw [messages] at known
  exact fresh ((consistent.known _).mpr known)

theorem call_consistent_iff (consistent : Consistent accepted stores)
    (within : accepted ⊆ stores.dag.index.dagSet)
    (called : Calls fringeHash stores block message storeFailed returned next) :
    Consistent (acceptedAfter accepted block returned) next ↔
      Undisturbed stores block storeFailed := by
  cases called with
  | ends inserted =>
    cases inserted with
    | known known =>
      exact iff_of_true ⟨consistent.known, consistent.parents, fun hash stored =>
        mem_insert_of_mem (consistent.persisted hash stored)⟩ (.inl known)
    | equivocation _ equivocates => exact iff_of_true consistent (.inr (.inl equivocates))
    | holes fresh single broken =>
      exact disturbed_iff consistent fresh single (by simp [Completes, broken]) rfl rfl
    | missing _ fresh single _ absent =>
      refine disturbed_iff consistent fresh single ?_ rfl rfl
      rintro ⟨_, _, _, found, held, _⟩
      rcases absent with none | ⟨hash, among, lost⟩
      · rw [none] at found
        cases found
      · exact lost (held hash among)
    | missingKey _ fresh single _ found _ absent =>
      refine disturbed_iff consistent fresh single ?_ rfl rfl
      rintro ⟨_, _, _, again, _, marked⟩
      cases found.symm.trans again
      obtain ⟨hash, among, lost⟩ := absent
      exact lost (marked hash among)
    | inserted justifications fresh _ contiguous found held marked =>
      exact iff_of_true (consistent_inserted consistent fresh found)
        (.inr (.inr ⟨rfl, contiguous, justifications, found, held, marked⟩))
  | metadataFails fresh single =>
    exact disturbed_iff consistent fresh single (by simp [Completes]) rfl rfl
  | laterFails _ fresh single _ written =>
    exact disturbed_iff consistent fresh single (by simp [Completes]) (by rw [written]; rfl)
      (by rw [written]; rfl)
  | expiryFails _ fresh inserted written =>
    cases inserted with
    | known known => exact absurd known fresh
    | inserted _ _ single =>
      refine iff_of_false (fun after => fresh (within (after.persisted _ ?_)))
        (by simp [Undisturbed, Completes, fresh, single])
      rw [written]
      exact (mem_insert _).mpr (.inl rfl)

theorem accepted_within (within : accepted ⊆ stores.dag.index.dagSet)
    (called : Calls fringeHash stores block message storeFailed returned next) :
    acceptedAfter accepted block returned ⊆ next.dag.index.dagSet := by
  have grown := within.trans (subset_insert block.blockHash _)
  cases called with
  | ends inserted =>
    cases inserted with
    | known known => exact insert_subset known within
    | equivocation => exact within
    | inserted => exact insert_subset_insert _ within
    | _ => exact grown
  | metadataFails => exact grown
  | laterFails _ _ _ _ written =>
    rw [written]
    exact grown
  | expiryFails _ fresh inserted written =>
    rw [written]
    cases inserted with
    | known known => exact absurd known fresh
    | inserted => exact grown

theorem undisturbed_run_consistent (run : UndisturbedRun E fringeHash accepted stores) :
    Consistent accepted stores ∧ accepted ⊆ stores.dag.index.dagSet := by
  induction run with
  | empty =>
    refine ⟨⟨fun hash => ?_, fun hash m held => ?_, fun hash stored => ?_⟩, Finset.empty_subset _⟩
    · exact iff_of_false (Finset.notMem_empty hash) (AList.notMem_empty hash)
    · cases held
    · exact absurd stored (AList.notMem_empty hash)
  | call _ called undisturbed ih =>
    exact ⟨(call_consistent_iff ih.1 ih.2 called).mpr undisturbed, accepted_within ih.2 called⟩

theorem failed_insert_consistent_iff (run : UndisturbedRun E fringeHash accepted stores)
    (called : Calls fringeHash stores block message storeFailed returned next) :
    Consistent (acceptedAfter accepted block returned) next ↔
      Undisturbed stores block storeFailed := by
  obtain ⟨consistent, within⟩ := undisturbed_run_consistent run
  exact call_consistent_iff consistent within called

/-- A block over a justification that nobody knows. -/
def orphanBlock : SampleBlock := sampleBlock 1 [7]

/-- The insertion fails and leaves the block known, with metadata and without a message. -/
theorem orphan_left_behind :
    let result := genesisStores.insert id
      (BlockMetadata.fromBlock sampleRuntime.zeroHash orphanBlock) orphanBlock
    result.1 = .error .justificationNotInMessageMap ∧ 1 ∈ result.2.dag.index.dagSet ∧
      1 ∈ result.2.dag.metadata ∧ 1 ∉ result.2.dag.msgMap :=
  ⟨rfl, by decide, by decide, by decide⟩

theorem child_undisturbed : UndisturbedRun Unit id (insert 1 (insert 0 ∅)) childStores :=
  .call (.call .empty
    (.ends (insert_cases id DagStores.empty (genesisMetadata sampleRuntime.zeroHash sampleGenesis)
      sampleGenesis))
    (.inr (.inr ⟨rfl, rfl, [], rfl, by decide, by decide⟩)))
    (.ends (insert_cases id genesisStores childMetadata childBlock))
    (.inr (.inr ⟨rfl, rfl, _, rfl, by decide, by decide⟩))

theorem mixed_consistent : Consistent (insert 5 (insert 1 (insert 0 ∅))) mixedStores :=
  (failed_insert_consistent_iff child_undisturbed
    (.ends (insert_cases id childStores skippingMetadata skippingBlock))).mpr
    (.inr (.inr ⟨rfl, rfl, _, rfl, by decide, by decide⟩))

end Failures

end RChain.Casper
