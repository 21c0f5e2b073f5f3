import RChain.Casper.Bonded

/-!
# Deploys that are executed twice

The search of `repeat_deploy` ends, and a search that finds nothing has looked at every
ancestor that is linked to the block through valid blocks above the expiry bound. An
ancestor below the bound is out of the reach of the search; it can hold a deploy of the
block only under another expiry number.
-/

namespace RChain.Casper

open BitCodec Crypto Dag Native Steps List

variable {H R E Space Rand : Type} [LinearOrder H]

section Search

variable {dag : BlockDag H R} {blockStore : BlockStore H R E} {keys : List (List Byte)}
  {earliest : Int}

def Held (dag : BlockDag H R) (m : BlockMetadata H R) : Prop :=
  dag.lookup m.blockHash = some m

def Followed (dag : BlockDag H R) (earliest : Int) (m parent : BlockMetadata H R) : Prop :=
  ∃ j ∈ m.justifications, dag.lookup j = some parent ∧ parent.validationFailed = false ∧
    earliest ≤ parent.blockNum

variable {parents : List (BlockMetadata H R)} {parent m : BlockMetadata H R}
  {queue : List (BlockMetadata H R)} {visited : Finset H}

theorem parents_metadata_mem {justifications : List H}
    (found : getParentsMetadata dag justifications = .ok parents) :
    parent ∈ parents ↔ ∃ j ∈ justifications, dag.lookup j = some parent ∧
      parent.validationFailed = false := by
  obtain ⟨_, known, found⟩ := bind_eq_ok.mp found
  cases found
  rw [mem_filter, lookups_mem known]
  constructor
  · rintro ⟨⟨j, mem, looked⟩, passed⟩
    exact ⟨j, mem, looked, by simpa using passed⟩
  · rintro ⟨j, mem, looked, passed⟩
    exact ⟨⟨j, mem, looked⟩, by simpa using passed⟩

section

variable (found : getParentMetadatasAboveBlockNumber dag m.justifications earliest = .ok parents)
include found

theorem parents_above_mem : parent ∈ parents ↔ Followed dag earliest m parent := by
  obtain ⟨_, known, found⟩ := bind_eq_ok.mp found
  cases found
  rw [mem_filter, parents_metadata_mem known]
  simp only [decide_eq_true_eq]
  constructor
  · rintro ⟨⟨j, mem, looked, passed⟩, recent⟩
    exact ⟨j, mem, looked, passed, recent⟩
  · rintro ⟨j, mem, looked, passed, recent⟩
    exact ⟨⟨j, mem, looked, passed⟩, recent⟩

theorem parents_above_length : parents.length ≤ m.justifications.length := by
  obtain ⟨_, known, found⟩ := bind_eq_ok.mp found
  cases found
  obtain ⟨all, looked, known⟩ := bind_eq_ok.mp known
  cases known
  calc ((all.filter _).filter _).length ≤ (all.filter _).length := length_filter_le _ _
    _ ≤ all.length := length_filter_le _ _
    _ = m.justifications.length := (mapM_eq_ok looked).length_eq.symm

variable (dag blockStore keys earliest) in
/-- A block that was searched: it holds none of the keys, and the parents that the search
follows are in the set. -/
def Searched (closed : Finset H) (hash : H) : Prop :=
  ∃ m block, dag.lookup hash = some m ∧ blockStore hash = some block ∧
    (∀ d ∈ block.deploys, deployKey d ∉ keys) ∧
    ∀ parent, Followed dag earliest m parent → parent.blockHash ∈ closed

omit found in
theorem search_expands {fuel : Nat} {curr : BlockMetadata H R} (fresh : curr.blockHash ∉ visited)
    (ended : searchRepeats dag blockStore keys earliest (fuel + 1) (curr :: queue) visited =
      some (.ok false)) :
    ∃ block parents, blockStore curr.blockHash = some block ∧
      (∀ d ∈ block.deploys, deployKey d ∉ keys) ∧
      getParentMetadatasAboveBlockNumber dag curr.justifications earliest = .ok parents ∧
      searchRepeats dag blockStore keys earliest fuel
        (queue ++ parents.filter fun p => p.blockHash ∉ insert curr.blockHash visited)
        (insert curr.blockHash visited) = some (.ok false) := by
  unfold searchRepeats at ended
  rw [if_neg fresh] at ended
  dsimp only at ended
  cases stored : blockStore curr.blockHash with
  | none =>
    rw [stored] at ended
    cases ended
  | some block =>
    rw [stored] at ended
    dsimp only at ended
    by_cases repeats : (block.deploys.any fun d => deployKey d ∈ keys) = true
    · rw [if_pos repeats] at ended
      cases ended
    · rw [if_neg repeats] at ended
      cases found : getParentMetadatasAboveBlockNumber dag curr.justifications earliest with
      | error =>
        rw [found] at ended
        cases ended
      | ok parents =>
        rw [found] at ended
        exact ⟨block, parents, rfl, by simpa using repeats, rfl, ended⟩

theorem held_parents (coherent : ∀ hash m, dag.lookup hash = some m → m.blockHash = hash)
    (held : ∀ q ∈ queue, Held dag q) :
    ∀ q ∈ queue ++ parents.filter fun p => p.blockHash ∉ visited, Held dag q := by
  intro q mem
  rcases mem_append.mp mem with before | pushed
  · exact held q before
  · obtain ⟨j, _, looked, _⟩ := (parents_above_mem found).mp (mem_filter.mp pushed).1
    unfold Held
    rw [coherent j q looked]
    exact looked

end

end Search

section Fuel

variable (dag : BlockDag H R)

/-- The justifications of the blocks that were not visited yet. -/
def pending (visited : Finset H) : Nat :=
  ((dag.metadata.entries.filter fun entry => entry.1 ∉ visited).map
    fun entry => entry.2.justifications.length).sum

variable {dag}

theorem sum_filter_drop {Entry : Type} (weight : Entry → Nat) {wide narrow : Entry → Bool}
    {entry : Entry} (entries : List Entry) (included : ∀ e, narrow e = true → wide e = true)
    (mem : entry ∈ entries) (kept : wide entry = true) (dropped : narrow entry = false) :
    ((entries.filter narrow).map weight).sum + weight entry ≤
      ((entries.filter wide).map weight).sum := by
  have mono (others : List Entry) :
      ((others.filter narrow).map weight).sum ≤ ((others.filter wide).map weight).sum :=
    ((monotone_filter_right others included).map weight).sum_le_sum fun _ _ => Nat.zero_le _
  induction entries with
  | nil => cases mem
  | cons first entries ih =>
    rcases mem_cons.mp mem with rfl | later
    · rw [filter_cons_of_neg (by simp [dropped]), filter_cons_of_pos kept, map_cons, sum_cons]
      have rest := mono entries
      omega
    · have rest := ih later
      by_cases narrowed : narrow first = true
      · rw [filter_cons_of_pos narrowed, filter_cons_of_pos (included first narrowed)]
        simp only [map_cons, sum_cons]
        omega
      · rw [filter_cons_of_neg narrowed]
        by_cases widened : wide first = true
        · rw [filter_cons_of_pos widened]
          simp only [map_cons, sum_cons]
          omega
        · rw [filter_cons_of_neg widened]
          exact rest

theorem pending_visit {m : BlockMetadata H R} {visited : Finset H} (held : Held dag m)
    (fresh : m.blockHash ∉ visited) :
    pending dag (insert m.blockHash visited) + m.justifications.length ≤ pending dag visited := by
  have mem : (⟨m.blockHash, m⟩ : Sigma fun _ : H => BlockMetadata H R) ∈ dag.metadata.entries :=
    AList.mem_lookup_iff.mp held
  unfold pending
  apply sum_filter_drop (fun entry => entry.2.justifications.length) dag.metadata.entries ?_ mem
  · simpa using fresh
  · simp
  · intro _ kept
    have outside := of_decide_eq_true kept
    rw [Finset.mem_insert, not_or] at outside
    exact decide_eq_true outside.2

variable {blockStore : BlockStore H R E} {keys : List (List Byte)} {earliest : Int}
  (coherent : ∀ hash m, dag.lookup hash = some m → m.blockHash = hash) (fuel : Nat)
  (queue : List (BlockMetadata H R)) (visited : Finset H) (held : ∀ m ∈ queue, Held dag m)
include coherent held

theorem search_closes
    (ended : searchRepeats dag blockStore keys earliest fuel queue visited = some (.ok false)) :
    ∃ closed : Finset H, visited ⊆ closed ∧ (∀ m ∈ queue, m.blockHash ∈ closed) ∧
      ∀ hash ∈ closed, hash ∈ visited ∨ Searched dag blockStore keys earliest closed hash := by
  induction fuel generalizing queue visited with
  | zero => cases ended
  | succ _ ih =>
    cases queue with
    | nil =>
      exact ⟨visited, Finset.Subset.refl _, (fun m impossible => by cases impossible),
        fun hash mem => Or.inl mem⟩
    | cons curr queue =>
      have heldRest : ∀ m ∈ queue, Held dag m :=
        fun m mem => held m (mem_cons_of_mem curr mem)
      by_cases seen : curr.blockHash ∈ visited
      · unfold searchRepeats at ended
        rw [if_pos seen] at ended
        obtain ⟨closed, grown, queued, settled⟩ := ih queue visited heldRest ended
        refine ⟨closed, grown, fun m mem => ?_, settled⟩
        rcases mem_cons.mp mem with rfl | later
        · exact grown seen
        · exact queued m later
      · obtain ⟨block, _, stored, clear, found, rest⟩ := search_expands seen ended
        obtain ⟨closed, grown, queued, settled⟩ :=
          ih _ _ (held_parents found coherent heldRest) rest
        refine ⟨closed, (Finset.subset_insert _ _).trans grown, fun m mem => ?_, fun hash mem => ?_⟩
        · rcases mem_cons.mp mem with rfl | later
          · exact grown (Finset.mem_insert_self _ _)
          · exact queued m (mem_append_left _ later)
        · rcases settled hash mem with before | searched
          · rcases Finset.mem_insert.mp before with rfl | earlier
            · right
              refine ⟨curr, block, held curr mem_cons_self, stored, clear, ?_⟩
              intro parent followed
              by_cases known : parent.blockHash ∈ insert curr.blockHash visited
              · exact grown known
              · apply queued parent
                apply mem_append_right
                rw [mem_filter]
                exact ⟨(parents_above_mem found).mpr followed, by simpa using known⟩
            · exact Or.inl earlier
          · exact Or.inr searched

/-- The fuel of `repeat_deploy` is enough: the source's loop ends. -/
theorem search_ends (enough : queue.length + pending dag visited < fuel) :
    searchRepeats dag blockStore keys earliest fuel queue visited ≠ none := by
  induction fuel generalizing queue visited with
  | zero => omega
  | succ _ ih =>
    cases queue with
    | nil => exact Option.some_ne_none _
    | cons curr queue =>
      have heldRest : ∀ m ∈ queue, Held dag m :=
        fun m mem => held m (mem_cons_of_mem curr mem)
      rw [length_cons] at enough
      unfold searchRepeats
      split_ifs with seen
      · exact ih queue visited heldRest (by omega)
      · dsimp only
        split
        · exact Option.some_ne_none _
        · split_ifs
          · exact Option.some_ne_none _
          · split
            · exact Option.some_ne_none _
            · rename_i parents found
              apply ih _ _ (held_parents found coherent heldRest)
              have spent := pending_visit (held curr mem_cons_self) seen
              have pushed := parents_above_length found
              have kept := length_filter_le
                (fun p => decide (p.blockHash ∉ insert curr.blockHash visited)) parents
              rw [length_append]
              omega

end Fuel

section Ancestors

/-- The ancestors of a block with these justifications. -/
inductive Ancestor (dag : BlockDag H R) (justifications : List H) : BlockMetadata H R → Prop
  | parent {j : H} {m : BlockMetadata H R} (member : j ∈ justifications)
      (found : dag.lookup j = some m) : Ancestor dag justifications m
  | step {m p : BlockMetadata H R} {j : H} (above : Ancestor dag justifications m)
      (member : j ∈ m.justifications) (found : dag.lookup j = some p) :
      Ancestor dag justifications p

/-- The ancestors that are linked to the block through blocks that did not fail. -/
inductive ValidAncestor (dag : BlockDag H R) (justifications : List H) :
    BlockMetadata H R → Prop
  | parent {j : H} {m : BlockMetadata H R} (member : j ∈ justifications)
      (found : dag.lookup j = some m) (passed : m.validationFailed = false) :
      ValidAncestor dag justifications m
  | step {m p : BlockMetadata H R} {j : H} (above : ValidAncestor dag justifications m)
      (member : j ∈ m.justifications) (found : dag.lookup j = some p)
      (passed : p.validationFailed = false) : ValidAncestor dag justifications p

theorem ValidAncestor.known {dag : BlockDag H R} {justifications : List H}
    {m : BlockMetadata H R} (ancestor : ValidAncestor dag justifications m) :
    m.validationFailed = false ∧ ∃ j, dag.lookup j = some m := by
  cases ancestor with
  | parent _ found passed => exact ⟨passed, _, found⟩
  | step _ _ found passed => exact ⟨passed, _, found⟩

/-- What validation leaves behind in a block: its deploys are not from the future, and its
valid parents have smaller numbers. -/
def Ordered (state : NodeState H R E) (block : BlockMessage H R E) (_ : BlockMetadata H R) :
    Prop :=
  futureTransaction block = .ok () ∧ ∀ j ∈ block.justifications, ∀ p,
    state.dag.lookup j = some p → p.validationFailed = false → p.blockNum < block.blockNumber

theorem ordered_lasting : Lasting (Ordered (H := H) (R := R) (E := E)) := by
  rintro _ _ _ _ _ extended known ⟨timely, smaller⟩
  refine ⟨timely, fun j mem p found passed => ?_⟩
  obtain ⟨described, before⟩ := known j mem
  have after := extended.known j described before
  rw [found] at after
  exact smaller j mem p (Option.some.inj after ▸ before) passed

theorem ordered_of_number {state : NodeState H R E} {block : BlockMessage H R E}
    (timely : futureTransaction block = .ok ())
    (numbered : blockNumber state.dag block = .ok (.ok ())) (m : BlockMetadata H R) :
    Ordered state block m := by
  refine ⟨timely, fun j mem p found passed => ?_⟩
  obtain ⟨metas, looked, _⟩ := block_number_ok numbered
  have listed : p ∈ metas.filter fun m => !m.validationFailed := by
    rw [mem_filter]
    exact ⟨(lookups_mem looked).mpr ⟨j, mem, found⟩, by simpa using passed⟩
  have bound := (max_block_number_le.mp (le_refl _)).2 p listed
  omega

variable [DecidableEq R]

theorem run_ordered (node : Node H R E Space Rand) {genesis : BlockMessage H R E}
    (founded : genesis.justifications = []) (timely : futureTransaction genesis = .ok ())
    (actions : List (Action H R E)) :
    let state := actions.foldl (NodeState.step node) (NodeState.genesis node genesis)
    Coherent state ∧ ∀ hash m block, state.dag.lookup hash = some m →
      m.validationFailed = false → state.blockStore hash = some block → Ordered state block m := by
  intro state
  have always : Runs.Guarded (NodeState.step node) (fun _ _ => True) actions
      (NodeState.genesis node genesis) :=
    Runs.guarded_always (fun _ _ => trivial) actions _
  have settled : Settled Ordered genesis state := run_settled ordered_lasting
    (fun state hash block m _ _ _ accepted => by
      obtain ⟨_, stages⟩ := validate_ok accepted
      obtain ⟨_, numbered, future, _⟩ := stages.check
      exact ordered_of_number future numbered m) always
  refine ⟨settled.coherent, fun hash m block found passed held => ?_⟩
  rcases settled.blocks hash m block found passed held with same | ⟨ordered, _⟩
  · subst same
    refine ⟨timely, fun j mem => ?_⟩
    rw [founded] at mem
    cases mem
  · exact ordered

end Ancestors

section Once

variable {state : NodeState H R E} {block : BlockMessage H R E} {d : ProcessedDeploy E}

/-- The search of a block that passes `repeat_deploy` reached a closed set of blocks that
hold none of its deploys. -/
theorem repeat_deploy_closed (coherent : Coherent state)
    (numbered : blockNumber state.dag block = .ok (.ok ()))
    (passed : repeatDeploy state.dag state.blockStore block deployLifespan = .ok (.ok ())) :
    ∃ closed : Finset H, (∀ j ∈ block.justifications, ∀ m, state.dag.lookup j = some m →
        m.validationFailed = false → m.blockHash ∈ closed) ∧
      ∀ hash ∈ closed, Searched state.dag state.blockStore (block.deploys.map deployKey)
        (block.blockNumber - deployLifespan) closed hash := by
  obtain ⟨initParents, found, passed⟩ := bind_eq_ok.mp passed
  have listed (m : BlockMetadata H R) : m ∈ initParents ↔ ∃ j ∈ block.justifications,
      state.dag.lookup j = some m ∧ m.validationFailed = false := by
    rw [parents_metadata_mem found]
    simp only [mem_hash_set]
  have earliest : maxBlockNumberMetadata initParents + 1 - deployLifespan =
      block.blockNumber - deployLifespan := by
    obtain ⟨metas, looked, _⟩ := block_number_ok numbered
    have sameMembers (m : BlockMetadata H R) :
        m ∈ initParents ↔ m ∈ metas.filter fun m => !m.validationFailed := by
      rw [listed, mem_filter, lookups_mem looked]
      constructor
      · rintro ⟨j, mem, here, valid⟩
        exact ⟨⟨j, mem, here⟩, by simpa using valid⟩
      · rintro ⟨⟨j, mem, here⟩, valid⟩
        exact ⟨j, mem, here, by simpa using valid⟩
    have sameMax : maxBlockNumberMetadata initParents =
        maxBlockNumberMetadata (metas.filter fun m => !m.validationFailed) := by
      refine eq_of_forall_ge_iff fun bound => ?_
      rw [max_block_number_le, max_block_number_le]
      simp only [sameMembers]
    rw [sameMax]
    omega
  have held : ∀ m ∈ initParents, Held state.dag m := by
    intro m mem
    obtain ⟨j, _, here, _⟩ := (listed m).mp mem
    unfold Held
    rw [coherent.key j m here]
    exact here
  dsimp only at passed
  rw [earliest] at passed
  have ended : searchRepeats state.dag state.blockStore (block.deploys.map deployKey)
      (block.blockNumber - deployLifespan) (searchFuel state.dag initParents) initParents ∅ ≠ none :=
    search_ends coherent.key (searchFuel state.dag initParents) initParents ∅ held (by
      have all : pending state.dag ∅ =
          (state.dag.metadata.entries.map fun entry => entry.2.justifications.length).sum := by
        simp [pending]
      rw [all, searchFuel]
      omega)
  cases outcome : searchRepeats state.dag state.blockStore (block.deploys.map deployKey)
      (block.blockNumber - deployLifespan) (searchFuel state.dag initParents) initParents ∅ with
  | none => exact absurd outcome ended
  | some result =>
    rw [outcome] at passed
    cases result with
    | error => cases passed
    | ok repeats =>
      have nothing : repeats = false := by
        simpa using verdict_ok.mp (Except.ok.inj passed)
      rw [nothing] at outcome
      obtain ⟨closed, _, queued, settled⟩ := search_closes coherent.key _ _ _ held outcome
      refine ⟨closed, fun j mem m here valid => ?_, fun hash mem => ?_⟩
      · exact queued m ((listed m).mpr ⟨j, mem, here, valid⟩)
      · rcases settled hash mem with impossible | searched
        · exact absurd impossible (Finset.notMem_empty hash)
        · exact searched

theorem valid_ancestor_closed {earliest : Int} {closed : Finset H} {keys : List (List Byte)}
    (coherent : Coherent state)
    (ordered : ∀ hash m stored, state.dag.lookup hash = some m → m.validationFailed = false →
      state.blockStore hash = some stored → Ordered state stored m)
    (started : ∀ j ∈ block.justifications, ∀ m, state.dag.lookup j = some m →
      m.validationFailed = false → m.blockHash ∈ closed)
    (searched : ∀ hash ∈ closed, Searched state.dag state.blockStore keys earliest closed hash)
    {m : BlockMetadata H R} (ancestor : ValidAncestor state.dag block.justifications m)
    (recent : earliest ≤ m.blockNum) : m.blockHash ∈ closed := by
  induction ancestor with
  | parent mem found passed => exact started _ mem _ found passed
  | @step m p j above mem found passed ih =>
    obtain ⟨valid, hash, looked⟩ := above.known
    obtain ⟨stored, held, describes⟩ := coherent.described hash m looked
    have smaller := (ordered hash m stored looked valid held).2 j
      (mem_hash_set.mp (describes.justifications ▸ mem)) p found passed
    rw [← describes.blockNum] at smaller
    obtain ⟨_, _, lookedAgain, _, _, followed⟩ := searched m.blockHash (ih (by omega))
    rw [coherent.key hash m looked, looked] at lookedAgain
    cases lookedAgain
    exact followed p ⟨j, mem, found, passed, recent⟩

/-- No two deploys of the block have the same normalized signature, and none has that of a
deploy in an ancestor that did not fail. -/
def ExecutesOnce (state : NodeState H R E) (block : BlockMessage H R E) : Prop :=
  (block.deploys.map deployKey).Nodup ∧
    ∀ m ancestor, Ancestor state.dag block.justifications m → m.validationFailed = false →
      state.blockStore m.blockHash = some ancestor →
      ∀ d ∈ block.deploys, ∀ earlier ∈ ancestor.deploys, deployKey earlier ≠ deployKey d

/-- In every DAG that a node builds from genesis, a block that passes the summary executes
each deploy once exactly when its own deploys have distinct normalized signatures, and a
deploy of a valid ancestor that shares one has the same expiry number and is linked to the
block through valid blocks. -/
theorem executes_once_iff [DecidableEq R] (node : Node H R E Space Rand)
    (genesis : BlockMessage H R E) (founded : genesis.justifications = [])
    (timely : futureTransaction genesis = .ok ()) (actions : List (Action H R E))
    (block : BlockMessage H R E)
    (summary : blockSummary
      (actions.foldl (NodeState.step node) (NodeState.genesis node genesis)).dag
      (actions.foldl (NodeState.step node) (NodeState.genesis node genesis)).blockStore block
      node.shardId deployLifespan node.minPhloPrice = .ok (.ok ())) :
    ExecutesOnce (actions.foldl (NodeState.step node) (NodeState.genesis node genesis)) block ↔
      (block.deploys.map deployKey).Nodup ∧ ∀ m ancestor,
          Ancestor (actions.foldl (NodeState.step node) (NodeState.genesis node genesis)).dag
            block.justifications m → m.validationFailed = false →
          (actions.foldl (NodeState.step node) (NodeState.genesis node genesis)).blockStore
            m.blockHash = some ancestor →
          ∀ d ∈ block.deploys, ∀ earlier ∈ ancestor.deploys, deployKey earlier = deployKey d →
            earlier.deploy.data.validAfterBlockNumber = d.deploy.data.validAfterBlockNumber ∧
            ValidAncestor (actions.foldl (NodeState.step node) (NodeState.genesis node genesis)).dag
              block.justifications m := by
  obtain ⟨coherent, ordered⟩ := run_ordered node founded timely actions
  generalize actions.foldl (NodeState.step node) (NodeState.genesis node genesis) = state at *
  have checks := first_failure_passes summary
  simp only [mem_cons, not_mem_nil, or_false, forall_eq_or_imp, forall_eq] at checks
  obtain ⟨_, _, numbered, _, _, expiration, _, repeats⟩ := checks
  obtain ⟨_, started, searched⟩ := repeat_deploy_closed coherent numbered repeats
  refine and_congr_right fun _ => ?_
  constructor
  · intro once m ancestor above passed held d member earlier among same
    exact absurd same (once m ancestor above passed held d member earlier among)
  · intro linked m ancestor above passed held d member earlier among same
    obtain ⟨sameExpiry, valid⟩ := linked m ancestor above passed held d member earlier among same
    obtain ⟨_, hash, looked⟩ := valid.known
    have key := coherent.key hash m looked
    subst key
    obtain ⟨_, stored, describes⟩ := coherent.described m.blockHash m looked
    rw [held] at stored
    cases stored
    have timely := verdict_ok.mp (ordered _ m ancestor looked passed held).1
    have recent := verdict_ok.mp (Except.ok.inj expiration)
    simp only [Bool.not_eq_true', any_eq_false, decide_eq_true_eq, not_lt, not_le] at timely recent
    have notFuture := timely _ among
    have notExpired := recent _ member
    rw [sameExpiry, ← describes.blockNum] at notFuture
    have reached := valid_ancestor_closed coherent ordered started searched valid (by omega)
    obtain ⟨_, _, _, heldAgain, clear, _⟩ := searched m.blockHash reached
    rw [held] at heldAgain
    cases heldAgain
    exact clear earlier among (same ▸ mem_map_of_mem member)

end Once

section Example

/-- A block that holds the same deploy twice. -/
def doubledBlock : SampleBlock :=
  { sampleBlock 1 [0] with
    postStateHash := sampleState ⟨90, by decide⟩
    deploys := [sampleDeploy 5 1 false, sampleDeploy 5 1 false] }

/-- The summary only looks for the deploys of a block in its ancestors, so the block is
accepted and its deploy charged twice. -/
theorem doubled_deploy_executes :
    let final := [Action.receive doubledBlock, Action.process 1].foldl
      (NodeState.step sampleNode) (NodeState.genesis sampleNode sampleGenesis)
    blockSummary (NodeState.genesis sampleNode sampleGenesis).dag
        (NodeState.genesis sampleNode sampleGenesis).blockStore doubledBlock sampleNode.shardId
        deployLifespan sampleNode.minPhloPrice = .ok (.ok ()) ∧
      (final.dag.lookup 1).map (·.validationFailed) = some false ∧
      ¬ (doubledBlock.deploys.map deployKey).Nodup := by
  decide +kernel

def signedDeploy (sig : List Byte) : ProcessedDeploy Unit :=
  let processed := sampleDeploy 4 1 false
  { processed with deploy := { processed.deploy with sig := sig } }

def firstBlock : SampleBlock :=
  { sampleBlock 1 [0] with
    postStateHash := sampleState ⟨96, by decide⟩
    deploys := [signedDeploy [1]] }

/-- A block with two deploys over one with a third. -/
def secondBlock : SampleBlock :=
  { sampleBlock 2 [1] with
    preStateHash := firstBlock.postStateHash
    postStateHash := sampleState ⟨88, by decide⟩
    deploys := [signedDeploy [2], signedDeploy [3]] }

def firstRun : List (Action Nat NativeState Unit) := [.receive firstBlock, .process 1]

def firstState : NodeState Nat NativeState Unit :=
  firstRun.foldl (NodeState.step sampleNode) (NodeState.genesis sampleNode sampleGenesis)

theorem first_state_store {hash : Nat} {ancestor : SampleBlock}
    (held : firstState.blockStore hash = some ancestor) :
    ancestor = sampleGenesis ∨ ancestor = firstBlock := by
  have wanted : isOfInterest sampleNode firstBlock = true := by decide +kernel
  have recent : checkIfKnown (NodeState.genesis sampleNode sampleGenesis).dag firstBlock =
      false := by
    decide +kernel
  have vacant : (NodeState.genesis sampleNode sampleGenesis).blockStore firstBlock.blockHash =
    none := rfl
  rw [firstState, firstRun, foldl_cons, foldl_cons, foldl_nil, process_keeps_store] at held
  simp only [NodeState.step, wanted, recent, vacant, Bool.not_false, Bool.and_self, if_true] at held
  simp only [NodeState.genesis, Function.update_apply] at held
  split_ifs at held
  · exact .inr (Option.some.inj held).symm
  · exact .inl (Option.some.inj held).symm

theorem second_block_executes_once :
    (firstState.dag.lookup 1).map (·.validationFailed) = some false ∧
      ExecutesOnce firstState secondBlock := by
  refine ⟨by decide +kernel, (executes_once_iff sampleNode sampleGenesis rfl (by decide +kernel)
    firstRun secondBlock (by decide +kernel)).mpr ⟨by decide +kernel, ?_⟩⟩
  intro m ancestor _ _ held d member earlier among same
  have differ : ∀ d ∈ secondBlock.deploys, ∀ earlier ∈ firstBlock.deploys,
      deployKey earlier ≠ deployKey d := by
    decide +kernel
  rcases first_state_store held with genesis | first
  · subst genesis
    cases among
  · subst first
    exact absurd same (differ d member earlier among)

end Example

end RChain.Casper
