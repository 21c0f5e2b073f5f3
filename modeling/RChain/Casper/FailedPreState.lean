import RChain.Casper.FailedBlock
import RChain.Casper.Merging

/-!
# The pre-state of other blocks after a failed block

The message of a failed block is named by no other message, so finalization does not see it. The
scope of a merge does where the block cites a block of a fringe that is merged over, since the scope
depends on all children of the fringe, and where it has no justifications and is taken for genesis.
A pre-state is a function of the scopes that are found for it, and any two scopes are told apart by
some merge or by some store of blocks.
-/

namespace RChain.Casper

open BitCodec Dag Native Sorted Steps List Option Finset

variable {H R E F : Type} [LinearOrder H] [DecidableEq F]

variable {fringeHash : Finset H → F} {stores : DagStores H R F} {block : BlockMetadata H R}
  {message : BlockMessage H R E} {justifications : List (Message H Validator)}

section Scope

variable {x : Message H Validator} {showHash : H → String} {name : String}
  {msgMap larger : MsgMap H Validator} {fringe mergeFringe finalFringe : Finset H}

theorem grounded_inserted (tracks : Tracks fringeHash stores)
    (grounded : Grounded stores.dag.msgMap)
    (fresh : block.blockHash ∉ stores.dag.index.dagSet)
    (found : block.justifications.mapM stores.dag.msgMap.lookup = some justifications)
    (held : ∀ hash ∈ block.fringe, hash ∈ stores.dag.msgMap) :
    Grounded (stores.inserted fringeHash block message justifications).dag.msgMap := by
  rw [inserted_msg_map (unsent_of_fresh tracks fresh)]
  refine grounded_insert (x := blockMessage block justifications) grounded
    (unsent_of_fresh tracks fresh) (fun p mem => ?_) held fun s => ?_
  · obtain ⟨_, _, sent⟩ := mapM_some_mem found mem
    exact held_of_lookup sent
  · change s ∈ insert block.blockHash (justifications.toFinset.biUnion (·.seen)) ↔ _
    rw [mem_insert, mem_biUnion]
    refine or_congr Iff.rfl ?_
    constructor
    · rintro ⟨y, mem, seen⟩
      obtain ⟨p, parent, sent⟩ := (mapM_some_mem_iff found).mp (mem_toFinset.mp mem)
      exact ⟨p, parent, y, sent, seen⟩
    · rintro ⟨p, parent, y, sent, seen⟩
      exact ⟨y, mem_toFinset.mpr ((mapM_some_mem_iff found).mpr ⟨p, parent, sent⟩), seen⟩

theorem grown_grounded (injective : Function.Injective fringeHash)
    (grown : Grown fringeHash E stores) : Grounded stores.dag.msgMap := by
  induction grown with
  | empty => exact grounded_empty
  | @insert stores block message grown _ accepted ih =>
    have tracks := grown_tracks injective grown
    have outcome := insert_cases fringeHash stores block message
    generalize stores.insert fringeHash block message = result at accepted outcome ⊢
    cases outcome with
    | known => exact ih
    | equivocation | holes | missing | missingKey => cases accepted
    | inserted _ fresh _ _ found held => exact grounded_inserted tracks ih fresh found held

theorem fringe_messages_included (included : Includes msgMap larger)
    (held : ∀ hash ∈ fringe, hash ∈ msgMap) :
    fringeMessages showHash name larger fringe = fringeMessages showHash name msgMap fringe := by
  unfold fringeMessages
  rw [mapM_congr fun hash mem => ?_]
  have same : larger.lookup hash = msgMap.lookup hash :=
    msg_at_included included (held hash (mem_elements.mp mem))
  rw [same]

theorem fringe_messages_carried {messages : Finset (Message H Validator)}
    (found : fringeMessages showHash name msgMap fringe = .ok messages) :
    ∀ m ∈ messages, Carries msgMap m := by
  intro _ mem
  obtain ⟨_, each, found⟩ := bind_eq_ok.mp found
  cases found
  obtain ⟨hash, _, here⟩ := exists_of_forall₂ (mapM_eq_ok each).flip (mem_toFinset.mp mem)
  refine ⟨hash, ?_⟩
  cases looked : msgMap.lookup hash with
  | none =>
    rw [looked] at here
    cases here
  | some =>
    rw [looked] at here
    rw [Except.ok.inj here]

theorem from_fringes_included (grounded : Grounded msgMap) (included : Includes msgMap larger)
    (genesis : findWithEmptyParents larger = findWithEmptyParents msgMap) {prunedFringe : Finset H}
    (mergeHeld : ∀ hash ∈ mergeFringe, hash ∈ msgMap)
    (finalHeld : ∀ hash ∈ finalFringe, hash ∈ msgMap)
    (pruneHeld : ∀ hash ∈ prunedFringe, hash ∈ msgMap) :
    MergeScope.fromFringes showHash mergeFringe finalFringe prunedFringe larger =
      MergeScope.fromFringes showHash mergeFringe finalFringe prunedFringe msgMap := by
  unfold MergeScope.fromFringes
  rw [fringe_messages_included included mergeHeld, fringe_messages_included included finalHeld,
    fringe_messages_included included pruneHeld, genesis]
  cases merged : fringeMessages showHash "merge" msgMap mergeFringe with
  | error => dsimp only [bind, Except.bind]
  | ok =>
    cases final : fringeMessages showHash "final" msgMap finalFringe with
    | error => dsimp only [bind, Except.bind]
    | ok =>
      cases pruned : fringeMessages showHash "prune" msgMap prunedFringe with
      | error => dsimp only [bind, Except.bind]
      | ok =>
        dsimp only [bind, Except.bind]
        rw [between_included grounded included (fringe_messages_carried merged)
            (fringe_messages_carried final),
          between_included grounded included (fringe_messages_carried final)
            (fringe_messages_carried pruned)]

theorem carries_of_lowest {msgs : List (Message H Validator)}
    (mem : x ∈ lowestFringe msgMap msgs) : Carries msgMap x := by
  unfold lowestFringe at mem
  split at mem
  · obtain ⟨id, _, found⟩ := mem_biUnion.mp mem
    exact ⟨id, mem_toFinset.mp found⟩
  · cases mem

/-- What stays in a DAG when a block is added. -/
structure Enlarges (dag larger : BlockDag H R) : Prop where
  grounded : Grounded dag.msgMap
  messages : Includes dag.msgMap larger.msgMap
  metadata : ∀ hash m, dag.lookup hash = some m →
    larger.lookup hash = some m ∧ hash ∈ dag.msgMap

/-- The block that is added cites some blocks, and is no genesis. -/
structure Adds (cited : List H) (dag larger : BlockDag H R) : Prop
    extends Enlarges dag larger where
  genesis : findWithEmptyParents larger.msgMap = findWithEmptyParents dag.msgMap
  children : ∀ hash ∈ dag.msgMap, hash ∉ cited →
    larger.representation.index.childMap.lookup hash = dag.representation.index.childMap.lookup hash
  childrenHeld : ∀ hash, ∀ child ∈ (dag.representation.index.childMap.lookup hash).getD ∅,
    child ∈ dag.msgMap

section Inserted

variable (tracks : Tracks fringeHash stores) (grounded : Grounded stores.dag.msgMap)
  (fresh : block.blockHash ∉ stores.dag.index.dagSet)

include tracks grounded fresh

variable (message justifications) in
theorem enlarges_inserted :
    Enlarges stores.dag (stores.inserted fringeHash block message justifications).dag := by
  refine ⟨grounded, inserted_keeps_messages tracks fresh, fun hash m found =>
    ⟨inserted_keeps_metadata tracks fresh hash m found, ?_⟩⟩
  obtain ⟨_, _, sent⟩ := tracks.messages hash m found
  exact held_of_lookup sent

theorem adds_inserted (cited : block.justifications ≠ []) : Adds block.justifications stores.dag
      (stores.inserted fringeHash block message justifications).dag := by
  have unsent := unsent_of_fresh tracks fresh
  have enlarged := enlarges_inserted message justifications tracks grounded fresh
  refine ⟨enlarged, ?_, fun hash held uncited => ?_, fun hash child mem => ?_⟩
  · rw [inserted_msg_map unsent]
    exact find_with_empty_parents_insert unsent cited
  · have other : hash ≠ block.blockHash := fun same => unsent (same ▸ held)
    rw [tracks.copied]
    change (addBlockToDagState block stores.dag.index).childMap.lookup hash = _
    refine lookup_eq_of ?_ fun child => ?_
    · rw [addBlockToDagState, mem_add_child, mem_add_children]
      tauto
    · rw [addBlockToDagState, children_add_child, children_add_children]
      tauto
  · rw [tracks.copied, tracks.indexes.children] at mem
    obtain ⟨m, found, _⟩ := mem
    exact (enlarged.metadata child m found).2

end Inserted

theorem ids_held (grounded : Grounded msgMap) {fringe : Finset (Message H Validator)}
    (carried : ∀ x ∈ fringe, Carries msgMap x) :
    ∀ hash ∈ fringe.image (·.id), hash ∈ msgMap := by
  intro _ mem
  obtain ⟨x, inside, same⟩ := mem_image.mp mem
  obtain ⟨id, found⟩ := carried x inside
  rw [← same, grounded.named id x found]
  exact held_of_lookup found

end Scope

section Merges

/-- A scope that was found, with the block whose post-state is its base while its final part is
empty. -/
abbrev FoundScope (H : Type) := Except String (MergeScope H × Option H)

/-- The merge of a scope, over the fringe states and the stored blocks. -/
abbrev ScopeMerge (H R E : Type) :=
  MergeScope H → R → (Finset H → Option (FringeData H R)) → BlockStore H R E →
    Except String (R × Finset (List Byte))

/-- The post-state of the base block of a scope, or the given state. -/
def scopeBase (blockStore : BlockStore H R E) (baseState : R) :
    Option H → Except (StoreError H) R
  | some hash => do
    let block ← getBlockUnsafe blockStore hash
    return block.postStateHash
  | none => .ok baseState

def mergeInScope (merge : ScopeMerge H R E) (states : Finset H → Option (FringeData H R))
    (blockStore : BlockStore H R E) (found : FoundScope H) (baseState : R) :
    Except (StoreError H) (R × Finset (List Byte)) := do
  let (scope, baseBlock) ← found.mapError .runtime
  let base ← scopeBase blockStore baseState baseBlock
  (merge scope base states blockStore).mapError .runtime

/-- What a pre-state is computed from: the justifications, the fringe that they saw with its record
and its bonds, and the fringe that they finalize. -/
structure ParentsView (H R : Type) where
  justifications : List (BlockMetadata H R)
  prevFringe : Finset H
  record : FringeData H R
  bondsMap : Bonds
  newFringe : Option (Finset H)

/-- The merges of fringes above fringes. -/
abbrev FringeMerge (H R : Type) :=
  Finset H → Finset H → R → Except (StoreError H) (R × Finset (List Byte))

/-- The merges in the scopes that a DAG gives. -/
def mergesIn (merge : ScopeMerge H R E) (states : Finset H → Option (FringeData H R))
    (blockStore : BlockStore H R E) (scopes : Finset H → Finset H → FoundScope H) :
    FringeMerge H R :=
  fun upper lower => mergeInScope merge states blockStore (scopes upper lower)

def finalState (mergeFor : FringeMerge H R) (view : ParentsView H R) :
    Except (StoreError H) (Finset H × R × Finset (List Byte)) :=
  match view.newFringe with
  | some fringe => do
    let merged ← mergeFor fringe view.prevFringe view.record.stateHash
    return (fringe, merged)
  | none => .ok (view.prevFringe, view.record.stateHash, view.record.rejectedDeploys)

def parentsState (mergeFor : FringeMerge H R) (blockStore : BlockStore H R E)
    (parentHashes : List H) (fringe : Finset H) (fringeState : R) :
    Except (StoreError H) (R × Finset (List Byte)) :=
  match parentHashes with
  | [parent] => do
    let block ← getBlockUnsafe blockStore parent
    return (block.postStateHash, ∅)
  | _ => mergeFor parentHashes.toFinset fringe fringeState

/-- The merges for a pre-state: of the new fringe above the old one, and of the parents above the
fringe. -/
def mergedStates (mergeFor : FringeMerge H R) (blockStore : BlockStore H R E)
    (parentHashes : List H) (view : ParentsView H R) :
    Except (StoreError H) ((Finset H × R × Finset (List Byte)) × (R × Finset (List Byte))) := do
  let finalized ← finalState mergeFor view
  let merged ← parentsState mergeFor blockStore parentHashes finalized.1 finalized.2.1
  return (finalized, merged)

/-- A scope has a base block exactly while its final part is empty. -/
def BaseFits (found : FoundScope H) : Prop :=
  ∀ scope base, found = .ok (scope, base) → (base = none ↔ scope.finalScope ≠ ∅)

/-- The scopes for a pre-state are the same as before. A parent that is alone is not merged, and
parents are merged only where the fringe could be. -/
def SameScopes (before after : Finset H → Finset H → FoundScope H) (parentHashes : List H)
    (view : ParentsView H R) : Prop :=
  (∀ fringe, view.newFringe = some fringe →
    after fringe view.prevFringe = before fringe view.prevFringe) ∧
  (parentHashes.length ≠ 1 →
    (∀ fringe, view.newFringe = some fringe → ∃ found, before fringe view.prevFringe = .ok found) →
    after parentHashes.toFinset (view.newFringe.getD view.prevFringe) =
      before parentHashes.toFinset (view.newFringe.getD view.prevFringe))

variable {merge : ScopeMerge H R E} {states : Finset H → Option (FringeData H R)}
  {blockStore : BlockStore H R E} {before after : Finset H → Finset H → FoundScope H}
  {parentHashes : List H} {view : ParentsView H R} {mergeFor other : FringeMerge H R}
  {fringe : Finset H} {state : R} {found : FoundScope H}

theorem parents_state_alone (alone : parentHashes.length = 1) :
    parentsState mergeFor blockStore parentHashes fringe state =
      parentsState other blockStore parentHashes fringe state := by
  obtain ⟨_, rfl⟩ := length_eq_one_iff.mp alone
  rfl

theorem parents_state_several (several : parentHashes.length ≠ 1) :
    parentsState mergeFor blockStore parentHashes fringe state =
      mergeFor parentHashes.toFinset fringe state := by
  unfold parentsState
  split
  · exact absurd rfl several
  · rfl

omit [LinearOrder H] in
theorem final_state_fringe {finalized : Finset H × R × Finset (List Byte)}
    (ended : finalState mergeFor view = .ok finalized) :
    finalized.1 = view.newFringe.getD view.prevFringe := by
  unfold finalState at ended
  cases computed : view.newFringe with
  | none =>
    rw [computed] at ended
    cases ended
    rfl
  | some =>
    rw [computed] at ended
    obtain ⟨_, _, ended⟩ := bind_eq_ok.mp ended
    cases ended
    rfl

omit [LinearOrder H] in
theorem found_of_merged {outcome : R × Finset (List Byte)}
    (merged : mergeInScope merge states blockStore found state = .ok outcome) :
    ∃ scope, found = .ok scope := by
  cases found with
  | error => cases merged
  | ok scope => exact ⟨scope, rfl⟩

theorem merged_states_same (same : SameScopes before after parentHashes view) :
    mergedStates (mergesIn merge states blockStore after) blockStore parentHashes view =
      mergedStates (mergesIn merge states blockStore before) blockStore parentHashes view := by
  obtain ⟨first, second⟩ := same
  have finals : finalState (mergesIn merge states blockStore after) view =
      finalState (mergesIn merge states blockStore before) view := by
    unfold finalState
    cases computed : view.newFringe with
    | none => rfl
    | some fringe =>
      dsimp only [mergesIn]
      rw [first fringe computed]
  unfold mergedStates
  rw [finals]
  cases ended : finalState (mergesIn merge states blockStore before) view with
  | error => rfl
  | ok finalized =>
    dsimp only [bind, Except.bind]
    by_cases alone : parentHashes.length = 1
    · rw [parents_state_alone alone]
    · rw [parents_state_several alone, parents_state_several alone, final_state_fringe ended,
        mergesIn, second alone fun fringe computed => ?_, mergesIn]
      unfold finalState at ended
      rw [computed] at ended
      obtain ⟨_, merged, _⟩ := bind_eq_ok.mp ended
      exact found_of_merged merged

section Probes

/-! A merge can tell scopes apart by its error, and a store base blocks by what it lacks. -/

def failureOf {Error Value : Type} : Except Error Value → Option Error
  | .error e => some e
  | .ok _ => none

/-- A merge that fails with a text of the scope, except in one scope. -/
def probe (silent : Option (MergeScope H)) (text : MergeScope H → String) (state : R) :
    ScopeMerge H R E :=
  fun scope _ _ _ => if silent = some scope then .ok (state, ∅) else .error (text scope)

variable {silent : Option (MergeScope H × Option H)} {text : MergeScope H → String} {base : R}

omit [LinearOrder H] in
theorem failure_bind_of_some {Error Value Other : Type} {x : Except Error Value}
    {f : Value → Except Error Other} {e : Error} (failed : failureOf x = some e) :
    failureOf (x >>= f) = some e := by
  cases x with
  | error => exact failed
  | ok => cases failed

omit [LinearOrder H] in
theorem failure_bind_pure {Error Value Other : Type} (x : Except Error Value) (f : Value → Other) :
    failureOf (x >>= fun value => pure (f value)) = failureOf x := by
  cases x with
  | error | ok => rfl

omit [LinearOrder H] in
theorem failure_map {Error Value Other : Type} (x : Except Error Value) (f : Value → Other) :
    failureOf (x.map f) = failureOf x := by
  cases x with
  | error | ok => rfl

omit [LinearOrder H] in
theorem failure_error (text : String) : failureOf (mergeInScope merge states blockStore
    (.error text) base) = some (.runtime text) := rfl

/-- The outcome of a probe, once the base block is there. -/
theorem probe_held {silent : Option (MergeScope H)} {scope : MergeScope H} {baseBlock : Option H}
    (held : ∀ hash, baseBlock = some hash → (blockStore hash).isSome) :
    mergeInScope (probe silent text state) states blockStore (.ok (scope, baseBlock)) base =
      if silent = some scope then .ok (state, ∅) else .error (.runtime (text scope)) := by
  have found : ∃ value, scopeBase blockStore base baseBlock = .ok value := by
    cases baseBlock with
    | none => exact ⟨base, rfl⟩
    | some hash =>
      obtain ⟨block, stored⟩ := isSome_iff_exists.mp (held hash rfl)
      exact ⟨block.postStateHash, by rw [scopeBase, getBlockUnsafe, stored]; rfl⟩
  obtain ⟨value, found⟩ := found
  unfold mergeInScope
  dsimp only [Except.mapError, bind, Except.bind]
  rw [found]
  dsimp only [probe]
  split_ifs <;> rfl

theorem failure_held {silent : Option (MergeScope H)} {scope : MergeScope H} {baseBlock : Option H}
    (held : ∀ hash, baseBlock = some hash → (blockStore hash).isSome) :
    failureOf (mergeInScope (probe silent text state) states blockStore (.ok (scope, baseBlock))
        base) = if silent = some scope then none else some (.runtime (text scope)) := by
  rw [probe_held held]
  split_ifs <;> rfl

omit [LinearOrder H] in
theorem failure_missing {scope : MergeScope H} {hash : H} (missing : blockStore hash = none) :
    failureOf (mergeInScope merge states blockStore (.ok (scope, some hash)) base) =
      some (.missingBlock hash) := by
  unfold mergeInScope
  dsimp only [Except.mapError, bind, Except.bind, scopeBase]
  rw [getBlockUnsafe, missing]
  rfl

variable (silent state states base) in
/-- No probe sees a difference between two scopes, as long as the base of the silent scope is
stored. -/
def Indistinct (E : Type) (one two : FoundScope H) : Prop :=
  ∀ (text : MergeScope H → String) (blockStore : BlockStore H R E),
    (∀ scope hash, silent = some (scope, some hash) → (blockStore hash).isSome) →
    failureOf (mergeInScope (probe (silent.map (·.1)) text state) states blockStore two base) =
      failureOf (mergeInScope (probe (silent.map (·.1)) text state) states blockStore one base)

variable {scope scopeToo : MergeScope H} {baseBlock baseToo : Option H}

theorem error_of_indistinct {e : String} {two : FoundScope H} (message : BlockMessage H R E)
    (indistinct : Indistinct states state silent base E (.error e) two) : two = .error e := by
  have told := indistinct (fun _ => e ++ "x") (fun _ => some message) fun _ _ _ => rfl
  cases two with
  | error => exact congrArg _ (StoreError.runtime.inj (Option.some.inj told))
  | ok =>
    rw [failure_error, failure_held fun _ _ => rfl] at told
    split_ifs at told
    have lengths := congrArg String.length (StoreError.runtime.inj (Option.some.inj told))
    simp at lengths

theorem scope_of_indistinct (message : BlockMessage H R E)
    (indistinct : Indistinct states state silent base E (.ok (scope, baseBlock))
      (.ok (scopeToo, baseToo))) : scopeToo = scope := by
  by_contra different
  have told := indistinct (fun t => if t = scope then "x" else "y") (fun _ => some message)
    fun _ _ _ => rfl
  rw [failure_held fun _ _ => rfl, failure_held fun _ _ => rfl, if_pos rfl,
    if_neg different] at told
  split_ifs at told with here there
  · exact different (Option.some.inj (here.symm.trans there))
  · exact absurd (StoreError.runtime.inj (Option.some.inj told)) (by decide)

theorem base_of_indistinct {hash hashToo : H} (message : BlockMessage H R E)
    (indistinct : Indistinct states state silent base E (.ok (scope, some hash))
      (.ok (scope, some hashToo))) : hashToo = hash := by
  by_contra different
  -- A store that lacks one of the two blocks tells them apart.
  let lacking (lacked : H) : BlockStore H R E :=
    fun hash => if hash = lacked then none else some message
  have held {lacked other : H} (apart : other ≠ lacked) : (lacking lacked other).isSome := by
    simp [lacking, apart]
  have missing (lacked : H) : lacking lacked lacked = none := if_pos rfl
  by_cases bottom : ∃ scope, silent = some (scope, some hash)
  · obtain ⟨_, here⟩ := bottom
    have told := indistinct (fun _ => "") (lacking hashToo) fun _ _ there => by
      cases here.symm.trans there
      exact held (Ne.symm different)
    rw [failure_missing (missing hashToo), failure_held fun _ same => by
      cases same
      exact held (Ne.symm different)] at told
    split_ifs at told
    cases told
  · have told := indistinct (fun _ => "") (lacking hash) fun scope other there => held fun same =>
      bottom ⟨scope, same ▸ there⟩
    rw [failure_missing (missing hash), failure_held fun _ same => by
      cases same
      exact held different] at told
    split_ifs at told
    cases told

/-- Probes and stores tell scopes apart. -/
theorem found_of_indistinct {one two : FoundScope H} (message : BlockMessage H R E)
    (fits : BaseFits one) (fitsToo : BaseFits two)
    (indistinct : Indistinct states state silent base E one two) : two = one := by
  cases one with
  | error => exact error_of_indistinct message indistinct
  | ok found =>
    cases two with
    | error =>
      exact (error_of_indistinct message fun text blockStore stored =>
        (indistinct text blockStore stored).symm).symm
    | ok again =>
      obtain ⟨scope, baseBlock⟩ := found
      obtain ⟨scopeToo, baseToo⟩ := again
      cases scope_of_indistinct message indistinct
      have ended := (fits _ _ rfl).trans (fitsToo _ _ rfl).symm
      cases baseBlock with
      | none => rw [ended.mp rfl]
      | some hash =>
        cases baseToo with
        | none => cases ended.mpr rfl
        | some => rw [base_of_indistinct message indistinct]

theorem probe_fails (text : MergeScope H → String) (found : FoundScope H) : ∃ e,
    failureOf (mergeInScope (probe none text state) states blockStore found base) = some e := by
  cases found with
  | error => exact ⟨_, rfl⟩
  | ok found =>
    obtain ⟨scope, baseBlock⟩ := found
    unfold mergeInScope
    cases based : scopeBase blockStore base baseBlock with
    | error e =>
      refine ⟨e, ?_⟩
      dsimp only [Except.mapError, bind, Except.bind]
      rw [based]
      rfl
    | ok value =>
      refine ⟨.runtime (text scope), ?_⟩
      dsimp only [Except.mapError, bind, Except.bind]
      rw [based]
      rfl

omit [LinearOrder H] in
theorem final_state_new {merged : Except (StoreError H) (R × Finset (List Byte))}
    (computed : view.newFringe = some fringe)
    (here : mergeFor fringe view.prevFringe view.record.stateHash = merged) :
    finalState mergeFor view = merged.map fun merged => (fringe, merged) := by
  unfold finalState
  rw [computed, ← here]
  rfl

/-- Once the fringe has its state, the merge fails like that of the parents. -/
theorem failure_merged {finalized : Finset H × R × Finset (List Byte)}
    (several : parentHashes.length ≠ 1) (ended : finalState mergeFor view = .ok finalized) :
    failureOf (mergedStates mergeFor blockStore parentHashes view) =
      failureOf (mergeFor parentHashes.toFinset (view.newFringe.getD view.prevFringe)
        finalized.2.1) := by
  unfold mergedStates
  rw [ended, ← final_state_fringe ended]
  dsimp only [bind, Except.bind]
  rw [parents_state_several several]
  exact failure_bind_pure _ _

variable (alike : ∀ (merge : ScopeMerge H R E) (blockStore : BlockStore H R E),
  failureOf (mergedStates (mergesIn merge states blockStore after) blockStore parentHashes view) =
  failureOf (mergedStates (mergesIn merge states blockStore before) blockStore parentHashes view))

include alike

theorem new_indistinct (computed : view.newFringe = some fringe) (state : R) :
    Indistinct states state none view.record.stateHash E (before fringe view.prevFringe)
      (after fringe view.prevFringe) := by
  intro text blockStore _
  have fails (scopes : Finset H → Finset H → FoundScope H) :
      failureOf (mergedStates (mergesIn (probe none text state) states blockStore scopes) blockStore
        parentHashes view) =
      failureOf (mergeInScope (probe none text state) states blockStore
        (scopes fringe view.prevFringe) view.record.stateHash) := by
    obtain ⟨e, failed⟩ := probe_fails text (scopes fringe view.prevFringe)
    rw [failed]
    unfold mergedStates
    refine failure_bind_of_some ?_
    rw [final_state_new computed rfl]
    exact failure_bind_of_some failed
  exact (fails after).symm.trans ((alike (probe none text state) blockStore).trans (fails before))

theorem parents_indistinct (several : parentHashes.length ≠ 1)
    (first : ∀ fringe, view.newFringe = some fringe →
      after fringe view.prevFringe = before fringe view.prevFringe)
    (found : ∀ fringe, view.newFringe = some fringe →
      ∃ found, before fringe view.prevFringe = .ok found) :
    ∃ silent, Indistinct states view.record.stateHash silent view.record.stateHash E
      (before parentHashes.toFinset (view.newFringe.getD view.prevFringe))
      (after parentHashes.toFinset (view.newFringe.getD view.prevFringe)) := by
  cases computed : view.newFringe with
  | none =>
    refine ⟨none, fun text blockStore _ => ?_⟩
    have ended (mergeFor : FringeMerge H R) : finalState mergeFor view =
        .ok (view.prevFringe, view.record.stateHash, view.record.rejectedDeploys) := by
      unfold finalState
      rw [computed]
    have told := alike (probe none text view.record.stateHash) blockStore
    rw [failure_merged several (ended _), failure_merged several (ended _), computed] at told
    exact told
  | some fringe =>
    obtain ⟨⟨scope, baseBlock⟩, here⟩ := found fringe computed
    refine ⟨some (scope, baseBlock), fun text blockStore stored => ?_⟩
    have ended (scopes : Finset H → Finset H → FoundScope H)
        (same : scopes fringe view.prevFringe = .ok (scope, baseBlock)) :
        finalState (mergesIn (probe (some scope) text view.record.stateHash) states blockStore
            scopes) view = .ok (fringe, view.record.stateHash, ∅) := by
      have merged : mergesIn (probe (some scope) text view.record.stateHash) states blockStore
          scopes fringe view.prevFringe view.record.stateHash =
          .ok (view.record.stateHash, ∅) := by
        rw [mergesIn, same, probe_held fun hash based => stored scope hash (by rw [based]), if_pos rfl]
      rw [final_state_new computed rfl, merged]
      rfl
    have told := alike (probe (some scope) text view.record.stateHash) blockStore
    rw [failure_merged several (ended before here),
      failure_merged several (ended after ((first fringe computed).trans here)), computed] at told
    exact told

/-- Where no merge and no store sees a difference, the scopes are the same. -/
theorem same_scopes_of_failures (message : BlockMessage H R E)
    (fits : ∀ upper lower, BaseFits (before upper lower))
    (fitsToo : ∀ upper lower, BaseFits (after upper lower)) :
    SameScopes before after parentHashes view := by
  have first (fringe : Finset H) (computed : view.newFringe = some fringe) :
      after fringe view.prevFringe = before fringe view.prevFringe :=
    found_of_indistinct message (fits _ _) (fitsToo _ _)
      (new_indistinct alike computed view.record.stateHash)
  refine ⟨first, fun several found => ?_⟩
  obtain ⟨_, indistinct⟩ := parents_indistinct alike several first found
  exact found_of_indistinct message (fits _ _) (fitsToo _ _) indistinct

end Probes

end Merges

section PreState

variable {Space Rand : Type}

def BlockDag.scope (showHash : H → String) (dag : BlockDag H R)
    (mergeFringe finalFringe : Finset H) : FoundScope H :=
  MergeScope.fromDag showHash mergeFringe finalFringe dag.representation.index.childMap dag.msgMap

/-- The merge of one fringe over another, as `get_pre_state_for_parents` calls it. -/
def mergeFromDag (showHash : H → String) (merge : ScopeMerge H R E) (dag : BlockDag H R)
    (blockStore : BlockStore H R E) (mergeFringe finalFringe : Finset H) :
    R → Except (StoreError H) (R × Finset (List Byte)) :=
  mergeInScope merge dag.representation.fringeStates blockStore
    (dag.scope showHash mergeFringe finalFringe)

/-- The node with a merge of scopes. -/
def Node.merging (node : Node H R E Space Rand) (showHash : H → String) (merge : ScopeMerge H R E) :
    Node H R E Space Rand :=
  { node with merge := mergeFromDag showHash merge }

/-- What the pre-state for these parents is computed from. -/
def parentsView (node : Node H R E Space Rand) (dag : BlockDag H R) (parentHashes : List H) :
    Except (StoreError H) (ParentsView H R) := do
  if parentHashes = [] then .error .parentsEmpty
  else
    let justifications ← lookupJustifications dag parentHashes
    let parents ← lookupMessages dag parentHashes
    let prevFringe := latestFringe dag.msgMap parents
    match dag.representation.fringeStates (prevFringe.image (·.id)) with
    | none => .error (.fringeStateNotAvailable (prevFringe.image (·.id)))
    | some record => do
      let bondsMap ← fringeBonds node justifications prevFringe record.stateHash
      return {
        justifications, record, bondsMap
        prevFringe := prevFringe.image (·.id)
        newFringe := (calculateFinalization dag.msgMap parents (stakes bondsMap)).2.map
          fun fringe => fringe.image (·.id) }

def ParentsView.merged (view : ParentsView H R)
    (states : (Finset H × R × Finset (List Byte)) × (R × Finset (List Byte))) :
    ParentsMergedState H R where
  justifications := view.justifications
  maxBlockNum := maxBlockNumberMetadata view.justifications
  maxSeqNums := view.justifications.foldl (fun acc m => acc.insert m.sender (m.seqNum : Int)) ∅
  fringe := states.1.1
  fringeState := states.1.2.1
  fringeBondsMap := view.bondsMap
  fringeRejectedDeploys := states.1.2.2
  preStateHash := states.2.1
  rejectedDeploys := states.2.2

variable {node : Node H R E Space Rand} {dag larger : BlockDag H R} {parentHashes : List H}
  {showHash : H → String}

theorem pre_state_view (node : Node H R E Space Rand) (dag : BlockDag H R)
    (blockStore : BlockStore H R E) (parentHashes : List H) :
    getPreStateForParents node dag blockStore parentHashes =
      parentsView node dag parentHashes >>= fun view =>
        (mergedStates (node.merge dag blockStore) blockStore parentHashes view).map view.merged := by
  unfold getPreStateForParents parentsView
  by_cases nobody : parentHashes = []
  · rw [if_pos nobody, if_pos nobody]
    rfl
  rw [if_neg nobody, if_neg nobody]
  cases lookupJustifications dag parentHashes with
  | error => rfl
  | ok justified =>
    cases lookupMessages dag parentHashes with
    | error => rfl
    | ok parents =>
      dsimp only [bind, Except.bind]
      cases dag.representation.fringeStates ((latestFringe dag.msgMap parents).image (·.id)) with
      | none => rfl
      | some record =>
        dsimp only
        cases (fringeBonds node justified (latestFringe dag.msgMap parents)
            record.stateHash : Except (StoreError H) Bonds) with
        | error => rfl
        | ok bonds =>
          have finals : finalizedFringe node dag blockStore parents
              ((latestFringe dag.msgMap parents).image (·.id)) record bonds =
              finalState (node.merge dag blockStore) ⟨justified,
                (latestFringe dag.msgMap parents).image (·.id), record, bonds,
                (calculateFinalization dag.msgMap parents (stakes bonds)).2.map
                  fun fringe => fringe.image (·.id)⟩ := by
            unfold finalizedFringe finalState
            cases (calculateFinalization dag.msgMap parents (stakes bonds)).2 with
            | none | some => rfl
          dsimp only [pure, Except.pure]
          rw [finals]
          unfold mergedStates
          cases finalState (node.merge dag blockStore) _ with
          | error => rfl
          | ok finalized =>
            obtain ⟨fringe, state, _⟩ := finalized
            have parentsMerged : parentsState (node.merge dag blockStore) blockStore parentHashes
              fringe state = conflictScopeState node dag blockStore parentHashes fringe state := rfl
            dsimp only [bind, Except.bind]
            rw [parentsMerged]
            cases conflictScopeState node dag blockStore parentHashes fringe state with
            | error | ok => rfl

/-- A set of parents that are known and did not fail. -/
def ValidParents (dag : BlockDag H R) (parentHashes : List H) : Prop :=
  parentHashes.Nodup ∧
    ∀ hash ∈ parentHashes, ∃ m, dag.lookup hash = some m ∧ m.validationFailed = false

def FinalizationEnds (node : Node H R E Space Rand) (dag : BlockDag H R) (parentHashes : List H) :
    Prop :=
  ∀ parents view, lookupMessages dag parentHashes = .ok parents →
    parentsView node dag parentHashes = .ok view →
    LoopEnds dag.msgMap parents (stakes view.bondsMap) (dag.msgMap.entries.length + 1)
      (latestFringe dag.msgMap parents)

/-- For valid parents, whatever the merge and the stored blocks, the pre-state is the same after. -/
def PreStatesKept (node : Node H R E Space Rand) (showHash : H → String)
    (before after : BlockDag H R) : Prop :=
  ∀ merge blockStore parentHashes, ValidParents before parentHashes →
    FinalizationEnds node before parentHashes →
    getPreStateForParents (node.merging showHash merge) after blockStore parentHashes =
      getPreStateForParents (node.merging showHash merge) before blockStore parentHashes

/-- For valid parents the scopes that are merged are the given ones. -/
def ScopesKept (node : Node H R E Space Rand) (showHash : H → String) (dag : BlockDag H R)
    (after : Finset H → Finset H → FoundScope H) : Prop :=
  ∀ parentHashes view, ValidParents dag parentHashes → FinalizationEnds node dag parentHashes →
    parentsView node dag parentHashes = .ok view →
    SameScopes (dag.scope showHash) after parentHashes view

/-- The scopes in a DAG that has the block, too. -/
def scopeWith (showHash : H → String) (dag : BlockDag H R) (block : BlockMetadata H R)
    (mergeFringe finalFringe : Finset H) : FoundScope H :=
  MergeScope.fromDag showHash mergeFringe finalFringe (addBlockToDagState block dag.index).childMap
    (dag.msgMap.insert block.blockHash
      (blockMessage block ((block.justifications.mapM dag.msgMap.lookup).getD [])))

theorem base_fits (showHash : H → String) (dag : BlockDag H R)
    (mergeFringe finalFringe : Finset H) : BaseFits (dag.scope showHash mergeFringe finalFringe) := by
  intro scope base found
  obtain ⟨_, _, found⟩ := bind_eq_ok.mp found
  obtain ⟨_, _, found⟩ := bind_eq_ok.mp found
  obtain ⟨_, _, found⟩ := bind_eq_ok.mp found
  dsimp only at found
  split_ifs at found with empty
  · cases genesis : findWithEmptyParents dag.msgMap with
    | none =>
      rw [genesis] at found
      cases found
    | some =>
      rw [genesis] at found
      cases found
      simp [empty]
  · cases found
    simp [empty]

theorem justifications_kept (valid : ValidParents dag parentHashes)
    (kept : ∀ hash m, dag.lookup hash = some m → larger.lookup hash = some m) :
    lookupJustifications larger parentHashes = lookupJustifications dag parentHashes := by
  refine mapM_congr fun hash mem => ?_
  obtain ⟨m, found, _⟩ := valid.2 hash mem
  rw [found, kept hash m found]

section Enlarged

variable (enlarged : Enlarges dag larger)
  (states : larger.representation.fringeStates = dag.representation.fringeStates)

include enlarged states

theorem parents_view_enlarged (valid : ValidParents dag parentHashes)
    (ends : FinalizationEnds node dag parentHashes) :
    parentsView node larger parentHashes = parentsView node dag parentHashes := by
  have metas := justifications_kept valid fun hash m found => (enlarged.metadata hash m found).1
  have messages : lookupMessages larger parentHashes = lookupMessages dag parentHashes := by
    refine mapM_congr fun hash mem => ?_
    obtain ⟨m, found, _⟩ := valid.2 hash mem
    have same : larger.msgMap.lookup hash = dag.msgMap.lookup hash :=
      msg_at_included enlarged.messages (enlarged.metadata hash m found).2
    rw [same]
  unfold FinalizationEnds at ends
  unfold parentsView at ends ⊢
  rw [metas, messages, states]
  by_cases nobody : parentHashes = []
  · rw [if_pos nobody, if_pos nobody]
  rw [if_neg nobody] at ends ⊢
  rw [if_neg nobody]
  cases listed : lookupJustifications dag parentHashes with
  | error => rfl
  | ok justified =>
    cases sent : lookupMessages dag parentHashes with
    | error => rfl
    | ok parents =>
      have carried (p : Message H Validator) (mem : p ∈ parents) : Carries dag.msgMap p := by
        rw [← messages_ok sent] at mem
        exact carries_of_mem mem
      rw [listed, sent] at ends
      dsimp only [bind, Except.bind] at ends ⊢
      rw [latest_fringe_included enlarged.grounded enlarged.messages carried]
      cases recorded : dag.representation.fringeStates
          ((latestFringe dag.msgMap parents).image (·.id)) with
      | none => rfl
      | some record =>
        rw [recorded] at ends
        dsimp only at ends ⊢
        cases bonded : (fringeBonds node justified (latestFringe dag.msgMap parents)
            record.stateHash : Except (StoreError H) Bonds) with
        | error => rfl
        | ok bonds =>
          rw [bonded] at ends
          dsimp only
          rw [finalization_included enlarged.grounded enlarged.messages carried _
            (ends parents _ rfl rfl)]

theorem pre_states_kept_iff (message : BlockMessage H R E) :
    PreStatesKept node showHash dag larger ↔
      ScopesKept node showHash dag (larger.scope showHash) := by
  have merges (merge : ScopeMerge H R E) (blockStore : BlockStore H R E) (dag : BlockDag H R) :
      (node.merging showHash merge).merge dag blockStore =
        mergesIn merge dag.representation.fringeStates blockStore (dag.scope showHash) := rfl
  have views (merge : ScopeMerge H R E) (dag : BlockDag H R) (parentHashes : List H) :
      parentsView (node.merging showHash merge) dag parentHashes =
        parentsView node dag parentHashes := rfl
  constructor
  · intro kept parentHashes view valid ends viewed
    have alike (merge : ScopeMerge H R E) (blockStore : BlockStore H R E) :
        failureOf (mergedStates (mergesIn merge dag.representation.fringeStates blockStore
          (larger.scope showHash)) blockStore parentHashes view) =
        failureOf (mergedStates (mergesIn merge dag.representation.fringeStates blockStore
          (dag.scope showHash)) blockStore parentHashes view) := by
      have same := kept merge blockStore parentHashes valid ends
      rw [pre_state_view, pre_state_view, merges, merges, states, views, views,
        parents_view_enlarged enlarged states valid ends, viewed] at same
      have failures := congrArg failureOf same
      dsimp only [bind, Except.bind] at failures
      rwa [failure_map, failure_map] at failures
    exact same_scopes_of_failures alike message (base_fits showHash dag) (base_fits showHash larger)
  · intro kept merge blockStore parentHashes valid ends
    rw [pre_state_view, pre_state_view, merges, merges, states, views, views,
      parents_view_enlarged enlarged states valid ends]
    cases viewed : parentsView node dag parentHashes with
    | error => dsimp only [bind, Except.bind]
    | ok view =>
      dsimp only [bind, Except.bind]
      rw [merged_states_same (kept parentHashes view valid ends viewed)]

end Enlarged

theorem pre_states_same_representation (same : larger.representation = dag.representation)
    (kept : ∀ hash m, dag.lookup hash = some m → larger.lookup hash = some m) :
    PreStatesKept node showHash dag larger := by
  intro merge blockStore parentHashes valid _
  have metas := justifications_kept valid kept
  have msgMap : larger.msgMap = dag.msgMap := by
    unfold BlockDag.msgMap
    rw [same]
  have merged : (node.merging showHash merge).merge larger =
      (node.merging showHash merge).merge dag := by
    change mergeFromDag showHash merge larger = mergeFromDag showHash merge dag
    unfold mergeFromDag BlockDag.scope
    rw [same, msgMap]
  unfold getPreStateForParents finalizedFringe conflictScopeState lookupMessages
  rw [metas, msgMap, same, merged]

section Apart

/-- The block cites no fringe that is merged over for valid parents. -/
def FringesApart (node : Node H R E Space Rand) (dag : BlockDag H R) (block : BlockMetadata H R) :
    Prop :=
  ∀ parentHashes view, ValidParents dag parentHashes → FinalizationEnds node dag parentHashes →
    parentsView node dag parentHashes = .ok view → ∀ j ∈ block.justifications,
      j ∉ view.prevFringe ∧ ∀ fringe, view.newFringe = some fringe → j ∉ fringe

theorem latest_fringe_carried {msgMap : MsgMap H Validator} {parents : List (Message H Validator)} :
    ∀ x ∈ latestFringe msgMap parents, Carries msgMap x := by
  intro _ mem
  unfold latestFringe at mem
  split at mem
  · obtain ⟨id, _, found⟩ := mem_biUnion.mp mem
    exact ⟨id, mem_toFinset.mp found⟩
  · cases mem

/-- The fringes of a view have messages. -/
theorem view_held (grounded : Grounded dag.msgMap) {view : ParentsView H R}
    (viewed : parentsView node dag parentHashes = .ok view) :
    (∀ hash ∈ parentHashes, hash ∈ dag.msgMap) ∧ (∀ hash ∈ view.prevFringe, hash ∈ dag.msgMap) ∧
      ∀ fringe, view.newFringe = some fringe → ∀ hash ∈ fringe, hash ∈ dag.msgMap := by
  unfold parentsView at viewed
  split_ifs at viewed
  obtain ⟨_, _, viewed⟩ := bind_eq_ok.mp viewed
  obtain ⟨parents, sent, viewed⟩ := bind_eq_ok.mp viewed
  have carried (p : Message H Validator) (mem : p ∈ parents) : Carries dag.msgMap p := by
    rw [← messages_ok sent] at mem
    exact carries_of_mem mem
  have held (hash : H) (mem : hash ∈ parentHashes) : hash ∈ dag.msgMap := by
    obtain ⟨_, _, here⟩ := exists_of_forall₂ (mapM_eq_ok sent) mem
    cases looked : dag.msgMap.lookup hash with
    | none =>
      rw [looked] at here
      cases here
    | some => exact held_of_lookup looked
  dsimp only at viewed
  split at viewed
  next => cases viewed
  next =>
    obtain ⟨_, _, viewed⟩ := bind_eq_ok.mp viewed
    cases viewed
    refine ⟨held, ids_held grounded latest_fringe_carried, fun fringe computed => ?_⟩
    obtain ⟨new, finalized, rfl⟩ := Option.map_eq_some_iff.mp computed
    exact ids_held grounded
      (carries_of_loop carried _ (fun f nothing => by cases nothing) finalized)

theorem scope_added {cited : List H} (added : Adds cited dag larger)
    {mergeFringe finalFringe : Finset H} (mergeHeld : ∀ hash ∈ mergeFringe, hash ∈ dag.msgMap)
    (finalHeld : ∀ hash ∈ finalFringe, hash ∈ dag.msgMap) (apart : ∀ j ∈ cited, j ∉ finalFringe) :
    larger.scope showHash mergeFringe finalFringe = dag.scope showHash mergeFringe finalFringe := by
  have pruned := prune_fringe_included added.grounded added.messages
    (fun hash mem => added.children hash (finalHeld hash mem) fun citing => apart hash citing mem)
    (fun hash _ => added.childrenHeld hash)
  unfold BlockDag.scope MergeScope.fromDag
  rw [pruned, pruneFringe, from_fringes_included added.grounded added.messages added.genesis
    mergeHeld finalHeld (ids_held added.grounded fun _ => carries_of_lowest)]

theorem scopes_kept_added (added : Adds block.justifications dag larger)
    (apart : FringesApart node dag block) :
    ScopesKept node showHash dag (larger.scope showHash) := by
  intro parentHashes view valid ends viewed
  obtain ⟨parentsHeld, prevHeld, newHeld⟩ := view_held added.grounded viewed
  have uncited := apart parentHashes view valid ends viewed
  refine ⟨fun fringe computed => scope_added added (newHeld fringe computed) prevHeld
    fun j mem => (uncited j mem).1, fun _ _ => ?_⟩
  refine scope_added added (fun hash mem => parentsHeld hash (mem_toFinset.mp mem)) ?_ ?_
  · cases computed : view.newFringe with
    | none => exact prevHeld
    | some fringe => exact newHeld fringe computed
  · intro j mem
    cases computed : view.newFringe with
    | none => exact (uncited j mem).1
    | some fringe => exact (uncited j mem).2 fringe computed

end Apart

section Failed

theorem scope_inserted (tracks : Tracks fringeHash stores)
    (fresh : block.blockHash ∉ stores.dag.index.dagSet)
    (found : block.justifications.mapM stores.dag.msgMap.lookup = some justifications)
    (message : BlockMessage H R E) (showHash : H → String) :
    (stores.inserted fringeHash block message justifications).dag.scope showHash =
      scopeWith showHash stores.dag block := by
  unfold BlockDag.scope scopeWith
  rw [inserted_msg_map (unsent_of_fresh tracks fresh), found]
  rfl

variable (injective : Function.Injective fringeHash) (grown : Grown fringeHash E stores)

include injective grown

/-- A block with justifications, none of them in a fringe that is merged over, keeps the scopes. -/
theorem scopes_kept_apart (fresh : block.blockHash ∉ stores.dag.index.dagSet)
    (found : block.justifications.mapM stores.dag.msgMap.lookup = some justifications)
    (cited : block.justifications ≠ []) (message : BlockMessage H R E)
    (apart : FringesApart node stores.dag block) :
    ScopesKept node showHash stores.dag (scopeWith showHash stores.dag block) := by
  have tracks := grown_tracks injective grown
  have grounded := grown_grounded injective grown
  have added : Adds block.justifications stores.dag
      (stores.inserted fringeHash block message justifications).dag :=
    adds_inserted tracks grounded fresh cited
  rw [← scope_inserted tracks fresh found message showHash]
  exact scopes_kept_added added apart

/-- The pre-states stay exactly when the DAG does or the scopes do. -/
theorem pre_states_kept_insert (failed : block.validationFailed = true)
    (inert : Inert stores (stores.insert fringeHash block message).2)
    (node : Node H R E Space Rand) (showHash : H → String) :
    PreStatesKept node showHash stores.dag (stores.insert fringeHash block message).2.dag ↔
      Refused stores block ∨ Unfounded stores block ∨ Unmarked stores block ∨
        ScopesKept node showHash stores.dag (scopeWith showHash stores.dag block) := by
  have tracks := grown_tracks injective grown
  have indexed (fresh : block.blockHash ∉ stores.dag.index.dagSet) (hash : H)
      (m : BlockMetadata H R) (found : stores.dag.lookup hash = some m) :
      (stores.indexed block message).dag.lookup hash = some m := by
    have still : (stores.inserted fringeHash block message []).dag.lookup hash = some m :=
      inserted_keeps_metadata tracks fresh hash m found
    exact still
  have outcome := insert_cases fringeHash stores block message
  generalize stores.insert fringeHash block message = result at outcome inert ⊢
  cases outcome with
  | known known => exact iff_of_true (fun _ _ _ _ _ => rfl) (.inl (.inl known))
  | equivocation _ equivocates =>
    exact iff_of_true (fun _ _ _ _ _ => rfl) (.inl (.inr (.inl equivocates)))
  | holes _ _ broken =>
    rw [failed_validate failed] at broken
    exact iff_of_true (pre_states_same_representation rfl fun _ _ found => found)
      (.inl (.inr (.inr broken)))
  | missing _ fresh _ _ absent =>
    exact iff_of_true (pre_states_same_representation rfl (indexed fresh)) (.inr (.inl absent))
  | missingKey justifications fresh _ _ found _ absent =>
    exact iff_of_true (pre_states_same_representation rfl (indexed fresh))
      (.inr (.inr (.inl ⟨justifications, found, absent⟩)))
  | inserted justifications fresh single sound found held marked =>
    have complete : ¬ Unmarked stores block := by
      rintro ⟨_, again, hash, mem, outside⟩
      cases found.symm.trans again
      exact outside (marked hash mem)
    rw [or_iff_right (not_refused failed fresh single sound),
      or_iff_right (not_unfounded found held), or_iff_right complete,
      ← scope_inserted tracks fresh found message showHash]
    exact pre_states_kept_iff (enlarges_inserted message justifications tracks
      (grown_grounded injective grown) fresh) inert.fringeStates message

end Failed

end PreState

section Samples

def pooledDeploy : ProcessedDeploy Unit := sampleDeploy 10 1 false

/-- The genesis storage with a deploy in the pool. -/
def pooledStores : DagStores Nat NativeState (Finset Nat) :=
  { genesisStores with deployStore := Finmap.singleton [1] pooledDeploy.deploy }

def genesisBlockStore : BlockStore Nat NativeState Unit :=
  fun hash => if hash = 0 then some sampleGenesis else none

/-- A block with the pooled deploy whose numbers skip some. -/
def grabbingBlock : SampleBlock := { skippingBlock with deploys := [pooledDeploy] }

def grabbingMetadata : BlockMetadata Nat NativeState :=
  markFailed (BlockMetadata.fromBlock sampleRuntime.zeroHash grabbingBlock)

/-- A block that failed after its fringe was computed. -/
def lateMetadata : BlockMetadata Nat NativeState :=
  { skippingMetadata with fringeStateHash := sampleGenesis.preStateHash }

theorem genesis_parents {parentHashes : List Nat}
    (valid : ValidParents genesisStores.dag parentHashes) :
    parentHashes = [] ∨ parentHashes = [0] := by
  obtain ⟨distinct, known⟩ := valid
  have keys : genesisStores.dag.metadata.keys = [0] := rfl
  have each (hash : Nat) (mem : hash ∈ parentHashes) : hash = 0 := by
    obtain ⟨m, found, _⟩ := known hash mem
    have held : hash ∈ genesisStores.dag.metadata := held_of_lookup found
    rw [AList.mem_keys, keys] at held
    exact List.mem_singleton.mp held
  match parentHashes with
  | [] => exact .inl rfl
  | [_] => exact .inr (by rw [each _ mem_cons_self])
  | a :: b :: _ =>
    have same : a = b :=
      (each a mem_cons_self).trans (each b (mem_cons_of_mem _ mem_cons_self)).symm
    exact absurd (same ▸ mem_cons_self) (nodup_cons.mp distinct).1

theorem late_fringes_apart : FringesApart sampleNode genesisStores.dag lateMetadata := by
  intro parentHashes view valid _ viewed
  rcases genesis_parents valid with rfl | rfl
  · cases viewed
  · have fringes : (parentsView sampleNode genesisStores.dag [0]).map
        (fun view => (view.prevFringe, view.newFringe)) = .ok (∅, none) := rfl
    rw [viewed] at fringes
    obtain ⟨prev, new⟩ := Prod.mk.inj (Except.ok.inj fringes)
    intro j _
    rw [prev, new]
    exact ⟨notMem_empty j, fun _ impossible => by cases impossible⟩

end Samples

end RChain.Casper
