import RChain.Casper.Restart

/-!
# The insertion of a block that failed validation

A failed block does not become a latest message, but its deploys and its fringe are written like
those of a valid block: with the metadata of a block that failed early, the zero hash becomes the
state of the empty fringe. `Untouched` says when nothing is written that was not there.
-/

namespace RChain.Casper

open BitCodec Dag Native Sorted Steps List Finmap

variable {H R E F : Type} [LinearOrder H] [DecidableEq F]

section Stores

variable {Value : Type} {deployStore : Finmap fun _ : List Byte => SignedDeployData}
  {ids : List (List Byte)} {latest : Nat}

theorem lookup_put_all (value : Value) (keys : List (List Byte))
    (map : Finmap fun _ : List Byte => Value) (key : List Byte) :
    (keys.foldl (fun map key => map.insert key value) map).lookup key =
      if key ∈ keys then some value else map.lookup key := by
  induction keys generalizing map with
  | nil => simp
  | cons first keys ih =>
    rw [foldl_cons, ih]
    by_cases later : key ∈ keys
    · rw [if_pos later, if_pos (mem_cons_of_mem _ later)]
    · rw [if_neg later]
      by_cases here : key = first
      · rw [here, lookup_insert, if_pos mem_cons_self]
      · rw [lookup_insert_of_ne _ here, if_neg (by simp [here, later])]

theorem lookup_delete_deploys (ids : List (List Byte))
    (deployStore : Finmap fun _ : List Byte => SignedDeployData) (id : List Byte) :
    (deleteDeploys deployStore ids).lookup id =
      if id ∈ ids then none else deployStore.lookup id := by
  unfold deleteDeploys
  induction ids generalizing deployStore with
  | nil => simp
  | cons first ids ih =>
    rw [foldl_cons, ih]
    by_cases later : id ∈ ids
    · rw [if_pos later, if_pos (mem_cons_of_mem _ later)]
    · rw [if_neg later]
      by_cases here : id = first
      · rw [here, lookup_erase, if_pos mem_cons_self]
      · rw [lookup_erase_ne here, if_neg (by simp [here, later])]

omit [LinearOrder H] in
theorem put_deploys_eq_iff {deployIndex : Finmap fun _ : List Byte => H}
    {message : BlockMessage H R E} : putDeploys deployIndex message = deployIndex ↔
      ∀ sig ∈ deployHashes message, deployIndex.lookup sig = some message.blockHash := by
  have written (sig : List Byte) : (putDeploys deployIndex message).lookup sig =
      if sig ∈ deployHashes message then some message.blockHash else deployIndex.lookup sig :=
    lookup_put_all message.blockHash (deployHashes message) deployIndex sig
  constructor
  · intro same _ mem
    rw [← same, written, if_pos mem]
  · intro settled
    refine ext_lookup fun sig => ?_
    rw [written]
    split_ifs with mem
    · exact (settled sig mem).symm
    · rfl

theorem delete_deploys_eq_iff : deleteDeploys deployStore ids = deployStore ↔
      ∀ id ∈ ids, id ∉ deployStore := by
  constructor
  · intro same _ mem
    rw [← lookup_eq_none, ← same, lookup_delete_deploys, if_pos mem]
  · intro absent
    refine ext_lookup fun id => ?_
    rw [lookup_delete_deploys]
    split_ifs with mem
    · exact (lookup_eq_none.mpr (absent id mem)).symm
    · rfl

theorem insert_eq_of_lookup {Key : Type} [DecidableEq Key] {map : Finmap fun _ : Key => Value}
    {key : Key} {value : Value} (found : map.lookup key = some value) :
    map.insert key value = map := by
  refine ext_lookup fun other => ?_
  by_cases here : other = key
  · rw [here, lookup_insert, found]
  · rw [lookup_insert_of_ne _ here]

theorem mem_expired_ids {id : List Byte} : id ∈ expiredIds latest deployStore ↔
      ∃ d, deployStore.lookup id = some d ∧ expired latest d = true := by
  unfold expiredIds
  rw [mem_filter, mem_elements, Option.any_eq_true]
  constructor
  · rintro ⟨_, found⟩
    exact found
  · rintro ⟨d, found, old⟩
    exact ⟨mem_keys.mpr (lookup_isSome.mp (by rw [found]; rfl)), d, found, old⟩

theorem expire_deploys_eq_iff : expireDeploys latest (deleteDeploys deployStore ids) = deployStore ↔
      (∀ id ∈ ids, id ∉ deployStore) ∧
        ∀ id d, deployStore.lookup id = some d → expired latest d = false := by
  have lookups (id : List Byte) : (expireDeploys latest (deleteDeploys deployStore ids)).lookup id =
        if id ∈ expiredIds latest (deleteDeploys deployStore ids) then none
        else (deleteDeploys deployStore ids).lookup id :=
    lookup_delete_deploys _ _ id
  constructor
  · intro same
    have absent : ∀ id ∈ ids, id ∉ deployStore := by
      intro _ mem
      rw [← lookup_eq_none, ← same, lookups, lookup_delete_deploys, if_pos mem, ite_self]
    refine ⟨absent, fun id d found => ?_⟩
    rw [delete_deploys_eq_iff.mpr absent] at lookups same
    by_contra old
    have removed := lookups id
    rw [same, if_pos (mem_expired_ids.mpr ⟨d, found, by simpa using old⟩), found] at removed
    cases removed
  · rintro ⟨absent, fresh⟩
    rw [delete_deploys_eq_iff.mpr absent]
    refine delete_deploys_eq_iff.mpr fun id mem => ?_
    obtain ⟨d, found, old⟩ := mem_expired_ids.mp mem
    rw [fresh id d found] at old
    cases old

end Stores

section Frame

variable (fringeHash : Finset H → F) (stores : DagStores H R F) (block : BlockMetadata H R)
  (message : BlockMessage H R E)

/-- What a failed block must leave as it is. -/
structure Inert (before after : DagStores H R F) : Prop where
  latestMsgs : after.dag.representation.dagMessageState.latestMsgs =
    before.dag.representation.dagMessageState.latestMsgs
  fringeStates : after.dag.representation.fringeStates = before.dag.representation.fringeStates
  fringeData : after.fringeData = before.fringeData
  deployStore : after.deployStore = before.deployStore
  deployIndex : after.deployIndex = before.deployIndex

/-- The insertion ends before it writes to a store. -/
def Refused : Prop :=
  block.blockHash ∈ stores.dag.index.dagSet ∨ Equivocates stores block ∨
    validateDagState stores.dag.index = false

/-- No deploy of the block is pooled, and all are indexed to it. -/
def DeploysSettled : Prop :=
  ∀ sig ∈ deployHashes message,
    sig ∉ stores.deployStore ∧ stores.deployIndex.lookup sig = some message.blockHash

/-- A justification or a block of the fringe has no message. -/
def Unfounded : Prop :=
  block.justifications.mapM stores.dag.msgMap.lookup = none ∨
    ∃ hash ∈ block.fringe, hash ∉ stores.dag.msgMap

def Unmarked : Prop :=
  ∃ justifications, block.justifications.mapM stores.dag.msgMap.lookup = some justifications ∧
    ∃ hash ∈ fringeDiff stores.dag.msgMap justifications block.fringe,
      hash ∉ stores.dag.metadata.insert block.blockHash block

/-- What the insertion writes for the fringe of the block. -/
def newRecord : FringeData H R :=
  recordOver stores.dag.msgMap ((block.justifications.mapM stores.dag.msgMap.lookup).getD []) block
    message

/-- Everything that the insertion comes to write is there already. -/
def Untouched : Prop :=
  Refused stores block ∨ DeploysSettled stores message ∧
    (Unfounded stores block ∨
      stores.fringeData.lookup (fringeHash block.fringe) = some (newRecord stores block message) ∧
      (Unmarked stores block ∨
        stores.dag.representation.fringeStates block.fringe =
          some (newRecord stores block message) ∧
        ∀ id d, stores.deployStore.lookup id = some d →
          expired stores.dag.index.latestBlockNumber d = false))

variable {stores block message}

section

variable (failed : block.validationFailed = true)
include failed

theorem failed_height_map (index : DagState H) :
    (addBlockToDagState block index).heightMap = index.heightMap := by
  rw [addBlockToDagState, failed]
  rfl

theorem failed_validate (index : DagState H) :
    validateDagState (addBlockToDagState block index) = validateDagState index :=
  validate_dag_state_congr fun height => by rw [failed_height_map failed]

omit [LinearOrder H] [DecidableEq F] in
omit failed in
theorem deploys_settled_iff : DeploysSettled stores message ↔
    deleteDeploys stores.deployStore (deployHashes message) = stores.deployStore ∧
      putDeploys stores.deployIndex message = stores.deployIndex := by
  rw [delete_deploys_eq_iff, put_deploys_eq_iff, ← forall₂_and]
  rfl

omit [DecidableEq F] in
theorem not_refused (fresh : block.blockHash ∉ stores.dag.index.dagSet)
    (single : ¬ Equivocates stores block)
    (sound : validateDagState (addBlockToDagState block stores.dag.index) = true) :
    ¬ Refused stores block := by
  rintro (known | equivocates | broken)
  · exact fresh known
  · exact single equivocates
  · rw [failed_validate failed, broken] at sound
    cases sound

omit [DecidableEq F] in
omit failed in
theorem not_unfounded {justifications : List (Message H Validator)}
    (found : block.justifications.mapM stores.dag.msgMap.lookup = some justifications)
    (held : ∀ hash ∈ block.fringe, hash ∈ stores.dag.msgMap) : ¬ Unfounded stores block := by
  rintro (absent | ⟨hash, mem, outside⟩)
  · rw [found] at absent
    cases absent
  · exact outside (held hash mem)

omit failed in
omit [DecidableEq F] in
theorem indexed_inert_iff :
    Inert stores (stores.indexed block message) ↔ DeploysSettled stores message := by
  rw [deploys_settled_iff]
  constructor
  · intro inert
    exact ⟨inert.deployStore, inert.deployIndex⟩
  · rintro ⟨pool, index⟩
    exact ⟨rfl, rfl, rfl, pool, index⟩

omit failed in
theorem recorded_inert_iff (justifications : List (Message H Validator)) :
    Inert stores (stores.recorded fringeHash block message justifications) ↔
      DeploysSettled stores message ∧ stores.fringeData.lookup (fringeHash block.fringe) =
        some (recordOver stores.dag.msgMap justifications block message) := by
  rw [deploys_settled_iff]
  constructor
  · intro inert
    refine ⟨⟨inert.deployStore, inert.deployIndex⟩, ?_⟩
    rw [← inert.fringeData]
    exact lookup_insert _
  · rintro ⟨⟨pool, index⟩, recorded⟩
    exact ⟨rfl, rfl, insert_eq_of_lookup recorded, pool, index⟩

theorem inserted_inert_iff (justifications : List (Message H Validator)) :
    Inert stores (stores.inserted fringeHash block message justifications) ↔
      DeploysSettled stores message ∧
      stores.fringeData.lookup (fringeHash block.fringe) =
        some (recordOver stores.dag.msgMap justifications block message) ∧
      stores.dag.representation.fringeStates block.fringe =
        some (recordOver stores.dag.msgMap justifications block message) ∧
      ∀ id d, stores.deployStore.lookup id = some d →
        expired stores.dag.index.latestBlockNumber d = false := by
  have latest : (addBlockToDagState block stores.dag.index).latestBlockNumber =
      stores.dag.index.latestBlockNumber := by
    unfold DagState.latestBlockNumber
    rw [failed_height_map failed]
  have pool : (stores.inserted fringeHash block message justifications).deployStore =
      expireDeploys stores.dag.index.latestBlockNumber
        (deleteDeploys stores.deployStore (deployHashes message)) := by
    rw [← latest]
    rfl
  rw [deploys_settled_iff]
  constructor
  · intro inert
    have kept := inert.deployStore
    rw [pool, expire_deploys_eq_iff] at kept
    refine ⟨⟨delete_deploys_eq_iff.mpr kept.1, inert.deployIndex⟩, ?_, ?_, kept.2⟩
    · rw [← inert.fringeData]
      exact lookup_insert _
    · rw [← inert.fringeStates]
      exact Function.update_self _ _ _
  · rintro ⟨⟨deleted, index⟩, recorded, known, unexpired⟩
    refine ⟨?_, ?_, insert_eq_of_lookup recorded, ?_, index⟩
    · change (DagRepresentation.extend _ _ block.validationFailed _ _).dagMessageState.latestMsgs = _
      rw [failed]
      change (DagMessageState.insertMsgWithoutLatest _ _).latestMsgs = _
      unfold DagMessageState.insertMsgWithoutLatest
      split_ifs <;> rfl
    · exact Function.update_eq_self_iff.mpr known.symm
    · rw [pool]
      exact expire_deploys_eq_iff.mpr ⟨delete_deploys_eq_iff.mp deleted, unexpired⟩

theorem inert_iff_untouched : Inert stores (stores.insert fringeHash block message).2 ↔
      Untouched fringeHash stores block message := by
  have outcome := insert_cases fringeHash stores block message
  generalize stores.insert fringeHash block message = result at outcome ⊢
  cases outcome with
  | known known => exact iff_of_true ⟨rfl, rfl, rfl, rfl, rfl⟩ (.inl (.inl known))
  | equivocation _ equivocates =>
    exact iff_of_true ⟨rfl, rfl, rfl, rfl, rfl⟩ (.inl (.inr (.inl equivocates)))
  | holes _ _ broken =>
    rw [failed_validate failed] at broken
    exact iff_of_true ⟨rfl, rfl, rfl, rfl, rfl⟩ (.inl (.inr (.inr broken)))
  | missing _ fresh single sound absent =>
    rw [Untouched, or_iff_right (not_refused failed fresh single sound), indexed_inert_iff]
    exact (and_iff_left (.inl absent)).symm
  | missingKey justifications fresh single sound found held absent =>
    rw [Untouched, or_iff_right (not_refused failed fresh single sound),
      or_iff_right (not_unfounded found held), recorded_inert_iff, newRecord, found]
    have unmarked : Unmarked stores block := ⟨justifications, found, absent⟩
    exact and_congr_right fun _ => (and_iff_left (.inl unmarked)).symm
  | inserted justifications fresh single sound found held marked =>
    have complete : ¬ Unmarked stores block := by
      rintro ⟨_, again, hash, mem, outside⟩
      rw [found] at again
      cases again
      exact outside (marked hash mem)
    rw [Untouched, or_iff_right (not_refused failed fresh single sound),
      or_iff_right (not_unfounded found held), or_iff_right complete, newRecord, found]
    exact inserted_inert_iff fringeHash failed justifications

end

end Frame

end RChain.Casper
