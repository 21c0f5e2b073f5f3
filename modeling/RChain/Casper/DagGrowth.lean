import RChain.Casper.DagStores
import RChain.Casper.RepeatDeploy

/-!
# What a storage keeps while blocks are inserted

The index, the messages and the latest messages of a storage are determined by its metadata:
`Indexes` says what the index is for some metadata, `LatestOf` which messages are the latest ones,
and `Tracks` collects what every insertion that succeeds keeps.
-/

namespace RChain.Casper

open BitCodec Dag Native Sorted Steps List Function AList

variable {H R E F : Type} [LinearOrder H] [DecidableEq F]

section Index

/-- The blocks that name `parent` as a justification. -/
def IsChild (blocks : H → Option (BlockMetadata H R)) (parent child : H) : Prop :=
  ∃ m, blocks child = some m ∧ parent ∈ m.justifications

def AtHeight (blocks : H → Option (BlockMetadata H R)) (height : Nat) (hash : H) : Prop :=
  ∃ m, blocks hash = some m ∧ m.validationFailed = false ∧ m.blockNum = height

/-- The index that belongs to some metadata. -/
structure Indexes (index : DagState H) (blocks : H → Option (BlockMetadata H R)) : Prop where
  dagSet : ∀ hash, hash ∈ index.dagSet ↔ (blocks hash).isSome
  parents : ∀ parent, parent ∈ index.childMap ↔
    (blocks parent).isSome ∨ ∃ child, IsChild blocks parent child
  children : ∀ parent child, child ∈ (index.childMap.lookup parent).getD ∅ ↔
    IsChild blocks parent child
  heights : ∀ height, height ∈ index.heightMap ↔ ∃ hash, AtHeight blocks height hash
  levels : ∀ height hash, hash ∈ (index.heightMap.lookup height).getD ∅ ↔
    AtHeight blocks height hash

theorem lookup_eq_of {Key Value : Type} [DecidableEq Key] [DecidableEq Value]
    {left right : AList fun _ : Key => Finset Value} {key : Key}
    (keys : key ∈ left ↔ key ∈ right)
    (members : ∀ x, x ∈ (left.lookup key).getD ∅ ↔ x ∈ (right.lookup key).getD ∅) :
    left.lookup key = right.lookup key := by
  have same : (left.lookup key).getD ∅ = (right.lookup key).getD ∅ := Finset.ext members
  rw [← lookup_isSome, ← lookup_isSome] at keys
  cases first : left.lookup key with
  | none =>
    rw [first] at keys
    cases second : right.lookup key with
    | none => rfl
    | some =>
      rw [second] at keys
      exact absurd (keys.mpr rfl) (by simp)
  | some _ =>
    rw [first] at keys same
    cases second : right.lookup key with
    | none =>
      rw [second] at keys
      exact absurd (keys.mp rfl) (by simp)
    | some =>
      rw [second] at same
      exact congrArg some same

variable {index : DagState H} {blocks : H → Option (BlockMetadata H R)}
  {childMap : AList fun _ : H => Finset H} {parent k : H} {children : Finset H} {child : H}

theorem indexes_unique {other : DagState H} (first : Indexes index blocks)
    (second : Indexes other blocks) :
    index.dagSet = other.dagSet ∧ (∀ k, index.childMap.lookup k = other.childMap.lookup k) ∧
      ∀ n, index.heightMap.lookup n = other.heightMap.lookup n := by
  refine ⟨Finset.ext fun hash => ?_, fun k => ?_, fun n => ?_⟩
  · rw [first.dagSet, second.dagSet]
  · exact lookup_eq_of (by rw [first.parents, second.parents]) fun x => by
      rw [first.children, second.children]
  · exact lookup_eq_of (by rw [first.heights, second.heights]) fun x => by
      rw [first.levels, second.levels]

theorem indexes_empty :
    Indexes DagState.empty fun _ : H => (none : Option (BlockMetadata H R)) := by
  refine ⟨fun hash => ?_, fun parent => ?_, fun parent child => ?_, fun height => ?_,
    fun height hash => ?_⟩ <;> simp [DagState.empty, IsChild, AtHeight]

theorem mem_add_child : k ∈ addChild childMap parent children ↔ k = parent ∨ k ∈ childMap := by
  unfold addChild
  rw [mem_insert]

theorem children_add_child : child ∈ ((addChild childMap parent children).lookup k).getD ∅ ↔
      child ∈ (childMap.lookup k).getD ∅ ∨ k = parent ∧ child ∈ children := by
  unfold addChild
  by_cases same : k = parent
  · subst same
    rw [lookup_insert, Option.getD_some, Finset.mem_union]
    simp
  · rw [lookup_insert_ne same]
    simp [same]

theorem mem_add_children (parents : List H) (childMap : AList fun _ : H => Finset H) :
    k ∈ parents.foldl (fun acc parent => addChild acc parent children) childMap ↔
      k ∈ parents ∨ k ∈ childMap := by
  induction parents generalizing childMap with
  | nil => simp
  | cons _ _ ih =>
    rw [foldl_cons, ih, mem_add_child, mem_cons]
    tauto

theorem children_add_children (parents : List H) (childMap : AList fun _ : H => Finset H) :
    child ∈ ((parents.foldl (fun acc parent => addChild acc parent children) childMap).lookup
        k).getD ∅ ↔
      child ∈ (childMap.lookup k).getD ∅ ∨ k ∈ parents ∧ child ∈ children := by
  induction parents generalizing childMap with
  | nil => simp
  | cons _ _ ih =>
    rw [foldl_cons, ih, children_add_child, mem_cons]
    tauto

theorem indexes_step (indexes : Indexes index blocks) (block : BlockMetadata H R)
    (fresh : blocks block.blockHash = none) :
    Indexes (addBlockToDagState block index)
      (update blocks block.blockHash (some block)) := by
  have child (parent child : H) :
      IsChild (update blocks block.blockHash (some block)) parent child ↔
        IsChild blocks parent child ∨ child = block.blockHash ∧ parent ∈ block.justifications := by
    unfold IsChild
    by_cases here : child = block.blockHash
    · subst here
      simp [fresh]
    · simp [here]
  have level (height : Nat) (hash : H) :
      AtHeight (update blocks block.blockHash (some block)) height hash ↔
        AtHeight blocks height hash ∨
          hash = block.blockHash ∧ block.validationFailed = false ∧ block.blockNum = height := by
    unfold AtHeight
    by_cases here : hash = block.blockHash
    · subst here
      simp [fresh]
    · simp [here]
  refine ⟨fun hash => ?_, fun parent => ?_, fun parent other => ?_, fun height => ?_,
    fun height hash => ?_⟩
  · rw [addBlockToDagState, Finset.mem_insert, indexes.dagSet]
    by_cases here : hash = block.blockHash
    · simp [here]
    · simp [here]
  · rw [addBlockToDagState, mem_add_child, mem_add_children, indexes.parents]
    by_cases here : parent = block.blockHash
    · simp [here]
    · simp only [here, child, update_of_ne (f := blocks) here, false_or, exists_or, exists_eq_left]
      tauto
  · rw [addBlockToDagState, children_add_child, children_add_children, indexes.children, child]
    simp only [Finset.notMem_empty, and_false, or_false, Finset.mem_singleton]
    tauto
  · unfold addBlockToDagState
    cases failed : block.validationFailed with
    | true => simp [level, failed, indexes.heights]
    | false =>
      simp only [Bool.false_eq_true, if_false, mem_insert, indexes.heights, level, failed,
        true_and, exists_or, exists_eq_left]
      tauto
  · unfold addBlockToDagState
    cases failed : block.validationFailed with
    | true => simp [level, failed, indexes.levels]
    | false =>
      simp only [Bool.false_eq_true, if_false, level, failed, true_and]
      by_cases here : height = block.blockNum
      · subst here
        rw [lookup_insert, Option.getD_some, Finset.mem_insert, indexes.levels]
        tauto
      · rw [lookup_insert_ne here, indexes.levels]
        have other : ¬ block.blockNum = height := fun same => here same.symm
        simp [other]

end Index

section Recreation

variable {index : DagState H} {blocks : H → Option (BlockMetadata H R)} {done : List H}

omit [LinearOrder H] in
theorem validate_dag_state_congr {other : DagState H}
    (same : ∀ height, index.heightMap.lookup height = other.heightMap.lookup height) :
    validateDagState index = validateDagState other := by
  have members (height : Nat) : height ∈ index.heightMap.keys ↔ height ∈ other.heightMap.keys := by
    rw [← AList.mem_keys, ← AList.mem_keys, ← AList.lookup_isSome, ← AList.lookup_isSome, same]
  have perm : index.heightMap.keys.Perm other.heightMap.keys :=
    (perm_ext_iff_of_nodup index.heightMap.keys_nodup other.heightMap.keys_nodup).mpr members
  have low : index.heightMap.keys.min? = other.heightMap.keys.min? := by
    refine Option.ext fun height => ?_
    rw [min?_eq_some_iff, min?_eq_some_iff, members]
    simp only [members]
  have high : index.heightMap.keys.max? = other.heightMap.keys.max? := by
    refine Option.ext fun height => ?_
    rw [max?_eq_some_iff, max?_eq_some_iff, members]
    simp only [members]
  unfold validateDagState
  dsimp only
  rw [low, high, perm.length_eq]

def restricted (blocks : H → Option (BlockMetadata H R)) (done : List H) (hash : H) :
    Option (BlockMetadata H R) :=
  if hash ∈ done then blocks hash else none

theorem restricted_step {block : BlockMetadata H R} (found : blocks block.blockHash = some block) :
    restricted blocks (done ++ [block.blockHash]) =
      update (restricted blocks done) block.blockHash (some block) := by
  funext hash
  unfold restricted
  by_cases here : hash = block.blockHash
  · subst here
    simp [found]
  · simp [here]

theorem indexes_fold (named : ∀ hash m, blocks hash = some m → m.blockHash = hash) (rest : List H)
    (distinct : (done ++ rest).Nodup) (indexes : Indexes index (restricted blocks done)) :
    Indexes ((rest.filterMap blocks).foldl (fun state block => addBlockToDagState block state)
        index)
      (restricted blocks (done ++ rest)) := by
  induction rest generalizing done index with
  | nil => simpa using indexes
  | cons hash _ ih =>
    rw [append_cons] at distinct ⊢
    cases found : blocks hash with
    | none =>
      rw [filterMap_cons_none found]
      refine ih distinct ?_
      have same : restricted blocks (done ++ [hash]) = restricted blocks done := by
        funext other
        unfold restricted
        by_cases here : other = hash
        · subst here
          simp [found]
        · simp [here]
      rw [same]
      exact indexes
    | some block =>
      have name := named hash block found
      subst name
      rw [filterMap_cons_some found, foldl_cons]
      refine ih distinct ?_
      rw [restricted_step found]
      refine indexes_step indexes block ?_
      have fresh : block.blockHash ∉ done := fun mem =>
        (nodup_append.mp (nodup_append.mp distinct).1).2.2 _ mem _ (mem_singleton_self _) rfl
      rw [restricted, if_neg fresh]

theorem recreate_indexes {metadata : AList fun _ : H => BlockMetadata H R}
    (named : ∀ hash m, metadata.lookup hash = some m → m.blockHash = hash)
    (indexes : Indexes index metadata.lookup) (contiguous : validateDagState index = true) :
    ∃ recreated, recreateInMemoryState metadata = .ok recreated ∧
      Indexes recreated metadata.lookup := by
  have whole : restricted metadata.lookup ([] ++ elements metadata.keys.toFinset) =
      metadata.lookup := by
    funext hash
    unfold restricted
    split_ifs with mem
    · rfl
    · rw [nil_append, mem_elements, mem_toFinset, ← AList.mem_keys] at mem
      exact (lookup_eq_none.mpr mem).symm
  have start : Indexes DagState.empty (restricted metadata.lookup []) := by
    have nothing : restricted metadata.lookup [] = fun _ => none := by
      funext hash
      rw [restricted, if_neg (not_mem_nil)]
    rw [nothing]
    exact indexes_empty
  have rebuilt := indexes_fold named (elements metadata.keys.toFinset)
    (by simpa using elements_nodup _) start
  rw [whole] at rebuilt
  refine ⟨_, ?_, rebuilt⟩
  unfold recreateInMemoryState
  rw [if_pos]
  rw [← contiguous]
  exact validate_dag_state_congr (indexes_unique rebuilt indexes).2.2

end Recreation

section Latest

/-- The latest messages are those with the greatest sequence number of their sender among the
chosen ones. -/
structure LatestAmong (chosen : H → Prop) (state : DagMessageState H Validator) : Prop where
  greatest : ∀ sender m, state.latestMsgs.lookup sender = some m →
    m.sender = sender ∧ chosen m.id ∧ state.msgMap.lookup m.id = some m ∧
      ∀ id x, chosen id → state.msgMap.lookup id = some x → x.sender = sender →
        x.senderSeq ≤ m.senderSeq
  absent : ∀ sender, state.latestMsgs.lookup sender = none →
    ∀ id x, chosen id → state.msgMap.lookup id = some x → x.sender ≠ sender

/-- The latest messages are those with the greatest sequence number of their sender. -/
abbrev LatestOf (state : DagMessageState H Validator) : Prop := LatestAmong (fun _ => True) state

def SingleSequence (msgMap : MsgMap H Validator) : Prop :=
  ∀ id other x y, msgMap.lookup id = some x → msgMap.lookup other = some y →
    x.sender = y.sender → x.senderSeq = y.senderSeq → x = y

theorem latest_empty : LatestOf (DagMessageState.empty (M := H)) := by
  refine ⟨fun sender m found => ?_, fun sender _ id x _ found => ?_⟩ <;>
    simp [DagMessageState.empty] at found

variable {chosen next : H → Prop} {state : DagMessageState H Validator} {msg : Message H Validator}

theorem insert_msg_fresh (fresh : msg.id ∉ state.msgMap) :
    (state.insertMsg msg).msgMap = state.msgMap.insert msg.id msg ∧
      (state.insertMsgWithoutLatest msg).msgMap = state.msgMap.insert msg.id msg := by
  rw [DagMessageState.insertMsg, DagMessageState.insertMsgWithoutLatest, if_neg fresh, if_neg fresh]
  exact ⟨rfl, rfl⟩

theorem latest_msgs_insert (fresh : msg.id ∉ state.msgMap) (sender : Validator) :
    (state.insertMsg msg).latestMsgs.lookup sender = some msg ∧ sender = msg.sender ∧
        (∀ cur, state.latestMsgs.lookup sender = some cur → cur.senderSeq < msg.senderSeq) ∨
      (state.insertMsg msg).latestMsgs.lookup sender = state.latestMsgs.lookup sender ∧
        (sender = msg.sender → ∃ cur, state.latestMsgs.lookup sender = some cur ∧
          msg.senderSeq ≤ cur.senderSeq) := by
  rw [DagMessageState.insertMsg, if_neg fresh]
  dsimp only
  by_cases own : sender = msg.sender
  · subst own
    cases held : state.latestMsgs.lookup msg.sender with
    | none =>
      refine .inl ⟨?_, rfl, fun cur found => ?_⟩
      · rw [if_pos rfl, lookup_insert]
      · cases found
    | some cur =>
      by_cases later : cur.senderSeq < msg.senderSeq
      · refine .inl ⟨?_, rfl, fun other found => ?_⟩
        · rw [if_pos (decide_eq_true later), lookup_insert]
        · cases found
          exact later
      · refine .inr ⟨?_, fun _ => ⟨cur, rfl, not_lt.mp later⟩⟩
        rw [if_neg (by simpa using later), held]
  · refine .inr ⟨?_, fun same => absurd same own⟩
    split_ifs
    · rw [lookup_insert_ne own]
    · rfl

theorem insert_lookup_cases {id : H} {x : Message H Validator}
    (found : (state.msgMap.insert msg.id msg).lookup id = some x) :
    id = msg.id ∧ x = msg ∨ id ≠ msg.id ∧ state.msgMap.lookup id = some x := by
  by_cases here : id = msg.id
  · rw [here, lookup_insert] at found
    exact .inl ⟨here, (Option.some.inj found).symm⟩
  · rw [lookup_insert_ne here] at found
    exact .inr ⟨here, found⟩

theorem latest_among_insert (latest : LatestAmong chosen state) (fresh : msg.id ∉ state.msgMap)
    (new : next msg.id) (old : ∀ id, id ≠ msg.id → (next id ↔ chosen id)) :
    LatestAmong next (state.insertMsg msg) := by
  have map := (insert_msg_fresh fresh).1
  have kept {id : H} {x : Message H Validator} (found : state.msgMap.lookup id = some x) :
      id ≠ msg.id ∧ (state.msgMap.insert msg.id msg).lookup id = some x := by
    have different : id ≠ msg.id := fun same => fresh (same ▸ held_of_lookup found)
    exact ⟨different, by rw [lookup_insert_ne different, found]⟩
  constructor
  · intro sender m found
    rw [map]
    rcases latest_msgs_insert fresh sender with ⟨now, own, above⟩ | ⟨same, own⟩
    · rw [now] at found
      cases found
      refine ⟨own.symm, new, lookup_insert _, fun id x among held sent => ?_⟩
      rcases insert_lookup_cases held with ⟨_, here⟩ | ⟨other, before⟩
      · rw [here]
      · cases cur : state.latestMsgs.lookup sender with
        | none => exact absurd sent (latest.absent sender cur id x ((old id other).mp among) before)
        | some top =>
          exact ((latest.greatest sender top cur).2.2.2 id x ((old id other).mp among) before
            sent).trans (above top cur).le
    · rw [same] at found
      obtain ⟨sent, among, held, bound⟩ := latest.greatest sender m found
      obtain ⟨different, still⟩ := kept held
      refine ⟨sent, (old m.id different).mpr among, still, fun id x amongst here from_ => ?_⟩
      rcases insert_lookup_cases here with ⟨_, now⟩ | ⟨other, before⟩
      · subst now
        obtain ⟨_, top, le⟩ := own from_.symm
        rw [found] at top
        cases top
        exact le
      · exact bound id x ((old id other).mp amongst) before from_
  · intro sender found id x among held
    rw [map] at held
    rcases latest_msgs_insert fresh sender with ⟨now, _⟩ | ⟨same, own⟩
    · rw [now] at found
      cases found
    · rw [same] at found
      rcases insert_lookup_cases held with ⟨_, here⟩ | ⟨other, before⟩
      · rw [here]
        intro sent
        obtain ⟨_, top, _⟩ := own sent.symm
        rw [found] at top
        cases top
      · exact latest.absent sender found id x ((old id other).mp among) before

theorem latest_among_without (latest : LatestAmong chosen state) (fresh : msg.id ∉ state.msgMap)
    (out : ¬ next msg.id) (old : ∀ id, id ≠ msg.id → (next id ↔ chosen id)) :
    LatestAmong next (state.insertMsgWithoutLatest msg) := by
  have map := (insert_msg_fresh fresh).2
  have latestMsgs : (state.insertMsgWithoutLatest msg).latestMsgs = state.latestMsgs := by
    rw [DagMessageState.insertMsgWithoutLatest, if_neg fresh]
  constructor
  · intro sender m found
    rw [latestMsgs] at found
    obtain ⟨sent, among, held, bound⟩ := latest.greatest sender m found
    have different : m.id ≠ msg.id := fun same => fresh (same ▸ lookup_isSome.mp
      (by rw [held]; rfl))
    refine ⟨sent, (old m.id different).mpr among, ?_, fun id x amongst here from_ => ?_⟩
    · rw [map, lookup_insert_ne different, held]
    · rw [map] at here
      rcases insert_lookup_cases here with ⟨same, _⟩ | ⟨other, before⟩
      · exact absurd (same ▸ amongst) out
      · exact bound id x ((old id other).mp amongst) before from_
  · intro sender found id x among held
    rw [latestMsgs] at found
    rw [map] at held
    rcases insert_lookup_cases held with ⟨same, _⟩ | ⟨other, before⟩
    · exact absurd (same ▸ among) out
    · exact latest.absent sender found id x ((old id other).mp among) before

theorem latest_among_unique {left right : DagMessageState H Validator}
    (first : LatestAmong chosen left) (second : LatestAmong chosen right)
    (same : ∀ id, left.msgMap.lookup id = right.msgMap.lookup id)
    (single : SingleSequence right.msgMap) (sender : Validator) :
    left.latestMsgs.lookup sender = right.latestMsgs.lookup sender := by
  cases inLeft : left.latestMsgs.lookup sender with
  | none =>
    cases inRight : right.latestMsgs.lookup sender with
    | none => rfl
    | some m =>
      obtain ⟨sent, among, held, _⟩ := second.greatest sender m inRight
      exact absurd sent (first.absent sender inLeft m.id m among (by rw [same]; exact held))
  | some m =>
    obtain ⟨sent, among, held, bound⟩ := first.greatest sender m inLeft
    rw [same] at held
    cases inRight : right.latestMsgs.lookup sender with
    | none => exact absurd sent (second.absent sender inRight m.id m among held)
    | some other =>
      obtain ⟨sent', among', held', bound'⟩ := second.greatest sender other inRight
      have low := bound other.id other among' (by rw [same]; exact held') sent'
      have high := bound' m.id m among held sent
      rw [single m.id other.id m other held held' (sent.trans sent'.symm) (le_antisymm high low)]

end Latest

section Storage

/-- The number that validation asks for: above every justification that did not fail. -/
def Numbered (dag : BlockDag H R) (block : BlockMetadata H R) : Prop :=
  block.validationFailed = false → ∀ j ∈ block.justifications, ∀ p, dag.lookup j = some p →
    p.validationFailed = false → p.blockNum < block.blockNum

/-- What a storage keeps while blocks are inserted. -/
structure Tracks (fringeHash : Finset H → F) (stores : DagStores H R F) : Prop where
  named : ∀ hash m, stores.dag.lookup hash = some m → m.blockHash = hash
  indexes : Indexes stores.dag.index stores.dag.lookup
  contiguous : validateDagState stores.dag.index = true
  copied : stores.dag.representation.index = stores.dag.index
  known : ∀ hash, hash ∈ stores.dag.msgMap → (stores.dag.lookup hash).isSome
  messages : ∀ hash m, stores.dag.lookup hash = some m → ∃ justifications,
    m.justifications.mapM stores.dag.msgMap.lookup = some justifications ∧
      stores.dag.msgMap.lookup hash = some (blockMessage m justifications)
  single : SingleSequence stores.dag.msgMap
  latest : (∀ hash m, stores.dag.lookup hash = some m → m.validationFailed = false) →
    LatestOf stores.dag.representation.dagMessageState
  recorded : ∀ hash m, stores.dag.lookup hash = some m →
    stores.dag.representation.fringeStates m.fringe = stores.fringeData.lookup (fringeHash m.fringe)
  unrecorded : ∀ fringe, (∀ hash m, stores.dag.lookup hash = some m → m.fringe ≠ fringe) →
    stores.dag.representation.fringeStates fringe = none
  numbered : ∀ hash m, stores.dag.lookup hash = some m → Numbered stores.dag m

variable {fringeHash : Finset H → F} {stores : DagStores H R F} {block : BlockMetadata H R}
  {message : BlockMessage H R E} {justifications : List (Message H Validator)}

theorem inserted_lookup : (stores.inserted fringeHash block message justifications).dag.lookup =
      update stores.dag.lookup block.blockHash (some block) := by
  funext hash
  change (stores.dag.metadata.insert block.blockHash block).lookup hash = _
  by_cases here : hash = block.blockHash
  · subst here
    rw [lookup_insert, update_self]
  · rw [lookup_insert_ne here, update_of_ne here]
    rfl

theorem inserted_cases {hash : H} {m : BlockMetadata H R}
    (found : (stores.inserted fringeHash block message justifications).dag.lookup hash = some m) :
    hash = block.blockHash ∧ m = block ∨
      hash ≠ block.blockHash ∧ stores.dag.lookup hash = some m := by
  rw [inserted_lookup] at found
  by_cases here : hash = block.blockHash
  · subst here
    rw [update_self] at found
    exact .inl ⟨rfl, (Option.some.inj found).symm⟩
  · rw [update_of_ne here] at found
    exact .inr ⟨here, found⟩

section Step

variable (tracks : Tracks fringeHash stores) (fresh : block.blockHash ∉ stores.dag.index.dagSet)

include tracks fresh

theorem unknown_of_fresh : stores.dag.lookup block.blockHash = none := by
  rw [tracks.indexes.dagSet] at fresh
  simpa using fresh

theorem unsent_of_fresh : block.blockHash ∉ stores.dag.msgMap := by
  intro held
  have some := tracks.known _ held
  rw [unknown_of_fresh tracks fresh] at some
  cases some

omit tracks fresh in
theorem inserted_msg_map (unsent : block.blockHash ∉ stores.dag.msgMap) :
    (stores.inserted fringeHash block message justifications).dag.msgMap =
      stores.dag.msgMap.insert block.blockHash (blockMessage block justifications) := by
  change (if block.validationFailed then
      stores.dag.representation.dagMessageState.insertMsgWithoutLatest
        (blockMessage block justifications)
    else stores.dag.representation.dagMessageState.insertMsg
        (blockMessage block justifications)).msgMap = _
  have written := insert_msg_fresh
    (show (blockMessage block justifications).id ∉ stores.dag.representation.dagMessageState.msgMap
      from unsent)
  split_ifs
  · exact written.2
  · exact written.1

theorem inserted_keeps_metadata (hash : H) (m : BlockMetadata H R)
    (old : stores.dag.lookup hash = some m) :
    (stores.inserted fringeHash block message justifications).dag.lookup hash = some m := by
  have different : hash ≠ block.blockHash := fun same => by
    rw [same, unknown_of_fresh tracks fresh] at old
    cases old
  rw [inserted_lookup, update_of_ne different, old]

theorem inserted_keeps_messages (id : H) (x : Message H Validator)
    (held : stores.dag.msgMap.lookup id = some x) :
    (stores.inserted fringeHash block message justifications).dag.msgMap.lookup id = some x := by
  have different : id ≠ block.blockHash := fun same =>
    unsent_of_fresh tracks fresh (same ▸ held_of_lookup held)
  rw [inserted_msg_map (unsent_of_fresh tracks fresh), lookup_insert_ne different, held]

theorem inserted_message_cases {id : H} {x : Message H Validator}
    (held : (stores.inserted fringeHash block message justifications).dag.msgMap.lookup id =
      some x) :
    x = blockMessage block justifications ∨ stores.dag.msgMap.lookup id = some x := by
  rw [inserted_msg_map (unsent_of_fresh tracks fresh)] at held
  by_cases here : id = block.blockHash
  · subst here
    rw [lookup_insert] at held
    exact .inl (Option.some.inj held).symm
  · rw [lookup_insert_ne here] at held
    exact .inr held

theorem single_inserted (single : ¬ Equivocates stores block) :
    SingleSequence (stores.inserted fringeHash block message justifications).dag.msgMap := by
  have apart {id : H} {x : Message H Validator} (held : stores.dag.msgMap.lookup id = some x)
      (sender : x.sender = block.sender) : x.senderSeq ≠ block.seqNum := fun same =>
    single ⟨⟨id, x⟩, mem_lookup_iff.mp held, sender, same⟩
  intro id other x y first second sender seq
  rcases inserted_message_cases tracks fresh first with new | old
  · rcases inserted_message_cases tracks fresh second with new' | old'
    · rw [new, new']
    · subst new
      exact absurd seq.symm (apart old' sender.symm)
  · rcases inserted_message_cases tracks fresh second with new' | old'
    · subst new'
      exact absurd seq (apart old sender)
    · exact tracks.single id other x y old old' sender seq

theorem latest_inserted (valid : ∀ hash m, (stores.inserted fringeHash block message
      justifications).dag.lookup hash = some m → m.validationFailed = false) :
    LatestOf (stores.inserted fringeHash block message
      justifications).dag.representation.dagMessageState := by
  have passed : block.validationFailed = false :=
    valid block.blockHash block (by rw [inserted_lookup, update_self])
  change LatestOf (if block.validationFailed then _ else
    stores.dag.representation.dagMessageState.insertMsg (blockMessage block justifications))
  rw [passed]
  refine latest_among_insert (tracks.latest fun hash m old => ?_) (unsent_of_fresh tracks fresh)
    trivial fun _ _ => Iff.rfl
  exact valid hash m (inserted_keeps_metadata tracks fresh hash m old)

section

variable {hash : H} {m : BlockMetadata H R}
  (looked : (stores.inserted fringeHash block message justifications).dag.lookup hash = some m)
include looked

omit fresh in
theorem recorded_inserted (injective : Function.Injective fringeHash) :
    (stores.inserted fringeHash block message justifications).dag.representation.fringeStates
        m.fringe =
      (stores.inserted fringeHash block message justifications).fringeData.lookup
        (fringeHash m.fringe) := by
  change update stores.dag.representation.fringeStates block.fringe
    (some (recordOver stores.dag.msgMap justifications block message)) m.fringe =
      (stores.fringeData.insert (fringeHash block.fringe)
        (recordOver stores.dag.msgMap justifications block message)).lookup (fringeHash m.fringe)
  by_cases here : m.fringe = block.fringe
  · rw [here, update_self, Finmap.lookup_insert]
  · rw [update_of_ne here, Finmap.lookup_insert_of_ne _ fun same => here (injective same)]
    rcases inserted_cases looked with ⟨_, new⟩ | ⟨_, old⟩
    · exact absurd (by rw [new]) here
    · exact tracks.recorded hash m old

omit looked in
theorem unrecorded_inserted (fringe : Finset H) (nobody : ∀ hash m, (stores.inserted fringeHash
      block message justifications).dag.lookup hash = some m → m.fringe ≠ fringe) :
    (stores.inserted fringeHash block message justifications).dag.representation.fringeStates
      fringe = none := by
  have other : fringe ≠ block.fringe := fun same =>
    nobody block.blockHash block (by rw [inserted_lookup, update_self]) same.symm
  change update stores.dag.representation.fringeStates block.fringe
    (some (recordOver stores.dag.msgMap justifications block message)) fringe = none
  rw [update_of_ne other]
  exact tracks.unrecorded fringe fun hash m old =>
    nobody hash m (inserted_keeps_metadata tracks fresh hash m old)

theorem justification_before
    (found : block.justifications.mapM stores.dag.msgMap.lookup = some justifications) {j : H}
    (mem : j ∈ m.justifications) : j ∈ stores.dag.msgMap := by
  rcases inserted_cases looked with ⟨_, new⟩ | ⟨_, old⟩
  · subst new
    obtain ⟨_, _, held⟩ := mapM_some_mem found mem
    exact held_of_lookup held
  · obtain ⟨_, listed, _⟩ := tracks.messages hash m old
    obtain ⟨_, _, held⟩ := mapM_some_mem listed mem
    exact held_of_lookup held

theorem numbered_inserted (numbered : Numbered stores.dag block)
    (found : block.justifications.mapM stores.dag.msgMap.lookup = some justifications) :
    Numbered (stores.inserted fringeHash block message justifications).dag m := by
  intro passed j mem p parent valid
  have before := justification_before tracks fresh looked found mem
  rcases inserted_cases parent with ⟨here, _⟩ | ⟨_, known⟩
  · exact absurd (here ▸ before) (unsent_of_fresh tracks fresh)
  · rcases inserted_cases looked with ⟨_, new⟩ | ⟨_, old⟩
    · subst new
      exact numbered passed j mem p known valid
    · exact tracks.numbered hash m old passed j mem p known valid

end

theorem tracks_inserted (injective : Function.Injective fringeHash)
    (numbered : Numbered stores.dag block) (single : ¬ Equivocates stores block)
    (contiguous : validateDagState (addBlockToDagState block stores.dag.index) = true)
    (found : block.justifications.mapM stores.dag.msgMap.lookup = some justifications) :
    Tracks fringeHash (stores.inserted fringeHash block message justifications) where
  named := fun hash m looked => by
    rcases inserted_cases looked with ⟨here, new⟩ | ⟨_, old⟩
    · rw [here, new]
    · exact tracks.named hash m old
  indexes := by
    rw [inserted_lookup]
    exact indexes_step tracks.indexes block (unknown_of_fresh tracks fresh)
  contiguous := contiguous
  copied := rfl
  known := fun hash held => by
    rw [inserted_msg_map (unsent_of_fresh tracks fresh), mem_insert] at held
    rcases held with here | old
    · rw [here, inserted_lookup, update_self]
      rfl
    · obtain ⟨m, looked⟩ := Option.isSome_iff_exists.mp (tracks.known hash old)
      rw [inserted_keeps_metadata tracks fresh hash m looked]
      rfl
  messages := fun hash m looked => by
    rcases inserted_cases looked with ⟨here, new⟩ | ⟨_, old⟩
    · rw [here, new]
      refine ⟨justifications, mapM_some_of_grows (fun id _ => ?_) found, ?_⟩
      · exact inserted_keeps_messages tracks fresh id
      · rw [inserted_msg_map (unsent_of_fresh tracks fresh), lookup_insert]
    · obtain ⟨others, listed, held⟩ := tracks.messages hash m old
      refine ⟨others, mapM_some_of_grows (fun id _ => ?_) listed,
        inserted_keeps_messages tracks fresh hash _ held⟩
      exact inserted_keeps_messages tracks fresh id
  single := single_inserted tracks fresh single
  latest := latest_inserted tracks fresh
  recorded := fun _ _ looked => recorded_inserted tracks looked injective
  unrecorded := unrecorded_inserted tracks fresh
  numbered := fun _ _ looked => numbered_inserted tracks fresh looked numbered found

end Step

/-- What a node inserts is numbered: a block that passed validation, or one that failed. -/
theorem validated_numbered {Space Rand : Type} [DecidableEq R] {node : Node H R E Space Rand}
    {dag : BlockDag H R} {blockStore : BlockStore H R E} {status : BlockStatus}
    (validated : validate node dag blockStore message = .ok block ∨
      validate node dag blockStore message = .error (.validationFailed block status)) :
    Numbered dag block := by
  rcases validated with accepted | failed
  · obtain ⟨_, stages⟩ := validate_ok accepted
    obtain ⟨_, numbered, future, _⟩ := stages.check
    have ordered : Ordered ⟨dag, blockStore⟩ message block :=
      ordered_of_number future numbered block
    rw [stages.metadata]
    intro _ j mem
    exact ordered.2 j (mem_hash_set.mp mem)
  · have reported : Reported message (validate node dag blockStore message) :=
      validate_reported dag blockStore message
    rw [failed] at reported
    intro passed
    rw [reported.2] at passed
    cases passed

variable (fringeHash) in
/-- The storages that insertions lead to, from an empty one. -/
inductive Grown (E : Type) : DagStores H R F → Prop
  | empty : Grown E DagStores.empty
  | insert {stores : DagStores H R F} (block : BlockMetadata H R) (message : BlockMessage H R E)
      (grown : Grown E stores) (numbered : Numbered stores.dag block)
      (accepted : (stores.insert fringeHash block message).1 = .ok ()) :
      Grown E (stores.insert fringeHash block message).2

theorem tracks_empty : Tracks fringeHash (DagStores.empty : DagStores H R F) := by
  refine ⟨?_, indexes_empty, rfl, rfl, ?_, ?_, ?_, fun _ => latest_empty, ?_, fun _ _ => rfl, ?_⟩
  · intro _ _ found
    cases found
  · intro _ held
    cases held
  · intro _ _ found
    cases found
  · intro _ _ _ _ found
    cases found
  · intro _ _ found
    cases found
  · intro _ _ found
    cases found

theorem grown_tracks (injective : Function.Injective fringeHash)
    (grown : Grown fringeHash E stores) : Tracks fringeHash stores := by
  induction grown with
  | empty => exact tracks_empty
  | @insert stores block message _ numbered accepted ih =>
    have outcome := insert_cases fringeHash stores block message
    generalize stores.insert fringeHash block message = result at accepted outcome ⊢
    cases outcome with
    | known => exact ih
    | equivocation | holes | missing | missingKey => cases accepted
    | inserted _ fresh single contiguous found =>
      exact tracks_inserted ih fresh injective numbered single contiguous found

end Storage

end RChain.Casper
