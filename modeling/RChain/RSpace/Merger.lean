import Mathlib.Data.Finmap
import RChain.Lib.Sorted
import RChain.Lib.Steps
import RChain.RSpace.Internal
import RChain.Shared.Refined

/-!
# Applying state changes to a base state

Source: `rspace/src/merger/` (`channel_change.rs`, `state_change.rs`, `state_change_merger.rs`,
`mod.rs`).

A state is given by its rows, each the list of the encoded values under a hash; a row that is absent
is empty. Reading a row of the store cannot fail here. What a channel ends with is what the actions
of its key say, and each key has at most one.
-/

namespace RChain.TupleSpace

open BitCodec Sorted Finmap Option Steps

abbrev Raw := List Byte

abbrev HashedSet (Hash Item : Type) := Finmap fun _ : Hash => Item

abbrev NumberChannelsDiff (Hash : Type) := Finmap fun _ : Hash => Int64

section Sets

variable {Hash Item : Type} [LinearOrder Hash]

variable (key : Item → Hash)

/-- `BTreeSet::insert`. -/
def HashedSet.add (s : HashedSet Hash Item) (item : Item) : HashedSet Hash Item :=
  if key item ∈ s then s else s.insert (key item) item

def HashedSet.collect (items : List Item) : HashedSet Hash Item :=
  items.foldl (HashedSet.add key) ∅

def HashedSet.values (s : HashedSet Hash Item) : List Item :=
  (elements s.keys).filterMap s.lookup

theorem lookup_add (s : HashedSet Hash Item) (item : Item) (k : Hash) : (s.add key item).lookup k =
      (s.lookup k).or (if key item = k then some item else none) := by
  unfold HashedSet.add
  by_cases present : key item ∈ s
  · rw [if_pos present]
    by_cases here : key item = k
    · subst here
      obtain ⟨_, found⟩ := mem_iff.mp present
      rw [found, some_or]
    · rw [if_neg here, or_none]
  · rw [if_neg present]
    by_cases here : key item = k
    · subst here
      rw [lookup_insert, lookup_eq_none.mpr present, if_pos rfl, none_or]
    · rw [lookup_insert_of_ne _ (Ne.symm here), if_neg here, or_none]

theorem lookup_add_all (items : List Item) (s : HashedSet Hash Item) (k : Hash) :
    (items.foldl (HashedSet.add key) s).lookup k =
      (s.lookup k).or (items.find? fun item => key item = k) := by
  induction items generalizing s with
  | nil => rw [List.foldl_nil, List.find?_nil, or_none]
  | cons item _ ih =>
    rw [List.foldl_cons, ih, lookup_add, Option.or_assoc]
    congr 1
    by_cases here : key item = k
    · rw [if_pos here, List.find?_cons_of_pos (by simpa using here), some_or]
    · rw [if_neg here, List.find?_cons_of_neg (by simpa using here), none_or]

/-- Items that their keys tell apart are collected alike in any order. -/
theorem collect_perm (distinct : Function.Injective key) {left right : List Item}
    (perm : left.Perm right) : HashedSet.collect key left = HashedSet.collect key right := by
  refine ext_lookup fun k => ?_
  unfold HashedSet.collect
  rw [lookup_add_all, lookup_add_all]
  congr 1
  cases found : left.find? fun item => key item = k with
  | none =>
    refine (List.find?_eq_none.mpr fun item mem => ?_).symm
    exact List.find?_eq_none.mp found item (perm.mem_iff.mpr mem)
  | some item =>
    have here : key item = k := by simpa using List.find?_some found
    cases again : right.find? fun item => key item = k with
    | none =>
      exact absurd (decide_eq_true here) (List.find?_eq_none.mp again item
        (perm.mem_iff.mp (List.mem_of_find?_eq_some found)))
    | some other =>
      have there : key other = k := by simpa using List.find?_some again
      rw [distinct (here.trans there.symm)]

/-- A fold that writes one key after another, each from the value it finds. -/
theorem lookup_fold_insert {Value : Type} (write : Hash → Option Value → Value) {keys : List Hash}
    (distinct : keys.Nodup) (m : Finmap fun _ : Hash => Value) (k : Hash) :
    (keys.foldl (fun m k => m.insert k (write k (m.lookup k))) m).lookup k =
      if k ∈ keys then some (write k (m.lookup k)) else m.lookup k := by
  induction keys generalizing m with
  | nil => rfl
  | cons key _ ih =>
    rw [List.nodup_cons] at distinct
    rw [List.foldl_cons, ih distinct.2]
    by_cases here : k = key
    · subst here
      simp [distinct.1]
    · simp [here, lookup_insert_of_ne]

end Sets

/-- `*map.entry(k).or_insert(0) += v` for every entry of the second map. -/
def addDiffs {Hash : Type} [LinearOrder Hash] (x y : NumberChannelsDiff Hash) :
    NumberChannelsDiff Hash :=
  (elements y.keys).foldl
    (fun m k => m.insert k ((m.lookup k).getD 0 + (y.lookup k).getD 0)) x

structure ChannelChange (A : Type) where
  added : List A
  removed : List A
deriving DecidableEq

def ChannelChange.empty {A : Type} : ChannelChange A := ⟨[], []⟩

def ChannelChange.combine {A : Type} (x y : ChannelChange A) : ChannelChange A :=
  ⟨x.added ++ y.added, x.removed ++ y.removed⟩

structure StateChange (Hash : Type) where
  datumsChanges : Finmap fun _ : Hash => ChannelChange Raw
  kontChanges : Finmap fun _ : List Hash => ChannelChange Raw
  consumeChannelsToJoinSerializedMap : Finmap fun _ : List Hash => Raw

def StateChange.empty {Hash : Type} : StateChange Hash := ⟨∅, ∅, ∅⟩

/-- The rows of a state under the hash of a channel or of a list of channels. -/
structure HistoryRows (Hash : Type) where
  data : Hash → List Raw
  continuations : Hash → List Raw
  joins : Hash → List Raw

/-- The trie actions that a merge produces. -/
inductive MergeTrieAction (Hash : Type) where
  | trieInsertBinaryProduce (hash : Hash) (data : List Raw)
  | trieInsertBinaryJoins (hash : Hash) (joins : List Raw)
  | trieInsertBinaryConsume (hash : Hash) (conts : List Raw)
  | trieDeleteProduce (hash : Hash)
  | trieDeleteJoins (hash : Hash)
  | trieDeleteConsume (hash : Hash)

inductive JoinAction (Hash : Type) where
  | addJoin (channels : List Hash)
  | removeJoin (channels : List Hash)

def JoinAction.channels {Hash : Type} : JoinAction Hash → List Hash
  | .addJoin channels => channels
  | .removeJoin channels => channels

section Changes

variable {Hash : Type} [LinearOrder Hash]

/-- `seq_diff`: the first occurrence of each element of the second list is removed. -/
def seqDiff (a b : List Raw) : List Raw := a.diff b

section Maps

variable {K : Type} [LinearOrder K]

/-- `map.entry(k).or_default()`, extended by a change. -/
def extendChange (m : Finmap fun _ : K => ChannelChange Raw) (k : K) (change : ChannelChange Raw) :
    Finmap fun _ : K => ChannelChange Raw :=
  m.insert k (((m.lookup k).getD ChannelChange.empty).combine change)

def combineChannelChangeMap (x y : Finmap fun _ : K => ChannelChange Raw) :
    Finmap fun _ : K => ChannelChange Raw :=
  (elements y.keys).foldl
    (fun out k => extendChange out k ((y.lookup k).getD ChannelChange.empty)) x

theorem lookup_combine (x y : Finmap fun _ : K => ChannelChange Raw) (k : K) :
    (combineChannelChangeMap x y).lookup k = if k ∈ y then
      some (((x.lookup k).getD ChannelChange.empty).combine
        ((y.lookup k).getD ChannelChange.empty)) else x.lookup k := by
  have folded := lookup_fold_insert (fun k found => (found.getD ChannelChange.empty).combine
    ((y.lookup k).getD ChannelChange.empty)) (elements_nodup y.keys) x k
  simp only [mem_elements, mem_keys] at folded
  exact folded

end Maps

def StateChange.combine (x y : StateChange Hash) : StateChange Hash where
  datumsChanges := combineChannelChangeMap x.datumsChanges y.datumsChanges
  kontChanges := combineChannelChangeMap x.kontChanges y.kontChanges
  consumeChannelsToJoinSerializedMap :=
    y.consumeChannelsToJoinSerializedMap ∪ x.consumeChannelsToJoinSerializedMap

def changedRow (init : List Raw) (changes : ChannelChange Raw) : List Raw :=
  seqDiff init changes.removed ++ changes.added

def mkTrieAction (historyPointer : Hash) (initValue : List Raw) (changes : ChannelChange Raw)
    (removeAction : Hash → MergeTrieAction Hash)
    (updateAction : Hash → List Raw → MergeTrieAction Hash) :
    Except String (MergeTrieAction Hash) :=
  let newVal := changedRow initValue changes
  if newVal = [] ∧ initValue ≠ [] then .ok (removeAction historyPointer)
  else if initValue ≠ newVal then .ok (updateAction historyPointer newVal)
  else .error ("Merging logic error: empty channel change for produce or join " ++
    "when computing trie action.")

/-- The action for the continuations of these channels, with what happens to their join. -/
def consumeTrieAction (blake : Blake2b256 Hash) (base : HistoryRows Hash)
    (consumeChannels : List Hash) (change : ChannelChange Raw) :
    Except String (MergeTrieAction Hash × Option (JoinAction Hash)) :=
  let historyPointer := hashHashes blake consumeChannels
  let init := base.continuations historyPointer
  let newVal := changedRow init change
  if init = newVal then
    .error "Merging logic error: empty consume change when computing trie action."
  else if newVal = [] ∧ init ≠ [] then
    .ok (.trieDeleteConsume historyPointer, some (.removeJoin consumeChannels))
  else if init = [] then
    .ok (.trieInsertBinaryConsume historyPointer newVal, some (.addJoin consumeChannels))
  else .ok (.trieInsertBinaryConsume historyPointer newVal, none)

/-- Spread the addition or the removal of a join over its channels. -/
def spreadJoin (joins : Finmap fun _ : List Hash => Raw)
    (joinsChanges : Finmap fun _ : Hash => ChannelChange Raw) (joinAction : JoinAction Hash) :
    Except String (Finmap fun _ : Hash => ChannelChange Raw) :=
  match joins.lookup joinAction.channels with
  | none => .error "No ByteVector value for join found when merging when computing trie action."
  | some join =>
    .ok (joinAction.channels.foldl (fun m c =>
      let cur := (m.lookup c).getD ChannelChange.empty
      m.insert c (match joinAction with
        | .addJoin _ => ⟨join :: cur.added, cur.removed⟩
        | .removeJoin _ => ⟨cur.added, join :: cur.removed⟩)) joinsChanges)

/-- The trie actions that apply a state change to a base state. -/
def computeTrieActions (blake : Blake2b256 Hash) (changes : StateChange Hash)
    (base : HistoryRows Hash) (mergeableChs : NumberChannelsDiff Hash)
    (handleChannelChange :
      Hash → ChannelChange Raw → NumberChannelsDiff Hash → Option (MergeTrieAction Hash)) :
    Except String (List (MergeTrieAction Hash)) := do
  let consumeActions ← (elements changes.kontChanges.keys).mapM fun channels =>
    consumeTrieAction blake base channels
      ((changes.kontChanges.lookup channels).getD ChannelChange.empty)
  let produceTrieActions ← (elements changes.datumsChanges.keys).mapM fun pointer =>
    let change := (changes.datumsChanges.lookup pointer).getD ChannelChange.empty
    match handleChannelChange pointer change mergeableChs with
    | some action => .ok action
    | none => mkTrieAction pointer (base.data pointer) change .trieDeleteProduce
        .trieInsertBinaryProduce
  let joinsChanges ← (consumeActions.filterMap (·.2)).foldlM
    (spreadJoin changes.consumeChannelsToJoinSerializedMap) ∅
  let joinsTrieActions ← (elements joinsChanges.keys).mapM fun pointer =>
    mkTrieAction pointer (base.joins pointer)
      ((joinsChanges.lookup pointer).getD ChannelChange.empty) .trieDeleteJoins
      .trieInsertBinaryJoins
  pure (produceTrieActions ++ consumeActions.map (·.1) ++ joinsTrieActions)

/-- The rows after a trie action; a deleted row is empty. -/
def HistoryRows.write (rows : HistoryRows Hash) : MergeTrieAction Hash → HistoryRows Hash
  | .trieInsertBinaryProduce hash data => { rows with data := Function.update rows.data hash data }
  | .trieInsertBinaryConsume hash conts =>
    { rows with continuations := Function.update rows.continuations hash conts }
  | .trieInsertBinaryJoins hash joins =>
    { rows with joins := Function.update rows.joins hash joins }
  | .trieDeleteProduce hash => { rows with data := Function.update rows.data hash [] }
  | .trieDeleteConsume hash =>
    { rows with continuations := Function.update rows.continuations hash [] }
  | .trieDeleteJoins hash => { rows with joins := Function.update rows.joins hash [] }

/-- The kind of row and the hash of the key that an action writes. -/
def MergeTrieAction.key : MergeTrieAction Hash → Byte × Hash
  | .trieInsertBinaryProduce hash _ => (0, hash)
  | .trieDeleteProduce hash => (0, hash)
  | .trieInsertBinaryConsume hash _ => (1, hash)
  | .trieDeleteConsume hash => (1, hash)
  | .trieInsertBinaryJoins hash _ => (2, hash)
  | .trieDeleteJoins hash => (2, hash)

/-- The rows after the actions of a checkpoint, which may not write one key twice. -/
def HistoryRows.process (rows : HistoryRows Hash) (actions : List (MergeTrieAction Hash)) :
    Except String (HistoryRows Hash) :=
  if (actions.map MergeTrieAction.key).Nodup then .ok (actions.foldl HistoryRows.write rows)
  else .error "Cannot process duplicate actions on one key."

section Written

variable {rows result : HistoryRows Hash} {action : MergeTrieAction Hash} {hash : Hash}
  {data : List Raw} {actions : List (MergeTrieAction Hash)}

theorem write_elsewhere (other : action.key ≠ (0, hash)) :
    (rows.write action).data hash = rows.data hash := by
  cases action with
  | trieInsertBinaryProduce written _ | trieDeleteProduce written =>
    have apart : hash ≠ written := fun same => other (by rw [same, MergeTrieAction.key])
    exact Function.update_of_ne apart _ _
  | trieInsertBinaryConsume | trieInsertBinaryJoins | trieDeleteConsume | trieDeleteJoins => rfl

theorem write_all_elsewhere (others : ∀ action ∈ actions, action.key ≠ (0, hash)) :
    (actions.foldl HistoryRows.write rows).data hash = rows.data hash := by
  induction actions generalizing rows with
  | nil => rfl
  | cons action _ ih =>
    rw [List.foldl_cons, ih fun other mem => others other (List.mem_cons_of_mem _ mem),
      write_elsewhere (others action List.mem_cons_self)]

theorem write_all_produce (distinct : (actions.map MergeTrieAction.key).Nodup)
    (mem : .trieInsertBinaryProduce hash data ∈ actions) :
    (actions.foldl HistoryRows.write rows).data hash = data := by
  induction actions generalizing rows with
  | nil => exact absurd mem List.not_mem_nil
  | cons action rest ih =>
    rw [List.map_cons, List.nodup_cons] at distinct
    rw [List.foldl_cons]
    rcases List.mem_cons.mp mem with rfl | later
    · rw [write_all_elsewhere fun other among same =>
        distinct.1 (List.mem_map.mpr ⟨other, among, same⟩)]
      exact Function.update_self _ _ _
    · exact ih distinct.2 later

theorem process_eq_ok (done : rows.process actions = .ok result) :
    (actions.map MergeTrieAction.key).Nodup ∧ result = actions.foldl HistoryRows.write rows := by
  unfold HistoryRows.process at done
  split_ifs at done with distinct
  cases done
  exact ⟨distinct, rfl⟩

omit [LinearOrder Hash] in
theorem made_key {changes : ChannelChange Raw} {init : List Raw} {kind : Byte}
    {removeAction : Hash → MergeTrieAction Hash}
    {updateAction : Hash → List Raw → MergeTrieAction Hash}
    (removes : (removeAction hash).key = (kind, hash))
    (updates : ∀ row, (updateAction hash row).key = (kind, hash))
    (made : mkTrieAction hash init changes removeAction updateAction = .ok action) :
    action.key = (kind, hash) := by
  unfold mkTrieAction at made
  dsimp only at made
  split_ifs at made
  · cases made
    exact removes
  · cases made
    exact updates _

theorem consume_key {blake : Blake2b256 Hash} {channels : List Hash} {change : ChannelChange Raw}
    {join : Option (JoinAction Hash)}
    (made : consumeTrieAction blake rows channels change = .ok (action, join)) :
    action.key.1 = 1 := by
  unfold consumeTrieAction at made
  dsimp only at made
  split_ifs at made <;> cases made <;> rfl

variable {blake : Blake2b256 Hash} {changes : StateChange Hash} {chs : NumberChannelsDiff Hash}
  {handle : Hash → ChannelChange Raw → NumberChannelsDiff Hash → Option (MergeTrieAction Hash)}

/-- The actions on data: one for each changed channel, and no other. -/
theorem trie_actions_data
    (computed : computeTrieActions blake changes rows chs handle = .ok actions)
    (own : ∀ pointer change action, handle pointer change chs = some action →
      action.key = (0, pointer)) (hash : Hash) :
    (hash ∉ changes.datumsChanges → ∀ action ∈ actions, action.key ≠ (0, hash)) ∧
    (hash ∈ changes.datumsChanges → ∀ action,
      (∀ change, handle hash change chs = some action) → action ∈ actions) := by
  obtain ⟨consumes, consumed, computed⟩ := bind_eq_ok.mp computed
  obtain ⟨produces, produced, computed⟩ := bind_eq_ok.mp computed
  obtain ⟨joinChanges, _, computed⟩ := bind_eq_ok.mp computed
  obtain ⟨joins, joined, computed⟩ := bind_eq_ok.mp computed
  cases computed
  constructor
  · intro unchanged action mem same
    rcases List.mem_append.mp mem with mem | mem
    · rcases List.mem_append.mp mem with mem | mem
      · obtain ⟨pointer, among, made⟩ := exists_of_forall₂ (mapM_eq_ok produced).flip mem
        have key : action.key = (0, pointer) := by
          dsimp only at made
          split at made
          next handled =>
            cases made
            exact own _ _ _ handled
          next => exact made_key rfl (fun _ => rfl) made
        cases key.symm.trans same
        exact unchanged (mem_keys.mp (mem_elements.mp among))
      · obtain ⟨entry, among, rfl⟩ := List.mem_map.mp mem
        obtain ⟨channels, _, made⟩ := exists_of_forall₂ (mapM_eq_ok consumed).flip among
        have kind := consume_key made
        rw [same] at kind
        cases kind
    · obtain ⟨pointer, _, made⟩ := exists_of_forall₂ (mapM_eq_ok joined).flip mem
      have key : action.key = (2, pointer) := made_key rfl (fun _ => rfl) made
      cases key.symm.trans same
  · intro changed action handled
    obtain ⟨made, among, here⟩ := exists_of_forall₂ (mapM_eq_ok produced)
      (mem_elements.mpr (mem_keys.mpr changed))
    dsimp only at here
    rw [handled] at here
    cases here
    exact List.mem_append_left _ (List.mem_append_left _ among)

end Written

end Changes

end RChain.TupleSpace
