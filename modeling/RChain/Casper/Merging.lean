import RChain.Dag.MessageMap
import RChain.Models.Block
import RChain.RSpace.Merger

/-!
# Merging into a base state

Source: `casper/src/merging.rs` (`MergeScope::from_dag`, `from_fringes`, `compute_merged_state`) and
`rholang/src/merging.rs` (`calculate_number_channel_merge`).

The scope of a merge is found from fringes. The deploy chains that are accepted are applied to the
rows of the base state; a number channel gets the base value and all differences. What stored bytes
decode to and the random generators are parameters.
-/

namespace RChain.Casper

open BitCodec Dag Sorted Steps TupleSpace

structure MergeScope (H : Type) where
  finalScope : Finset H
  conflictScope : Finset H
deriving DecidableEq

section Scope

variable {H : Type} [LinearOrder H]

/-- The messages of a fringe; all of them must be in the DAG. -/
def fringeMessages (showHash : H → String) (name : String) (dagData : MsgMap H Validator)
    (fringe : Finset H) : Except String (Finset (Message H Validator)) := do
  let messages ← (elements fringe).mapM fun h =>
    match dagData.lookup h with
    | some msg => .ok msg
    | none => .error s!"{name} fringe not in dag: {showHash h}"
  return messages.toFinset

/-- The scope of a merge, and the block whose post-state is its base while the final scope is
empty. -/
def MergeScope.fromFringes (showHash : H → String) (mergeFringe finalFringe pruneFringe : Finset H)
    (dagData : MsgMap H Validator) : Except String (MergeScope H × Option H) := do
  let mergeMsgs ← fringeMessages showHash "merge" dagData mergeFringe
  let finalMsgs ← fringeMessages showHash "final" dagData finalFringe
  let pruneMsgs ← fringeMessages showHash "prune" dagData pruneFringe
  let cScope := between dagData mergeMsgs finalMsgs
  let fScope := between dagData finalMsgs pruneMsgs
  let baseMsg ← if fScope = ∅ then
      match findWithEmptyParents dagData with
      | some genesis => .ok (some genesis.id)
      | none => .error "Final scope is empty but no genesis found."
    else .ok none
  return (⟨fScope.image (·.id), cScope.image (·.id) \ baseMsg.toFinset⟩, baseMsg)

def MergeScope.fromDag (showHash : H → String) (mergeFringe finalFringe : Finset H)
    (childMap : AList fun _ : H => Finset H) (dagData : MsgMap H Validator) :
    Except String (MergeScope H × Option H) :=
  MergeScope.fromFringes showHash mergeFringe finalFringe
    ((pruneFringe dagData finalFringe childMap).image (·.id)) dagData

end Scope

/-- What a merge of number channels uses of the rest of the node. -/
structure MergeEnv (Hash Rnd : Type) where
  blake : Blake2b256 Hash
  getNumber : Raw → Except String Int64
  decodeRnd : Raw → Except String Rnd
  rndBytes : Rnd → List Byte
  mergeRnd : List Rnd → Rnd
  createDatumEncoded : Hash → Int64 → Rnd → Raw
  bytes_injective : Function.Injective rndBytes

/-- What the merged state is computed from of a deploy chain. -/
structure DeployChainIndex (Hash : Type) where
  numberChannelsData : TupleSpace.NumberChannelsDiff Hash
  stateChanges : StateChange Hash

section Merge

variable {Hash Rnd : Type} [LinearOrder Hash] (env : MergeEnv Hash Rnd)

def readMergeableValue (base : HistoryRows Hash) (channel : Hash) : Except String Int64 :=
  match base.data channel with
  | [] => .ok 0
  | [datum] => env.getNumber datum
  | _ => .error "To calculate difference on a number channel, single value is expected."

/-- The generator of the merged datum. -/
def mergedRnd (added : List Raw) : Except String Rnd :=
  match added.dedup with
  | [single] => env.decodeRnd single
  | _ => do
    let randoms ← added.mapM env.decodeRnd
    let distinct := HashedSet.collect env.rndBytes randoms
    return env.mergeRnd distinct.values

/-- The action that writes the merged value of a number channel. -/
def calculateNumberChannelMerge (channelHash : Hash) (diff : Int64) (changes : ChannelChange Raw)
    (base : HistoryRows Hash) : Except String (MergeTrieAction Hash) := do
  let initNum ← readMergeableValue env base channelHash
  match checkedAdd initNum diff with
  | none => .error "number channel merge overflow"
  | some newVal =>
    let newRnd ← mergedRnd env changes.added
    return .trieInsertBinaryProduce channelHash [env.createDatumEncoded channelHash newVal newRnd]

def combinedChanges (toMerge : List (DeployChainIndex Hash)) : StateChange Hash :=
  toMerge.foldl (fun acc b => acc.combine b.stateChanges) StateChange.empty

def mergeableDiffs (toMerge : List (DeployChainIndex Hash)) : TupleSpace.NumberChannelsDiff Hash :=
  toMerge.foldl (fun acc b => addDiffs acc b.numberChannelsData) ∅

/-- The change of the data of a channel; none is an empty one. -/
def datumsChange (changes : StateChange Hash) (hash : Hash) : ChannelChange Raw :=
  (changes.datumsChanges.lookup hash).getD ChannelChange.empty

/-- The actions of the number channels, which come in the place of those of their changes. -/
def numberOverrides (diffs : TupleSpace.NumberChannelsDiff Hash) (changes : StateChange Hash)
    (base : HistoryRows Hash) : Except String (Finmap fun _ : Hash => MergeTrieAction Hash) :=
  (elements diffs.keys).foldlM (fun out hash => do
    let action ← calculateNumberChannelMerge env hash ((diffs.lookup hash).getD 0)
      (datumsChange changes hash) base
    return out.insert hash action) ∅

/-- The rows after merging deploy chains, in their order, into the base state. -/
def computeMergedState (toMerge : List (DeployChainIndex Hash)) (base : HistoryRows Hash) :
    Except String (HistoryRows Hash) := do
  let allChanges := combinedChanges toMerge
  let diffs := mergeableDiffs toMerge
  let overrides ← numberOverrides env diffs allChanges base
  let trieActions ← computeTrieActions env.blake allChanges base diffs
    fun hash _ _ => overrides.lookup hash
  base.process trieActions

theorem datums_change_combine (x y : StateChange Hash) (hash : Hash) :
    datumsChange (x.combine y) hash = (datumsChange x hash).combine (datumsChange y hash) := by
  unfold datumsChange StateChange.combine
  rw [lookup_combine]
  split_ifs with changed
  · rfl
  · rw [Finmap.lookup_eq_none.mpr changed]
    exact (congrArg₂ ChannelChange.mk (List.append_nil _) (List.append_nil _)).symm

theorem mem_datums_combine (x y : StateChange Hash) (hash : Hash) :
    hash ∈ (x.combine y).datumsChanges ↔ hash ∈ x.datumsChanges ∨ hash ∈ y.datumsChanges := by
  simp only [← Finmap.lookup_isSome]
  unfold StateChange.combine
  rw [lookup_combine]
  split_ifs with changed <;> simp [Finmap.lookup_isSome, changed]

/-- What the chains add to a channel, one after another. -/
theorem combined_added (toMerge : List (DeployChainIndex Hash)) (hash : Hash) :
    (datumsChange (combinedChanges toMerge) hash).added =
      toMerge.flatMap fun b => (datumsChange b.stateChanges hash).added := by
  have folded (start : StateChange Hash) :
      (datumsChange (toMerge.foldl (fun acc b => acc.combine b.stateChanges) start) hash).added =
        (datumsChange start hash).added ++
          toMerge.flatMap fun b => (datumsChange b.stateChanges hash).added := by
    induction toMerge generalizing start with
    | nil => exact (List.append_nil _).symm
    | cons b _ ih =>
      rw [List.foldl_cons, ih, datums_change_combine, List.flatMap_cons, ← List.append_assoc]
      rfl
  exact folded StateChange.empty

theorem mem_combined (toMerge : List (DeployChainIndex Hash)) (hash : Hash) :
    hash ∈ (combinedChanges toMerge).datumsChanges ↔
      ∃ b ∈ toMerge, hash ∈ b.stateChanges.datumsChanges := by
  have folded (start : StateChange Hash) :
      hash ∈ (toMerge.foldl (fun acc b => acc.combine b.stateChanges) start).datumsChanges ↔
        hash ∈ start.datumsChanges ∨ ∃ b ∈ toMerge, hash ∈ b.stateChanges.datumsChanges := by
    induction toMerge generalizing start with
    | nil => simp
    | cons b _ ih =>
      rw [List.foldl_cons, ih, mem_datums_combine, List.exists_mem_cons_iff, or_assoc]
  exact (folded StateChange.empty).trans (or_iff_right (Finmap.notMem_empty))

theorem add_diffs_comm (acc x y : TupleSpace.NumberChannelsDiff Hash) :
    addDiffs (addDiffs acc x) y = addDiffs (addDiffs acc y) x := by
  refine Finmap.ext_lookup fun k => ?_
  have added (m z : TupleSpace.NumberChannelsDiff Hash) : (addDiffs m z).lookup k =
      if k ∈ z then some ((m.lookup k).getD 0 + (z.lookup k).getD 0) else m.lookup k := by
    have folded := lookup_fold_insert
      (fun k (found : Option Int64) => found.getD 0 + (z.lookup k).getD 0)
      (elements_nodup z.keys) m k
    simp only [mem_elements, Finmap.mem_keys] at folded
    exact folded
  rw [added, added, added, added]
  split_ifs <;> simp [Int64.add_assoc, Int64.add_comm ((x.lookup k).getD 0)]

/-- The differences are added up alike in any order. -/
theorem mergeable_diffs_perm {left right : List (DeployChainIndex Hash)} (perm : left.Perm right) :
    mergeableDiffs left = mergeableDiffs right := by
  have comm : RightCommutative fun (acc : TupleSpace.NumberChannelsDiff Hash)
      (b : DeployChainIndex Hash) => addDiffs acc b.numberChannelsData :=
    ⟨fun acc x y => add_diffs_comm acc x.numberChannelsData y.numberChannelsData⟩
  exact perm.foldl_eq ∅

variable {env} {diffs : TupleSpace.NumberChannelsDiff Hash} {changes : StateChange Hash}
  {base merged : HistoryRows Hash} {hash : Hash} {action : MergeTrieAction Hash}
  {overrides : Finmap fun _ : Hash => MergeTrieAction Hash}

omit [LinearOrder Hash] in
/-- The generator does not depend on the order of the added data. -/
theorem merged_rnd_perm {left right : List Raw} {rnd other : Rnd} (perm : left.Perm right)
    (one : mergedRnd env left = .ok rnd) (again : mergedRnd env right = .ok other) :
    rnd = other := by
  have dedups : left.dedup.Perm right.dedup := perm.dedup
  unfold mergedRnd at one again
  split at one
  next single alone =>
    rw [alone] at dedups
    rw [dedups.symm.eq_singleton] at again
    exact Except.ok.inj (one.symm.trans again)
  next several =>
    split at again
    next single alone =>
      rw [alone] at dedups
      exact absurd dedups.eq_singleton (several single)
    next =>
      obtain ⟨randoms, decoded, one⟩ := bind_eq_ok.mp one
      obtain ⟨others, decodedAgain, again⟩ := bind_eq_ok.mp again
      cases one
      cases again
      have same : randoms.Perm others := by
        rw [mapM_ok_eq_filterMap decoded, mapM_ok_eq_filterMap decodedAgain]
        exact perm.filterMap _
      rw [collect_perm env.rndBytes env.bytes_injective same]

omit [LinearOrder Hash] in
/-- The action of a number channel writes its datum. -/
theorem number_merge_ok {diff : Int64} {change : ChannelChange Raw}
    (ended : calculateNumberChannelMerge env hash diff change base = .ok action) :
    ∃ init value rnd, readMergeableValue env base hash = .ok init ∧
      checkedAdd init diff = some value ∧ mergedRnd env change.added = .ok rnd ∧
      action = .trieInsertBinaryProduce hash [env.createDatumEncoded hash value rnd] := by
  obtain ⟨init, read, ended⟩ := bind_eq_ok.mp ended
  split at ended
  next => cases ended
  next value sum =>
    obtain ⟨rnd, merged, ended⟩ := bind_eq_ok.mp ended
    cases ended
    exact ⟨init, value, rnd, read, sum, merged, rfl⟩

/-- Each number channel with a difference has its action. -/
theorem overrides_lookup (ended : numberOverrides env diffs changes base = .ok overrides)
    (hash : Hash) :
    (hash ∈ diffs → ∃ action, calculateNumberChannelMerge env hash ((diffs.lookup hash).getD 0)
      (datumsChange changes hash) base = .ok action ∧ overrides.lookup hash = some action) ∧
    (hash ∉ diffs → overrides.lookup hash = none) := by
  have folded (keys : List Hash) (start : Finmap fun _ : Hash => MergeTrieAction Hash)
      (ended : keys.foldlM (fun out hash => do
        let action ← calculateNumberChannelMerge env hash ((diffs.lookup hash).getD 0)
          (datumsChange changes hash) base
        return out.insert hash action) start = .ok overrides) :
      (hash ∈ keys → ∃ action, calculateNumberChannelMerge env hash ((diffs.lookup hash).getD 0)
        (datumsChange changes hash) base = .ok action ∧ overrides.lookup hash = some action) ∧
      (hash ∉ keys → overrides.lookup hash = start.lookup hash) := by
    induction keys generalizing start with
    | nil =>
      cases ended
      exact ⟨fun mem => absurd mem List.not_mem_nil, fun _ => rfl⟩
    | cons key keys ih =>
      rw [List.foldlM_cons] at ended
      obtain ⟨next, stepped, ended⟩ := bind_eq_ok.mp ended
      obtain ⟨action, made, stepped⟩ := bind_eq_ok.mp stepped
      cases stepped
      obtain ⟨later, before⟩ := ih _ ended
      constructor
      · intro mem
        by_cases again : hash ∈ keys
        · exact later again
        · cases (List.mem_cons.mp mem).resolve_right again
          exact ⟨action, made, by rw [before again, Finmap.lookup_insert]⟩
      · intro outside
        rw [List.mem_cons, not_or] at outside
        rw [before outside.2, Finmap.lookup_insert_of_ne _ outside.1]
  obtain ⟨inside, outside⟩ := folded _ ∅ ended
  rw [mem_elements, Finmap.mem_keys] at inside outside
  exact ⟨inside, fun absent => (outside absent).trans (Finmap.lookup_empty hash)⟩

/-- What a number channel with a difference holds after a merge. -/
theorem merged_row {toMerge : List (DeployChainIndex Hash)}
    (ended : computeMergedState env toMerge base = .ok merged)
    (recorded : hash ∈ mergeableDiffs toMerge) :
    (hash ∉ (combinedChanges toMerge).datumsChanges → merged.data hash = base.data hash) ∧
    (hash ∈ (combinedChanges toMerge).datumsChanges → ∃ init value rnd,
      readMergeableValue env base hash = .ok init ∧
      checkedAdd init (((mergeableDiffs toMerge).lookup hash).getD 0) = some value ∧
      mergedRnd env (datumsChange (combinedChanges toMerge) hash).added = .ok rnd ∧
      merged.data hash = [env.createDatumEncoded hash value rnd]) := by
  obtain ⟨overrides, overridden, ended⟩ := bind_eq_ok.mp ended
  obtain ⟨actions, computed, ended⟩ := bind_eq_ok.mp ended
  obtain ⟨distinct, rfl⟩ := process_eq_ok ended
  have own (pointer : Hash) (_ : ChannelChange Raw) (action : MergeTrieAction Hash)
      (found : overrides.lookup pointer = some action) : action.key = (0, pointer) := by
    by_cases listed : pointer ∈ mergeableDiffs toMerge
    · obtain ⟨made, calculated, here⟩ := (overrides_lookup overridden pointer).1 listed
      cases here.symm.trans found
      obtain ⟨_, _, _, _, _, _, rfl⟩ := number_merge_ok calculated
      rfl
    · cases found.symm.trans ((overrides_lookup overridden pointer).2 listed)
  obtain ⟨kept, written⟩ := trie_actions_data computed own hash
  constructor
  · exact fun unchanged => write_all_elsewhere (kept unchanged)
  · intro changed
    obtain ⟨action, calculated, here⟩ := (overrides_lookup overridden hash).1 recorded
    obtain ⟨init, value, rnd, read, sum, merged, rfl⟩ := number_merge_ok calculated
    exact ⟨init, value, rnd, read, sum, merged,
      write_all_produce distinct (written changed _ fun _ => here)⟩

/-- A number channel holds the same datum in whatever order the chains are merged. -/
theorem merged_row_perm {left right : List (DeployChainIndex Hash)} {other : HistoryRows Hash}
    (perm : left.Perm right) (one : computeMergedState env left base = .ok merged)
    (again : computeMergedState env right base = .ok other)
    (recorded : hash ∈ mergeableDiffs left) :
    merged.data hash = other.data hash := by
  have diffs := mergeable_diffs_perm perm
  have changed : hash ∈ (combinedChanges left).datumsChanges ↔
      hash ∈ (combinedChanges right).datumsChanges := by
    simp only [mem_combined, perm.mem_iff]
  obtain ⟨kept, written⟩ := merged_row one recorded
  obtain ⟨keptAgain, writtenAgain⟩ := merged_row again (diffs ▸ recorded)
  by_cases here : hash ∈ (combinedChanges left).datumsChanges
  · obtain ⟨init, value, rnd, read, sum, generated, row⟩ := written here
    obtain ⟨_, _, _, readAgain, sumAgain, generatedAgain, rowAgain⟩ :=
      writtenAgain (changed.mp here)
    cases read.symm.trans readAgain
    rw [← diffs] at sumAgain
    cases sum.symm.trans sumAgain
    have added : (datumsChange (combinedChanges left) hash).added.Perm
        (datumsChange (combinedChanges right) hash).added := by
      rw [combined_added, combined_added]
      exact perm.flatMap_right _
    rw [row, rowAgain, merged_rnd_perm added generated generatedAgain]
  · rw [kept here, keptAgain (changed.not.mp here)]

end Merge

end RChain.Casper
