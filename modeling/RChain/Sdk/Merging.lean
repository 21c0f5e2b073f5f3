import Mathlib.Data.Finmap
import Mathlib.Data.Finset.Max
import Mathlib.Data.Prod.Lex
import RChain.Lib.Reach
import RChain.Shared.Refined

/-!
# Conflict resolution of a merge

Source: `sdk/src/dag/merging.rs`.

A `BTreeMap<D, BTreeSet<D>>` is a finite map to finite sets; it is iterated in the order of
its keys. The queue of `compute_rejection_options` only orders its visits, and the results
go into a set, so the search is written as a recursion. The loops that have no bound in the
source carry fuel.
-/

namespace RChain.Sdk

open Reach Sorted Finset Finmap

section Maps

variable {D : Type} [LinearOrder D]

abbrev RelationMap (D : Type) := Finmap fun _ : D => Finset D

/-- `map.get(d).cloned().unwrap_or_default()`. -/
def related (m : RelationMap D) (d : D) : Finset D := (m.lookup d).getD ∅

/-- `map.entry(k).or_default().extend(s)`. -/
def extend (m : RelationMap D) (k : D) (s : Finset D) : RelationMap D :=
  m.insert k (related m k ∪ s)

/-- The map with these keys and the values that `f` gives. -/
def mapOf (keys : Finset D) (f : D → Finset D) : RelationMap D :=
  (elements keys).foldl (fun m k => m.insert k (f k)) ∅

def valuesOf (m : RelationMap D) : Finset D := m.keys.biUnion (related m)

/-- All items in dependency chains reachable from `s`, including `s` itself. -/
def withDependencies (s : Finset D) (dependencyMap : RelationMap D) : Finset D :=
  expand (related dependencyMap) ((valuesOf dependencyMap).card + 1) s s

/-- Items that conflict with something finally accepted or depend on something finally
rejected. -/
def incompatibleWithFinal (acceptedFinally rejectedFinally : Finset D)
    (conflictsMap dependencyMap : RelationMap D) : Finset D :=
  acceptedFinally.biUnion (related conflictsMap) ∪ rejectedFinally.biUnion (related dependencyMap)

def partitionFrom (taken : Finset D) : List (Finset D) → List (Finset D)
  | [] => []
  | view :: views => (view \ taken) :: partitionFrom (taken ∪ (view \ taken)) views

def partitionScope (views : List (Finset D)) : List (Finset D) := partitionFrom ∅ views

/-- Fold a root that something else leads to into everything that leads to it. -/
def foldRoot (dependencyMap acc : RelationMap D) (root : D) : RelationMap D :=
  let rootDependencies := acc.keys.filter fun k => root ∈ related acc k
  if rootDependencies = ∅ then acc
  else
    (elements rootDependencies).foldl
      (fun m k => extend m k (insert root (related dependencyMap root))) (acc.erase root)

def computeBranches (target : Finset D) (dependencyMap : RelationMap D) : RelationMap D :=
  let acc := (elements dependencyMap.keys).foldl (foldRoot dependencyMap) dependencyMap
  (elements (target \ (dependencyMap.keys ∪ valuesOf dependencyMap))).foldl
    (fun m t => if t ∈ m then m else m.insert t ∅) acc

/-- Branches by descending size, then by key, cut so that they do not intersect. -/
def computeGreedyNonIntersectingBranches (target : Finset D) (dependencyMap : RelationMap D) :
    List (Finset D) :=
  let concurrentRoots := computeBranches target dependencyMap
  let size := fun k => (related concurrentRoots k).card
  let sorted := (elements concurrentRoots.keys).insertionSort
    fun a b => size b < size a ∨ size a = size b ∧ a ≤ b
  partitionScope (sorted.map fun k => insert k (related concurrentRoots k))

/-- Accept `a`, reject what conflicts with it, and go on with the keys that are neither. -/
def exploreOptions (conflictsMap : RelationMap D) :
    Nat → D → (rjAcc acAcc : Finset D) → Finset (Finset D)
  | 0, _, _, _ => ∅
  | fuel + 1, a, rjAcc, acAcc =>
    let newRj := rjAcc ∪ related conflictsMap a
    let newAc := insert a acAcc
    let next := conflictsMap.keys \ (newRj ∪ newAc)
    if next = ∅ then {newRj}
    else next.biUnion fun n => exploreOptions conflictsMap fuel n newRj newAc

/-- All sets of rejected items that resolve the conflict map. -/
def computeRejectionOptions (conflictsMap : RelationMap D) : Finset (Finset D) :=
  conflictsMap.keys.biUnion fun k =>
    exploreOptions conflictsMap (conflictsMap.keys.card + 1) k ∅ {k}

/-- Total cost, size and the sorted items, compared in this order. -/
def rejectionKey (cost : D → Int64) (option : Finset D) : Int ×ₗ (Nat ×ₗ List D) :=
  let total := (elements option).foldl (fun acc d => acc + cost d) 0
  toLex (total.toInt, toLex (option.card, elements option))

/-- The option with the least key; no two options have the same. -/
def computeOptimalRejection (options : Finset (Finset D)) (cost : D → Int64) : Finset D :=
  match (options.image (rejectionKey cost)).min with
  | none => ∅
  | some key => (ofLex (ofLex key).2).2.toFinset

end Maps

section Mergeable

variable {D CH : Type} [LinearOrder D] [LinearOrder CH]

abbrev Balances (CH : Type) := Finmap fun _ : CH => Int64

/-- `None` when a channel overflows or becomes negative. -/
def calcMergedResult (deploy : D) (balances : Balances CH)
    (mergeableDiffs : Finmap fun _ : D => Balances CH) : Option (Balances CH) :=
  let diff := (mergeableDiffs.lookup deploy).getD ∅
  (elements diff.keys).foldlM (fun acc channel => do
    let current := (acc.lookup channel).getD 0
    let result ← checkedAdd current ((diff.lookup channel).getD 0)
    if result < 0 then none else some (acc.insert channel result)) balances

def traverseTree (dependencyMap : RelationMap D) (root : D) : List D :=
  layers (related dependencyMap) ((valuesOf dependencyMap).card + 1) {root}

/-- One deploy of a branch: a deploy that does not fit is rejected with its dependents. -/
def foldDeploy (dependencyMap : RelationMap D)
    (mergeableDiffs : Finmap fun _ : D => Balances CH) (state : Balances CH × Finset D)
    (deploy : D) : Balances CH × Finset D :=
  if deploy ∈ state.2 then state
  else
    match calcMergedResult deploy state.1 mergeableDiffs with
    | some newBalances => (newBalances, state.2)
    | none => (state.1, insert deploy state.2 ∪ withDependencies {deploy} dependencyMap)

def foldRejection (baseBalance : Balances CH) (toMerge : Finset D)
    (dependencyMap : RelationMap D) (mergeableDiffs : Finmap fun _ : D => Balances CH) :
    Finset D :=
  (((elements (computeBranches toMerge dependencyMap).keys).flatMap
    (traverseTree dependencyMap)).foldl (foldDeploy dependencyMap mergeableDiffs)
    (baseBalance, ∅)).2

/-- Extend the rejection options with rejections forced by mergeable-value overflow. -/
def addMergeableOverflowRejections (conflictSet : Finset D) (dependencyMap : RelationMap D)
    (rejectOptions : Finset (Finset D)) (initMergeableValues : Balances CH)
    (mergeableDiffs : Finmap fun _ : D => Balances CH) : Finset (Finset D) :=
  if rejectOptions = ∅ then
    {foldRejection initMergeableValues conflictSet dependencyMap mergeableDiffs}
  else
    rejectOptions.image fun rj =>
      rj ∪ foldRejection initMergeableValues (conflictSet \ rj) dependencyMap mergeableDiffs

/-- The conflicts of a key with everything that depends on them. -/
def fullConflictsMap (conflictsMap dependencyMap : RelationMap D) : RelationMap D :=
  mapOf conflictsMap.keys fun k =>
    related conflictsMap k ∪ withDependencies (related conflictsMap k) dependencyMap

/-- The resolution of a conflict set: what is accepted and what is rejected. -/
def resolveConflictSet (conflictSet acceptedFinally rejectedFinally : Finset D)
    (cost : D → Int64) (conflictsMap dependencyMap : RelationMap D)
    (mergeableDiffs : Finmap fun _ : D => Balances CH) (initMergeableValues : Balances CH) :
    Finset D × Finset D :=
  let enforceRejected := withDependencies
    (incompatibleWithFinal acceptedFinally rejectedFinally conflictsMap dependencyMap)
    dependencyMap
  let conflictSetCompatible := conflictSet \ enforceRejected
  let rejectionOptions := computeRejectionOptions (fullConflictsMap conflictsMap dependencyMap)
  let withOverflow := addMergeableOverflowRejections conflictSet dependencyMap rejectionOptions
    initMergeableValues mergeableDiffs
  let resolved := computeOptimalRejection withOverflow cost
  (conflictSetCompatible \ resolved, resolved ∪ enforceRejected)

end Mergeable

section MapLemmas

variable {D : Type} [LinearOrder D]

@[simp]
theorem related_insert_self (m : RelationMap D) (k : D) (s : Finset D) :
    related (m.insert k s) k = s := by
  rw [related, lookup_insert, Option.getD_some]

theorem related_insert_ne (m : RelationMap D) {k other : D} (s : Finset D)
    (different : other ≠ k) : related (m.insert k s) other = related m other := by
  rw [related, lookup_insert_of_ne m different, related]

theorem key_of_related {m : RelationMap D} {k x : D} (mem : x ∈ related m k) : k ∈ m.keys := by
  rw [mem_keys, ← lookup_isSome]
  unfold related at mem
  cases found : m.lookup k with
  | none =>
    rw [found] at mem
    exact absurd mem (notMem_empty x)
  | some => rfl

theorem related_subset_values (m : RelationMap D) (k : D) : related m k ⊆ valuesOf m := by
  intro _ mem
  exact mem_biUnion.mpr ⟨k, key_of_related mem, mem⟩

theorem lookup_insert_all (f : D → Finset D) (items : List D) (m : RelationMap D) (k : D) :
    (items.foldl (fun acc item => acc.insert item (f item)) m).lookup k =
      if k ∈ items then some (f k) else m.lookup k := by
  induction items generalizing m with
  | nil => simp
  | cons item items ih =>
    rw [List.foldl_cons, ih]
    by_cases later : k ∈ items
    · simp [later]
    · by_cases here : k = item
      · subst here
        simp [later, lookup_insert]
      · simp [later, here, lookup_insert_of_ne m here]

theorem related_map_of (keys : Finset D) (f : D → Finset D) (k : D) :
    related (mapOf keys f) k = if k ∈ keys then f k else ∅ := by
  rw [related, mapOf, lookup_insert_all]
  simp only [mem_elements]
  split_ifs
  · rfl
  · rw [lookup_empty]
    rfl

theorem keys_map_of (keys : Finset D) (f : D → Finset D) : (mapOf keys f).keys = keys := by
  ext k
  rw [mem_keys, ← lookup_isSome, mapOf, lookup_insert_all]
  simp only [mem_elements]
  split_ifs with mem
  · simp [mem]
  · simp [mem, lookup_empty]

theorem keys_extend (m : RelationMap D) (k : D) (s : Finset D) :
    (extend m k s).keys = insert k m.keys := by
  ext x
  rw [Finmap.mem_keys, extend, Finmap.mem_insert, Finset.mem_insert, Finmap.mem_keys]

theorem related_extend (m : RelationMap D) (k x : D) (s : Finset D) :
    related (extend m k s) x = if x = k then related m k ∪ s else related m x := by
  split_ifs with here
  · subst here
    exact related_insert_self _ _ _
  · exact related_insert_ne _ _ here

theorem keys_extend_all (items : List D) (m : RelationMap D) (s : Finset D) :
    (items.foldl (fun acc k => extend acc k s) m).keys = items.toFinset ∪ m.keys := by
  induction items generalizing m with
  | nil => simp
  | cons _ _ ih =>
    rw [List.foldl_cons, ih, keys_extend, List.toFinset_cons, union_insert,
      Finset.insert_union]

theorem related_extend_all (items : List D) (m : RelationMap D) (s : Finset D) (k : D) :
    related (items.foldl (fun acc k => extend acc k s) m) k =
      if k ∈ items then related m k ∪ s else related m k := by
  induction items generalizing m with
  | nil => simp
  | cons item items ih =>
    rw [List.foldl_cons, ih, related_extend]
    by_cases here : k = item
    · subst here
      by_cases later : k ∈ items
      · simp [later, Finset.union_assoc]
      · simp [later]
    · simp [here]

theorem mem_with_dependencies {s : Finset D} {dependencyMap : RelationMap D} {y : D} :
    y ∈ withDependencies s dependencyMap ↔ ∃ x ∈ s, Reaches (related dependencyMap) x y :=
  mem_expand (valuesOf dependencyMap) (related_subset_values dependencyMap) (Nat.lt_succ_self _)

theorem subset_with_dependencies (s : Finset D) (dependencyMap : RelationMap D) :
    s ⊆ withDependencies s dependencyMap := by
  intro x mem
  exact mem_with_dependencies.mpr ⟨x, mem, Relation.ReflTransGen.refl⟩

theorem with_dependencies_closed (s : Finset D) (dependencyMap : RelationMap D) :
    Closed (related dependencyMap) (withDependencies s dependencyMap) := by
  intro _ mem _ edge
  obtain ⟨start, among, reached⟩ := mem_with_dependencies.mp mem
  exact mem_with_dependencies.mpr ⟨start, among, reached.tail edge⟩

end MapLemmas

end RChain.Sdk
