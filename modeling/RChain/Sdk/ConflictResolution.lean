import RChain.Sdk.Merging

/-!
# Soundness of conflict resolution

A rejection option is made by accepting keys one after another: it holds the conflicts of
what was accepted, and every key is accepted or in it. Rejected sets are closed under
dependents at every stage. What the resolution accepts is therefore free of conflicts and
depends on nothing rejected. The options range over everything in the two maps, the final
items included, so the resolution can reject what has been finally accepted.
-/

namespace RChain.Sdk

open Reach Sorted List Finset Finmap

section Options

variable {D : Type} [LinearOrder D] {conflictsMap : RelationMap D} {taken option : Finset D}

variable (conflictsMap) in
/-- The conflicts of the items of `accepted`, with every key either accepted or in conflict. -/
def IsOption (accepted option : Finset D) : Prop :=
  accepted ⊆ conflictsMap.keys ∧ option = accepted.biUnion (related conflictsMap) ∧
    conflictsMap.keys ⊆ option ∪ accepted

variable (conflictsMap) in
def keysLeft (taken : Finset D) : Finset D :=
  conflictsMap.keys \ (taken.biUnion (related conflictsMap) ∪ taken)

variable (conflictsMap) in
/-- The sets of keys that the search can accept one after another. -/
inductive Taken : Finset D → Prop
  | nothing : Taken ∅
  | next {taken : Finset D} {n : D} (before : Taken taken)
      (left : n ∈ keysLeft conflictsMap taken) : Taken (insert n taken)

theorem taken_keys (held : Taken conflictsMap taken) : taken ⊆ conflictsMap.keys := by
  induction held with
  | nothing => exact empty_subset _
  | next _ left ih => exact insert_subset (mem_sdiff.mp left).1 ih

theorem taken_one {k : D} (isKey : k ∈ conflictsMap.keys) : Taken conflictsMap {k} :=
  .next .nothing (by simpa [keysLeft] using isKey)

theorem rejected_next {rejected accepted : Finset D} {n : D}
    (same : rejected = accepted.biUnion (related conflictsMap)) :
    rejected ∪ related conflictsMap n = (insert n accepted).biUnion (related conflictsMap) := by
  rw [same, union_comm]
  exact biUnion_insert.symm

theorem fewer_left {n : D} (left : n ∈ keysLeft conflictsMap taken) :
    (conflictsMap.keys \ insert n taken).card < (conflictsMap.keys \ taken).card := by
  obtain ⟨isKey, fresh⟩ := mem_sdiff.mp left
  rw [sdiff_insert _ _ n]
  exact card_erase_lt_of_mem (mem_sdiff.mpr ⟨isKey, fun inside => fresh (mem_union_right _ inside)⟩)

theorem explore_taken (fuel : Nat) (a : D) (rjAcc acAcc : Finset D)
    (rejected : rjAcc ∪ related conflictsMap a = (insert a acAcc).biUnion (related conflictsMap))
    (held : Taken conflictsMap (insert a acAcc))
    (found : option ∈ exploreOptions conflictsMap fuel a rjAcc acAcc) :
    ∃ accepted, Taken conflictsMap accepted ∧ IsOption conflictsMap accepted option := by
  induction fuel generalizing a rjAcc acAcc with
  | zero => cases found
  | succ _ ih =>
    unfold exploreOptions at found
    dsimp only at found
    split_ifs at found with done
    · rw [Finset.mem_singleton] at found
      refine ⟨insert a acAcc, held, taken_keys held, found.trans rejected, ?_⟩
      rw [found]
      exact sdiff_eq_empty_iff_subset.mp done
    · obtain ⟨n, mem, deeper⟩ := mem_biUnion.mp found
      rw [rejected] at mem
      exact ih n _ _ (rejected_next rejected) (held.next mem) deeper

/-- The search comes by every set that it can accept. -/
theorem taken_explored (held : Taken conflictsMap taken) : taken = ∅ ∨
    ∃ (fuel : Nat) (a : D) (rjAcc acAcc : Finset D), taken = insert a acAcc ∧
      rjAcc ∪ related conflictsMap a = (insert a acAcc).biUnion (related conflictsMap) ∧
      (conflictsMap.keys \ insert a acAcc).card < fuel ∧
      exploreOptions conflictsMap fuel a rjAcc acAcc ⊆ computeRejectionOptions conflictsMap := by
  induction held with
  | nothing => exact .inl rfl
  | @next taken n _ left ih =>
    right
    rcases ih with rfl | ⟨fuel, a, rjAcc, acAcc, rfl, rejected, enough, within⟩
    · exact ⟨_, n, ∅, {n}, by simp, by simp, Nat.lt_succ_of_le (card_le_card sdiff_subset),
        subset_biUnion_of_mem (fun k => exploreOptions conflictsMap _ k ∅ {k}) (mem_sdiff.mp left).1⟩
    · have fewer := fewer_left left
      obtain ⟨fuel, rfl⟩ := Nat.exists_eq_succ_of_ne_zero (Nat.ne_zero_of_lt enough)
      refine ⟨fuel, n, rjAcc ∪ related conflictsMap a, insert a acAcc, rfl, rejected_next rejected,
        by omega, fun option found => within ?_⟩
      rw [keysLeft, ← rejected] at left
      unfold exploreOptions
      dsimp only
      rw [if_neg (ne_empty_of_mem left)]
      exact mem_biUnion.mpr ⟨n, left, found⟩

theorem mem_options_iff : option ∈ computeRejectionOptions conflictsMap ↔
    conflictsMap.keys.Nonempty ∧
      ∃ accepted, Taken conflictsMap accepted ∧ IsOption conflictsMap accepted option := by
  constructor
  · intro found
    obtain ⟨k, isKey, deeper⟩ := mem_biUnion.mp found
    exact ⟨⟨k, isKey⟩, explore_taken _ k ∅ {k} (by simp) (by simpa using taken_one isKey) deeper⟩
  · rintro ⟨⟨k, isKey⟩, accepted, held, _, rfl, all⟩
    rcases taken_explored held with rfl | ⟨fuel, a, rjAcc, acAcc, rfl, rejected, enough, within⟩
    · simpa using all isKey
    · obtain ⟨fuel, rfl⟩ := Nat.exists_eq_succ_of_ne_zero (Nat.ne_zero_of_lt enough)
      refine within ?_
      unfold exploreOptions
      dsimp only
      rw [rejected, if_pos (sdiff_eq_empty_iff_subset.mpr all)]
      exact Finset.mem_singleton_self _

/-- What can be kept with some key while there are any left holds of an option. -/
theorem option_grows {P : Finset D → Prop} (some : conflictsMap.keys.Nonempty)
    (next : ∀ taken, P taken → (keysLeft conflictsMap taken).Nonempty →
      ∃ n ∈ keysLeft conflictsMap taken, P (insert n taken))
    (held : Taken conflictsMap taken) (holds : P taken) :
    ∃ accepted, taken ⊆ accepted ∧ P accepted ∧
      accepted.biUnion (related conflictsMap) ∈ computeRejectionOptions conflictsMap := by
  induction size : (conflictsMap.keys \ taken).card using Nat.strong_induction_on
    generalizing taken with
  | _ _ ih =>
    subst size
    rcases eq_empty_or_nonempty (keysLeft conflictsMap taken) with done | left
    · exact ⟨taken, Finset.Subset.refl _, holds, mem_options_iff.mpr
        ⟨some, taken, held, taken_keys held, rfl, sdiff_eq_empty_iff_subset.mp done⟩⟩
    · obtain ⟨n, mem, kept⟩ := next taken holds left
      obtain ⟨accepted, grown, rest⟩ := ih _ (fewer_left mem) (held.next mem) kept rfl
      exact ⟨accepted, (Finset.subset_insert _ _).trans grown, rest⟩

theorem rejection_option (found : option ∈ computeRejectionOptions conflictsMap) :
    ∃ accepted, IsOption conflictsMap accepted option := by
  obtain ⟨_, accepted, _, isOption⟩ := mem_options_iff.mp found
  exact ⟨accepted, isOption⟩

theorem option_accepting {k : D} (isKey : k ∈ conflictsMap.keys) :
    ∃ option ∈ computeRejectionOptions conflictsMap, related conflictsMap k ⊆ option := by
  obtain ⟨accepted, grown, _, found⟩ := option_grows (P := fun _ => True) ⟨k, isKey⟩
    (fun _ _ left => left.imp fun n isLeft => ⟨isLeft, trivial⟩) (taken_one isKey) trivial
  exact ⟨_, found, subset_biUnion_of_mem _ (grown (Finset.mem_singleton_self k))⟩

theorem keys_full (conflictsMap dependencyMap : RelationMap D) :
    (fullConflictsMap conflictsMap dependencyMap).keys = conflictsMap.keys := keys_map_of _ _

end Options

section Complete

variable {D : Type} [LinearOrder D] {conflictsMap : RelationMap D}

variable (conflictsMap) in
/-- A set of keys no two of which conflict. -/
def ConflictFree (accepted : Finset D) : Prop :=
  accepted ⊆ conflictsMap.keys ∧ ∀ x ∈ accepted, ∀ y ∈ accepted, y ∉ related conflictsMap x

variable (symmetric : ∀ x y, y ∈ related conflictsMap x → x ∈ related conflictsMap y)
  (irreflexive : ∀ x, x ∉ related conflictsMap x)

include symmetric irreflexive in
theorem conflict_free_insert (taken : Finset D) (free : ConflictFree conflictsMap taken) (n : D)
    (left : n ∈ keysLeft conflictsMap taken) : ConflictFree conflictsMap (insert n taken) := by
  rw [keysLeft, Finset.mem_sdiff, Finset.mem_union, mem_biUnion] at left
  refine ⟨Finset.insert_subset left.1 free.1, ?_⟩
  have apart : ∀ x ∈ taken, n ∉ related conflictsMap x := fun x inside conflict =>
    left.2 (.inl ⟨x, inside, conflict⟩)
  simp only [forall_mem_insert]
  exact ⟨⟨irreflexive n, fun y inside conflict => apart y inside (symmetric n y conflict)⟩,
    fun x inside => ⟨apart x inside, free.2 x inside⟩⟩

include symmetric irreflexive in
theorem taken_conflict_free {taken : Finset D} (held : Taken conflictsMap taken) :
    ConflictFree conflictsMap taken := by
  induction held with
  | nothing => exact ⟨empty_subset _, fun x impossible => absurd impossible (notMem_empty x)⟩
  | next _ left ih => exact conflict_free_insert symmetric irreflexive _ ih _ left

include symmetric in
theorem option_complement {accepted option : Finset D}
    (isOption : IsOption conflictsMap accepted option) (free : ConflictFree conflictsMap accepted) :
    Maximal (ConflictFree conflictsMap) accepted ∧ option = conflictsMap.keys \ accepted := by
  obtain ⟨_, made, covered⟩ := isOption
  have conflicting {x : D} (mem : x ∈ option) : ∃ a ∈ accepted, x ∈ related conflictsMap a := by
    simpa [made] using mem
  constructor
  · refine ⟨free, fun larger largerFree grown x inside => ?_⟩
    rcases mem_union.mp (covered (largerFree.1 inside)) with rejected | taken
    · obtain ⟨a, mem, conflict⟩ := conflicting rejected
      exact absurd conflict (largerFree.2 a (grown mem) x inside)
    · exact taken
  · ext x
    rw [mem_sdiff]
    constructor
    · intro mem
      obtain ⟨a, taken, conflict⟩ := conflicting mem
      exact ⟨key_of_related (symmetric a x conflict), fun inside => free.2 a taken x inside conflict⟩
    · rintro ⟨isKey, outside⟩
      exact (mem_union.mp (covered isKey)).resolve_right outside

/-- While keys are left, a maximal conflict-free set that is spared so far has one of them. -/
theorem maximal_continues {chosen : Finset D} (maximal : Maximal (ConflictFree conflictsMap) chosen)
    (insertable : ∀ n ∈ keysLeft conflictsMap chosen, ConflictFree conflictsMap (insert n chosen))
    (taken : Finset D) (spared : Disjoint (taken.biUnion (related conflictsMap)) chosen)
    (left : (keysLeft conflictsMap taken).Nonempty) :
    ∃ n ∈ keysLeft conflictsMap taken,
      Disjoint ((insert n taken).biUnion (related conflictsMap)) chosen := by
  by_cases inside : chosen ⊆ taken
  · obtain ⟨n, remaining⟩ := left
    have free : n ∈ keysLeft conflictsMap chosen :=
      sdiff_subset_sdiff (Finset.Subset.refl _)
        (union_subset_union (biUnion_subset_biUnion_of_subset_left _ inside) inside)
        remaining
    have mem := maximal.2 (insertable n free) (subset_insert _ _)
      (mem_insert_self n chosen)
    exact absurd (mem_union_right _ mem) (mem_sdiff.mp free).2
  · obtain ⟨n, mem, fresh⟩ := not_subset.mp inside
    refine ⟨n, mem_sdiff.mpr ⟨maximal.1.1 mem, ?_⟩, ?_⟩
    · rw [Finset.mem_union, not_or]
      exact ⟨disjoint_right.mp spared mem, fresh⟩
    · rw [Finset.biUnion_insert, Finset.disjoint_union_left]
      exact ⟨disjoint_left.mpr fun y conflict chosenY =>
        maximal.1.2 n mem y chosenY conflict, spared⟩

/-- The options are the complements of the maximal conflict-free sets of keys; without a key there
is no option, though the empty set is conflict-free. -/
theorem rejection_options_iff (option : Finset D)
    (symmetric : ∀ x y, y ∈ related conflictsMap x → x ∈ related conflictsMap y)
    (irreflexive : ∀ x, x ∉ related conflictsMap x) :
    option ∈ computeRejectionOptions conflictsMap ↔ conflictsMap.keys.Nonempty ∧
      ∃ accepted, Maximal (ConflictFree conflictsMap) accepted ∧
        option = conflictsMap.keys \ accepted := by
  have explored {option : Finset D} (found : option ∈ computeRejectionOptions conflictsMap) :
      conflictsMap.keys.Nonempty ∧ ∃ accepted, Maximal (ConflictFree conflictsMap) accepted ∧
        option = conflictsMap.keys \ accepted := by
    obtain ⟨some, accepted, held, isOption⟩ := mem_options_iff.mp found
    exact ⟨some, accepted, option_complement symmetric isOption
      (taken_conflict_free symmetric irreflexive held)⟩
  refine ⟨explored, ?_⟩
  rintro ⟨some, chosen, maximal, rfl⟩
  -- The search that rejects none of the chosen items.
  obtain ⟨_, _, spared, found⟩ := option_grows some
    (P := fun taken => Disjoint (taken.biUnion (related conflictsMap)) chosen)
    (maximal_continues maximal (conflict_free_insert symmetric irreflexive chosen maximal.1))
    .nothing (by simp)
  obtain ⟨_, accepted, isMaximal, same⟩ := explored found
  rw [same] at spared found
  have within : chosen ⊆ accepted := fun x inside => by
    by_contra outside
    exact Finset.disjoint_left.mp spared
      (Finset.mem_sdiff.mpr ⟨maximal.1.1 inside, outside⟩) inside
  rwa [Finset.Subset.antisymm within (maximal.2 isMaximal.1 within)]

/-- Two deploys in conflict: rejecting the second is an option. -/
theorem rejection_options_pair :
    let pair : RelationMap Nat := ((∅ : RelationMap Nat).insert 1 {2}).insert 2 {1}
    (pair.keys.Nonempty ∧ ∃ accepted, Maximal (ConflictFree pair) accepted ∧
      ({2} : Finset Nat) = pair.keys \ accepted) := by
  intro pair
  have conflicts (x y : Nat) : y ∈ related pair x ↔ x = 1 ∧ y = 2 ∨ x = 2 ∧ y = 1 := by
    by_cases second : x = 2
    · subst second
      simp [pair]
    · rw [related_insert_ne _ _ second]
      by_cases first : x = 1
      · subst first
        simp
      · rw [related_insert_ne _ _ first]
        simp [related, second, first]
  exact (rejection_options_iff {2} (fun x y => by simp only [conflicts]; omega)
    (fun x => by simp only [conflicts]; omega)).mp (by decide +kernel)

/-- The map without keys is symmetric and irreflexive, and its one conflict-free set has no option. -/
theorem no_option_without_keys : (∀ x, related (∅ : RelationMap Nat) x = ∅) ∧
      Maximal (ConflictFree (∅ : RelationMap Nat)) ∅ ∧
      (∅ : RelationMap Nat).keys \ ∅ ∉ computeRejectionOptions (∅ : RelationMap Nat) := by
  refine ⟨fun x => rfl, ⟨⟨empty_subset _, fun x absurd => by cases absurd⟩, ?_⟩, ?_⟩
  · exact fun larger free _ => free.1
  · simp [computeRejectionOptions]

end Complete

section Optimal

variable {D : Type} [LinearOrder D] {options : Finset (Finset D)} {cost : D → Int64}

theorem to_finset_elements (s : Finset D) : (elements s).toFinset = s := by
  ext x
  rw [mem_toFinset, mem_elements]

variable (cost) in
theorem optimal_rejection (present : options.Nonempty) :
    computeOptimalRejection options cost ∈ options ∧ ∀ option ∈ options,
      rejectionKey cost (computeOptimalRejection options cost) ≤ rejectionKey cost option := by
  obtain ⟨_, isLeast⟩ := min_of_nonempty (present.image (rejectionKey cost))
  obtain ⟨chosen, mem, key⟩ := mem_image.mp (mem_of_min isLeast)
  have same : computeOptimalRejection options cost = chosen := by
    unfold computeOptimalRejection
    rw [isLeast, ← key]
    exact to_finset_elements chosen
  rw [same]
  refine ⟨mem, fun option among => ?_⟩
  rw [key]
  exact min_le_of_eq (mem_image_of_mem _ among) isLeast

end Optimal

section Branches

variable {D : Type} [LinearOrder D] {dependencyMap : RelationMap D}

abbrev DependsOn (dependencyMap : RelationMap D) (x y : D) : Prop :=
  Relation.TransGen (fun a b => b ∈ related dependencyMap a) y x

variable (dependencyMap) in
/-- What folding roots keeps: branches hold dependents of their root, and every key is below a
root. -/
structure Rooted (acc : RelationMap D) : Prop where
  keys : acc.keys ⊆ dependencyMap.keys
  below : ∀ k, ∀ x ∈ related acc k, DependsOn dependencyMap x k
  covered : ∀ k ∈ dependencyMap.keys, ∃ r ∈ acc.keys, Reaches (related dependencyMap) r k

theorem rooted_initial : Rooted dependencyMap dependencyMap :=
  ⟨Finset.Subset.refl _, fun _ _ mem => Relation.TransGen.single mem,
    fun k isKey => ⟨k, isKey, Relation.ReflTransGen.refl⟩⟩

variable {acc : RelationMap D} {target : Finset D} {x : D}

section

variable (acyclic : Acyclic (related dependencyMap))
include acyclic

theorem rooted_fold (root : D) (rooted : Rooted dependencyMap acc) :
    Rooted dependencyMap (foldRoot dependencyMap acc root) := by
  unfold foldRoot
  dsimp only
  split_ifs with alone
  · exact rooted
  · obtain ⟨parent, isParent⟩ := nonempty_iff_ne_empty.mpr alone
    obtain ⟨parentKey, leads⟩ := mem_filter.mp isParent
    have erased (k x : D) (mem : x ∈ related (acc.erase root) k) : x ∈ related acc k := by
      by_cases here : k = root
      · subst here
        have isKey := key_of_related mem
        rw [Finmap.mem_keys, Finmap.mem_erase] at isKey
        exact absurd rfl isKey.1
      · unfold related at mem ⊢
        rwa [lookup_erase_ne here] at mem
    have different : parent ≠ root := by
      rintro rfl
      exact acyclic parent (rooted.below parent parent leads)
    have remaining : parent ∈ (acc.erase root).keys := by
      rw [Finmap.mem_keys, Finmap.mem_erase]
      exact ⟨different, mem_keys.mp parentKey⟩
    refine ⟨?_, fun k x mem => ?_, fun k isKey => ?_⟩
    · rw [keys_extend_all, to_finset_elements]
      refine Finset.union_subset ((Finset.filter_subset _ _).trans rooted.keys) ?_
      intro _ mem
      rw [Finmap.mem_keys, Finmap.mem_erase] at mem
      exact rooted.keys (mem_keys.mpr mem.2)
    · rw [related_extend_all] at mem
      split_ifs at mem with leading
      · rcases mem_union.mp mem with before | merged
        · exact rooted.below k x (erased k x before)
        · have toRoot := rooted.below k root (mem_filter.mp (mem_elements.mp leading)).2
          rcases mem_insert.mp merged with rfl | below
          · exact toRoot
          · exact toRoot.tail below
      · exact rooted.below k x (erased k x mem)
    · rw [keys_extend_all]
      obtain ⟨r, isRoot, reached⟩ := rooted.covered k isKey
      by_cases folded : r = root
      · subst folded
        exact ⟨parent, mem_union_right _ remaining,
          (rooted.below parent r leads).to_reflTransGen.trans reached⟩
      · refine ⟨r, mem_union_right _ ?_, reached⟩
        rw [Finmap.mem_keys, Finmap.mem_erase]
        exact ⟨folded, mem_keys.mp isRoot⟩

theorem rooted_all (roots : List D) (rooted : Rooted dependencyMap acc) :
    Rooted dependencyMap (roots.foldl (foldRoot dependencyMap) acc) := by
  induction roots generalizing acc with
  | nil => exact rooted
  | cons root _ ih => exact ih (rooted_fold acyclic root rooted)

omit acyclic in
theorem keys_or_insert (items : List D) (m : RelationMap D) :
    (items.foldl (fun acc t => if t ∈ acc then acc else acc.insert t ∅) m).keys =
      items.toFinset ∪ m.keys := by
  induction items generalizing m with
  | nil => simp
  | cons _ _ ih =>
    rw [foldl_cons, ih, toFinset_cons, Finset.insert_union, ← Finset.union_insert]
    congr 1
    ext x
    split_ifs with present
    · rw [insert_eq_of_mem (mem_keys.mpr present)]
    · rw [Finmap.mem_keys, Finmap.mem_insert, Finset.mem_insert, Finmap.mem_keys]

def mentioned (target : Finset D) (dependencyMap : RelationMap D) : Finset D :=
  target ∪ dependencyMap.keys ∪ valuesOf dependencyMap

theorem branches_cover (mem : x ∈ mentioned target dependencyMap) :
    ∃ r ∈ (computeBranches target dependencyMap).keys, Reaches (related dependencyMap) r x := by
  have rooted := rooted_all acyclic (elements dependencyMap.keys) rooted_initial
  unfold computeBranches
  dsimp only
  rw [keys_or_insert, to_finset_elements]
  have below (k : D) (isKey : k ∈ dependencyMap.keys)
      (reached : Reaches (related dependencyMap) k x) : ∃ r ∈ (target \
        (dependencyMap.keys ∪ valuesOf dependencyMap)) ∪ ((elements dependencyMap.keys).foldl
        (foldRoot dependencyMap) dependencyMap).keys, Reaches (related dependencyMap) r x := by
    obtain ⟨r, isRoot, above⟩ := rooted.covered k isKey
    exact ⟨r, mem_union_right _ isRoot, above.trans reached⟩
  by_cases isKey : x ∈ dependencyMap.keys
  · exact below x isKey Relation.ReflTransGen.refl
  · by_cases isValue : x ∈ valuesOf dependencyMap
    · obtain ⟨k, above, edge⟩ := mem_biUnion.mp isValue
      exact below k above (Relation.ReflTransGen.single edge)
    · refine ⟨x, mem_union_left _ (mem_sdiff.mpr ⟨?_, ?_⟩), Relation.ReflTransGen.refl⟩
      · simpa [mentioned, isKey, isValue] using mem
      · simp [isKey, isValue]

theorem branches_keys (target : Finset D) :
    (computeBranches target dependencyMap).keys ⊆ target ∪ dependencyMap.keys := by
  have rooted := rooted_all acyclic (elements dependencyMap.keys) rooted_initial
  unfold computeBranches
  dsimp only
  rw [keys_or_insert, to_finset_elements]
  exact union_subset_union sdiff_subset rooted.keys

theorem mem_visited : x ∈ (elements (computeBranches target dependencyMap).keys).flatMap
        (traverseTree dependencyMap) ↔ x ∈ mentioned target dependencyMap := by
  have tree (r : D) : x ∈ traverseTree dependencyMap r ↔ Reaches (related dependencyMap) r x := by
    unfold traverseTree
    rw [mem_layers acyclic (related_subset_values dependencyMap) (Nat.lt_succ_self _)]
    simp
  rw [mem_flatMap]
  constructor
  · rintro ⟨_, isRoot, visited⟩
    rw [tree] at visited
    have root := branches_keys acyclic target (mem_elements.mp isRoot)
    rcases Relation.ReflTransGen.cases_tail visited with same | ⟨k, _, edge⟩
    · rw [same]
      exact mem_union_left _ root
    · exact mem_union_right _ (related_subset_values dependencyMap k edge)
  · intro mem
    obtain ⟨r, isRoot, reached⟩ := branches_cover acyclic mem
    exact ⟨r, mem_elements.mpr isRoot, (tree r).mpr reached⟩

end

end Branches

section Overflow

variable {D CH : Type} [LinearOrder D] [LinearOrder CH] {dependencyMap : RelationMap D}
  {mergeableDiffs : Finmap fun _ : D => Balances CH}

theorem fold_deploy_rejected (state : Balances CH × Finset D) (deploy : D) :
    (foldDeploy dependencyMap mergeableDiffs state deploy).2 = state.2 ∨
    (foldDeploy dependencyMap mergeableDiffs state deploy).2 =
      state.2 ∪ withDependencies {deploy} dependencyMap := by
  unfold foldDeploy
  split_ifs
  · exact .inl rfl
  · cases calcMergedResult deploy state.1 mergeableDiffs with
    | some => exact .inl rfl
    | none =>
      right
      dsimp only
      rw [Finset.insert_union, Finset.insert_eq_of_mem]
      exact Finset.mem_union_right _
        (subset_with_dependencies _ _ (Finset.mem_singleton_self deploy))

theorem fold_deploys_keep {P : Finset D → Prop} (deploys : List D)
    (rejects : ∀ rejected, ∀ deploy ∈ deploys, P rejected →
      P (rejected ∪ withDependencies {deploy} dependencyMap))
    (state : Balances CH × Finset D) (holds : P state.2) :
    P (deploys.foldl (foldDeploy dependencyMap mergeableDiffs) state).2 := by
  induction deploys generalizing state with
  | nil => exact holds
  | cons deploy _ ih =>
    refine ih (fun rejected other later => rejects rejected other (mem_cons_of_mem _ later))
      _ ?_
    rcases fold_deploy_rejected state deploy with same | grown
    · rwa [same]
    · rw [grown]
      exact rejects _ deploy mem_cons_self holds

theorem mentioned_closed (target : Finset D) :
    Closed (related dependencyMap) (mentioned target dependencyMap) := by
  intro k _ _ edge
  exact mem_union_right _ (related_subset_values dependencyMap k edge)

theorem fold_rejection_subset (acyclic : Acyclic (related dependencyMap))
    (balance : Balances CH) (toMerge : Finset D) :
    foldRejection balance toMerge dependencyMap mergeableDiffs ⊆
      mentioned toMerge dependencyMap := by
  refine fold_deploys_keep (P := (· ⊆ mentioned toMerge dependencyMap)) _
    (fun _ deploy visited inside => Finset.union_subset inside fun x mem => ?_) _
    (empty_subset _)
  obtain ⟨_, same, reached⟩ := mem_with_dependencies.mp mem
  rw [Finset.mem_singleton.mp same] at reached
  exact closed_reaches (mentioned_closed toMerge) ((mem_visited acyclic).mp visited) reached

variable (channel : CH)

/-- One deploy takes one off an empty channel; no other deploy touches any. -/
def drain (deploy : D) (channel : CH) : Finmap fun _ : D => Balances CH :=
  (∅ : Finmap fun _ : D => Balances CH).insert deploy
    ((∅ : Balances CH).insert channel (-1))

theorem drain_overflows (deploy : D) :
    calcMergedResult deploy (∅ : Balances CH) (drain deploy channel) = none := by
  have keys : ((∅ : Balances CH).insert channel (-1)).keys = {channel} := by
    ext x
    rw [Finmap.mem_keys, Finmap.mem_insert, Finset.mem_singleton]
    exact or_iff_left notMem_empty
  have single : elements ({channel} : Finset CH) = [channel] := rfl
  have below : checkedAdd 0 (-1) = some (-1) := by decide
  unfold calcMergedResult drain
  simp only [lookup_insert, Option.getD_some]
  rw [keys, single]
  simp only [foldlM_cons, lookup_insert, lookup_empty, Option.getD_some,
    Option.getD_none, below, Option.bind_eq_bind, Option.bind_some]
  rfl

theorem drain_spares {deploy other : D} (different : other ≠ deploy) (balances : Balances CH) :
    calcMergedResult other balances (drain deploy channel) = some balances := by
  have keys : (∅ : Balances CH).keys = ∅ := rfl
  unfold calcMergedResult drain
  simp only [lookup_insert_of_ne _ different, lookup_empty, Option.getD_none]
  rw [keys]
  rfl

theorem drain_rejected (deploy : D) (deploys : List D) (rejected : Finset D)
    (visited : deploy ∈ deploys) :
    deploy ∈ (deploys.foldl (foldDeploy dependencyMap (drain deploy channel))
      ((∅ : Balances CH), rejected)).2 := by
  induction deploys generalizing rejected with
  | nil => cases visited
  | cons first deploys ih =>
    rw [foldl_cons]
    by_cases here : first = deploy
    · subst here
      refine fold_deploys_keep (P := (first ∈ ·)) _ (fun _ _ _ => mem_union_left _) _ ?_
      unfold foldDeploy
      split_ifs with before
      · exact before
      · simp only [drain_overflows]
        exact mem_union_left _ (mem_insert_self _ _)
    · have later : deploy ∈ deploys := by
        rcases mem_cons.mp visited with same | later
        · exact absurd same.symm here
        · exact later
      unfold foldDeploy
      split_ifs
      · exact ih rejected later
      · simp only [drain_spares channel here]
        exact ih rejected later

end Overflow

section Resolution

variable {D CH : Type} [LinearOrder D] [LinearOrder CH]
  (conflictSet acceptedFinally rejectedFinally : Finset D) (cost : D → Int64)
  (conflictsMap dependencyMap : RelationMap D) (mergeableDiffs : Finmap fun _ : D => Balances CH)
  (initMergeableValues : Balances CH)

/-- The stages behind a resolution: a rejection option, if there is any conflict, and the
rejections for overflow that were added to it. -/
theorem resolution_stages : ∃ option overflow resolved : Finset D,
      resolveConflictSet conflictSet acceptedFinally rejectedFinally cost conflictsMap
        dependencyMap mergeableDiffs initMergeableValues =
        ((conflictSet \ withDependencies (incompatibleWithFinal acceptedFinally rejectedFinally
          conflictsMap dependencyMap) dependencyMap) \ resolved,
        resolved ∪ withDependencies (incompatibleWithFinal acceptedFinally rejectedFinally
          conflictsMap dependencyMap) dependencyMap) ∧
      resolved = option ∪ overflow ∧
      overflow = foldRejection initMergeableValues (conflictSet \ option) dependencyMap
        mergeableDiffs ∧
      (option = ∅ ∧ conflictsMap.keys = ∅ ∨
        option ∈ computeRejectionOptions (fullConflictsMap conflictsMap dependencyMap)) := by
  set options := computeRejectionOptions (fullConflictsMap conflictsMap dependencyMap) with named
  by_cases none : options = ∅
  · refine ⟨∅, foldRejection initMergeableValues conflictSet dependencyMap mergeableDiffs, _, rfl,
      ?_, by rw [sdiff_empty], .inl ⟨rfl, ?_⟩⟩
    · have present := optimal_rejection cost (singleton_nonempty
        (foldRejection initMergeableValues conflictSet dependencyMap mergeableDiffs))
      rw [← named, addMergeableOverflowRejections, if_pos none, Finset.empty_union]
      exact Finset.mem_singleton.mp present.1
    · by_contra keys
      obtain ⟨k, isKey⟩ := nonempty_iff_ne_empty.mpr keys
      rw [← keys_full conflictsMap dependencyMap] at isKey
      obtain ⟨option, found, _⟩ := option_accepting isKey
      have impossible : option ∈ options := found
      rw [none] at impossible
      exact notMem_empty option impossible
  · have some : (options.image fun rj => rj ∪ foldRejection initMergeableValues (conflictSet \ rj)
        dependencyMap mergeableDiffs).Nonempty :=
      (nonempty_iff_ne_empty.mpr none).image _
    have present := optimal_rejection cost some
    obtain ⟨option, found, chosen⟩ := mem_image.mp present.1
    refine ⟨option, _, _, rfl, ?_, rfl, .inr found⟩
    rw [← named, addMergeableOverflowRejections, if_neg none]
    exact chosen.symm

variable {conflictSet acceptedFinally rejectedFinally cost conflictsMap dependencyMap
    mergeableDiffs initMergeableValues}
  {y : D} {option : Finset D}

theorem with_dependencies_cases {s : Finset D} (mem : y ∈ withDependencies s dependencyMap) :
    y ∈ s ∨ y ∈ valuesOf dependencyMap := by
  obtain ⟨_, start, reached⟩ := mem_with_dependencies.mp mem
  rcases Relation.ReflTransGen.cases_tail reached with same | ⟨k, _, edge⟩
  · rw [same]
    exact .inl start
  · exact .inr (related_subset_values dependencyMap k edge)

theorem related_full (k : D) : related (fullConflictsMap conflictsMap dependencyMap) k =
      withDependencies (related conflictsMap k) dependencyMap := by
  unfold fullConflictsMap
  rw [related_map_of]
  split_ifs with isKey
  · exact union_eq_right.mpr (subset_with_dependencies _ _)
  · have nothing : related conflictsMap k = ∅ :=
      eq_empty_iff_forall_notMem.mpr fun x mem => isKey (key_of_related mem)
    rw [nothing]
    symm
    refine eq_empty_iff_forall_notMem.mpr fun x mem => ?_
    obtain ⟨y, impossible, _⟩ := mem_with_dependencies.mp mem
    exact notMem_empty y impossible

theorem option_closed
    (found : option ∈ computeRejectionOptions (fullConflictsMap conflictsMap dependencyMap)) :
    Closed (related dependencyMap) option := by
  obtain ⟨_, _, made, _⟩ := rejection_option found
  intro x mem _ edge
  rw [made] at mem ⊢
  obtain ⟨k, isAccepted, conflict⟩ := mem_biUnion.mp mem
  refine mem_biUnion.mpr ⟨k, isAccepted, ?_⟩
  rw [related_full] at conflict ⊢
  exact with_dependencies_closed _ _ x conflict edge

theorem option_separates
    (found : option ∈ computeRejectionOptions (fullConflictsMap conflictsMap dependencyMap)) {x : D}
    (conflict : y ∈ related conflictsMap x) : x ∈ option ∨ y ∈ option := by
  obtain ⟨_, _, made, covered⟩ := rejection_option found
  rw [keys_full] at covered
  rcases mem_union.mp (covered (key_of_related conflict)) with rejected | isAccepted
  · exact .inl rejected
  · right
    rw [made]
    refine mem_biUnion.mpr ⟨x, isAccepted, ?_⟩
    rw [related_full]
    exact subset_with_dependencies _ _ conflict

variable (conflictSet acceptedFinally rejectedFinally conflictsMap dependencyMap) in
/-- What a resolution promises about the items that are not final. -/
structure Sound (resolution : Finset D × Finset D) : Prop where
  within : resolution.1 ⊆ conflictSet
  split : ∀ x ∈ conflictSet, x ∈ resolution.1 ↔ x ∉ resolution.2
  compatible : ∀ x ∈ resolution.1, ∀ y ∈ resolution.1, y ∉ related conflictsMap x
  grounded : ∀ x ∈ resolution.1, ∀ y, y ∈ resolution.2 ∨ y ∈ rejectedFinally →
    ¬ DependsOn dependencyMap x y
  compatibleFinal : ∀ x ∈ resolution.1, ∀ f ∈ acceptedFinally,
    x ∉ related conflictsMap f ∧ f ∉ related conflictsMap x

theorem resolution_sound
    (symmetric : ∀ x y, y ∈ related conflictsMap x → x ∈ related conflictsMap y) :
    Sound conflictSet acceptedFinally rejectedFinally conflictsMap dependencyMap
      (resolveConflictSet conflictSet acceptedFinally rejectedFinally cost conflictsMap
        dependencyMap mergeableDiffs initMergeableValues) := by
  obtain ⟨_, _, resolved, result, parts, folded, source⟩ := resolution_stages
    conflictSet acceptedFinally rejectedFinally cost conflictsMap dependencyMap mergeableDiffs
    initMergeableValues
  rw [result]
  set enforced := withDependencies (incompatibleWithFinal acceptedFinally rejectedFinally
    conflictsMap dependencyMap) dependencyMap with named
  have accepted {x : D} : x ∈ (conflictSet \ enforced) \ resolved ↔
      x ∈ conflictSet ∧ x ∉ enforced ∧ x ∉ resolved := by
    simp only [mem_sdiff, and_assoc]
  have closed : Closed (related dependencyMap) (resolved ∪ enforced) := by
    rw [parts, folded]
    have nothing : Closed (related dependencyMap) ∅ :=
      fun x impossible => absurd impossible (notMem_empty x)
    refine closed_union (closed_union ?_ (fold_deploys_keep _ (fun _ _ _ closed =>
      closed_union closed (with_dependencies_closed _ _)) _ nothing)) (with_dependencies_closed _ _)
    rcases source with ⟨empty, _⟩ | found
    · rwa [empty]
    · exact option_closed found
  have incompatible {x : D}
      (mem : x ∈ incompatibleWithFinal acceptedFinally rejectedFinally conflictsMap
        dependencyMap) : x ∈ enforced := subset_with_dependencies _ _ mem
  refine ⟨fun x mem => (accepted.mp mem).1, fun x mem => ?_, fun x left y right conflict => ?_,
    fun x mem y rejected depends => ?_, fun x mem f final => ?_⟩
  · rw [accepted, Finset.mem_union, not_or]
    exact ⟨fun inside => ⟨inside.2.2, inside.2.1⟩, fun outside => ⟨mem, outside.2, outside.1⟩⟩
  · obtain ⟨_, _, keptLeft⟩ := accepted.mp left
    obtain ⟨_, _, keptRight⟩ := accepted.mp right
    rcases source with ⟨_, noKeys⟩ | found
    · have isKey := key_of_related conflict
      rw [noKeys] at isKey
      exact notMem_empty x isKey
    · rw [parts] at keptLeft keptRight
      rcases option_separates found conflict with inLeft | inRight
      · exact keptLeft (mem_union_left _ inLeft)
      · exact keptRight (mem_union_left _ inRight)
  · obtain ⟨_, notEnforced, notResolved⟩ := accepted.mp mem
    have inside : x ∈ resolved ∪ enforced := by
      rcases rejected with inRejected | final
      · exact closed_reaches closed inRejected depends.to_reflTransGen
      · obtain ⟨_, edge, reached⟩ := Relation.TransGen.head'_iff.mp depends
        refine mem_union_right _ (closed_reaches (with_dependencies_closed _ _)
          (incompatible ?_) reached)
        exact mem_union_right _ (mem_biUnion.mpr ⟨y, final, edge⟩)
    rcases mem_union.mp inside with inResolved | inEnforced
    · exact notResolved inResolved
    · exact notEnforced inEnforced
  · obtain ⟨_, notEnforced, _⟩ := accepted.mp mem
    have apart : x ∉ related conflictsMap f := fun conflict => notEnforced
      (incompatible (mem_union_left _ (mem_biUnion.mpr ⟨f, final, conflict⟩)))
    exact ⟨apart, fun conflict => apart (symmetric x f conflict)⟩

/-- A cost function that makes it cheapest to reject one item. -/
def favour (item : D) (other : D) : Int64 := if other = item then -1 else 0

theorem favour_total (item : D) (items : List D) (distinct : items.Nodup) (start : Int64) :
    items.foldl (fun acc d => acc + favour item d) start =
      if item ∈ items then start + -1 else start := by
  induction items generalizing start with
  | nil => simp
  | cons first _ ih =>
    obtain ⟨fresh, rest⟩ := nodup_cons.mp distinct
    rw [foldl_cons, ih rest]
    by_cases here : first = item
    · subst here
      simp [favour, fresh]
    · have other : item ≠ first := fun same => here same.symm
      simp [favour, here, other]

theorem favoured_chosen {options : Finset (Finset D)} {item : D} (option : Finset D)
    (among : option ∈ options) (holds : item ∈ option) :
    item ∈ computeOptimalRejection options (favour item) := by
  obtain ⟨_, least⟩ := optimal_rejection (favour item) ⟨option, among⟩
  have below := least option among
  by_contra missing
  have costs : ((elements (computeOptimalRejection options (favour item))).foldl
      (fun acc d => acc + favour item d) 0).toInt ≤
      ((elements option).foldl (fun acc d => acc + favour item d) 0).toInt := by
    rcases Prod.Lex.le_iff.mp below with smaller | ⟨same, _⟩
    · exact smaller.le
    · exact same.le
  rw [favour_total item _ (elements_nodup _), favour_total item _ (elements_nodup _),
    if_neg (fun inside => missing (mem_elements.mp inside)), if_pos (mem_elements.mpr holds)]
    at costs
  exact absurd costs (by decide)

section Spared

variable {f : D}

/-- A draining difference rejects what the fold can reach. -/
theorem mentioned_drained [Inhabited CH] (acyclic : Acyclic (related dependencyMap))
    (member : f ∈ mentioned conflictSet dependencyMap) :
    f ∈ (resolveConflictSet conflictSet acceptedFinally rejectedFinally (fun _ => 0) conflictsMap
      dependencyMap (drain f (default : CH)) ∅).2 := by
  obtain ⟨option, _, _, result, parts, folded, _⟩ := resolution_stages
    conflictSet acceptedFinally rejectedFinally (fun _ => 0) conflictsMap dependencyMap
    (drain f (default : CH)) ∅
  rw [result, parts]
  apply Finset.mem_union_left
  by_cases rejected : f ∈ option
  · exact Finset.mem_union_left _ rejected
  · apply Finset.mem_union_right
    rw [folded]
    refine drain_rejected default f _ ∅ ((mem_visited acyclic).mpr ?_)
    simp only [mentioned, Finset.mem_union, Finset.mem_sdiff] at member ⊢
    rcases member with (inSet | isKey) | isValue
    · exact Or.inl (Or.inl ⟨inSet, rejected⟩)
    · exact Or.inl (Or.inr isKey)
    · exact Or.inr isValue

/-- A cost that favours rejecting an item chooses an option that accepts one of its conflicts. -/
theorem conflicting_favoured (conflict : f ∈ valuesOf conflictsMap) :
    f ∈ (resolveConflictSet conflictSet acceptedFinally rejectedFinally (favour f) conflictsMap
      dependencyMap ∅ (∅ : Balances CH)).2 := by
  obtain ⟨k, isKey, edge⟩ := Finset.mem_biUnion.mp conflict
  rw [← keys_full conflictsMap dependencyMap] at isKey
  obtain ⟨option, found, holds⟩ := option_accepting isKey
  have inOption : f ∈ option := by
    apply holds
    rw [related_full]
    exact subset_with_dependencies _ _ edge
  refine Finset.mem_union_left _ (favoured_chosen (option ∪ foldRejection
    (∅ : Balances CH) (conflictSet \ option) dependencyMap ∅) ?_ (Finset.mem_union_left _ inOption))
  rw [addMergeableOverflowRejections, if_neg (Finset.ne_empty_of_mem found)]
  exact Finset.mem_image_of_mem _ found

theorem detached_kept (acyclic : Acyclic (related dependencyMap)) {cost : D → Int64}
    {diffs : Finmap fun _ : D => Balances CH} {values : Balances CH}
    (unmentioned : f ∉ mentioned conflictSet dependencyMap) (noConflict : f ∉ valuesOf conflictsMap) :
    f ∉ (resolveConflictSet conflictSet acceptedFinally rejectedFinally cost conflictsMap
      dependencyMap diffs values).2 := by
  intro rejected
  obtain ⟨_, _, _, result, parts, folded, source⟩ := resolution_stages
    conflictSet acceptedFinally rejectedFinally cost conflictsMap dependencyMap diffs values
  have notDependent : f ∉ valuesOf dependencyMap := fun isValue =>
    unmentioned (Finset.mem_union_right _ isValue)
  have outside {s : Finset D} (member : f ∈ withDependencies s dependencyMap) : f ∈ s :=
    (with_dependencies_cases member).resolve_right notDependent
  simp only [result, parts, folded, Finset.mem_union] at rejected
  rcases rejected with (inOption | inOverflow) | inEnforced
  · rcases source with ⟨empty, _⟩ | found
    · rw [empty] at inOption
      exact Finset.notMem_empty f inOption
    · obtain ⟨_, _, made, _⟩ := rejection_option found
      rw [made] at inOption
      obtain ⟨k, _, conflict⟩ := Finset.mem_biUnion.mp inOption
      rw [related_full] at conflict
      exact noConflict (related_subset_values conflictsMap k (outside conflict))
  · have member := fold_rejection_subset acyclic values _ inOverflow
    simp only [mentioned, Finset.mem_union, Finset.mem_sdiff] at member unmentioned
    tauto
  · rcases Finset.mem_union.mp (outside inEnforced) with fromAccepted | fromRejected
    · obtain ⟨k, _, conflict⟩ := Finset.mem_biUnion.mp fromAccepted
      exact noConflict (related_subset_values conflictsMap k conflict)
    · obtain ⟨k, _, depends⟩ := Finset.mem_biUnion.mp fromRejected
      exact notDependent (related_subset_values dependencyMap k depends)

end Spared

/-- Conflict resolution keeps every promise but one. Whether it also spares the finally
accepted items, for all costs and mergeable values, depends on whether these items are of any
concern to the conflict set: none may be in it, occur in the dependency map or conflict with
anything. -/
theorem resolution_spares_final_iff [Inhabited CH]
    (symmetric : ∀ x y, y ∈ related conflictsMap x → x ∈ related conflictsMap y)
    (acyclic : Acyclic (related dependencyMap)) :
    (∀ (cost : D → Int64) (mergeableDiffs : Finmap fun _ : D => Balances CH)
      (initMergeableValues : Balances CH),
      Sound conflictSet acceptedFinally rejectedFinally conflictsMap dependencyMap
        (resolveConflictSet conflictSet acceptedFinally rejectedFinally cost conflictsMap
          dependencyMap mergeableDiffs initMergeableValues)) ∧
    ((∀ (cost : D → Int64) (mergeableDiffs : Finmap fun _ : D => Balances CH)
      (initMergeableValues : Balances CH), ∀ f ∈ acceptedFinally,
      f ∉ (resolveConflictSet conflictSet acceptedFinally rejectedFinally cost conflictsMap
        dependencyMap mergeableDiffs initMergeableValues).2) ↔
      ∀ f ∈ acceptedFinally, f ∉ conflictSet ∧ f ∉ dependencyMap.keys ∧
        f ∉ valuesOf dependencyMap ∧ f ∉ valuesOf conflictsMap) := by
  refine ⟨fun cost diffs values => resolution_sound symmetric, ?_⟩
  have apart (f : D) : f ∉ mentioned conflictSet dependencyMap ↔
      f ∉ conflictSet ∧ f ∉ dependencyMap.keys ∧ f ∉ valuesOf dependencyMap := by
    simp only [mentioned, Finset.mem_union, not_or, and_assoc]
  constructor
  · intro spared f final
    have unmentioned := (apart f).mp fun member =>
      spared _ _ _ f final (mentioned_drained acyclic member)
    exact ⟨unmentioned.1, unmentioned.2.1, unmentioned.2.2, fun conflict =>
      spared _ _ _ f final (conflicting_favoured conflict)⟩
  · intro detached cost diffs values f final
    obtain ⟨notInSet, notKey, notDependent, noConflict⟩ := detached f final
    exact detached_kept acyclic ((apart f).mpr ⟨notInSet, notKey, notDependent⟩) noConflict

end Resolution

section Example

/-- Item 1 conflicts with the finally accepted item 2. -/
def finalConflict : RelationMap Nat := mapOf {1, 2} fun k => if k = 1 then {2} else {1}

/-- Item 1 is rejected for its conflict with 2, and 2 is rejected as the cheaper side of the
same conflict. -/
theorem final_item_rejected :
    resolveConflictSet {1} {2} ∅ (fun d => if d = 1 then 5 else 0) finalConflict ∅ ∅
      (∅ : Balances Nat) = (∅, {1, 2}) := by
  decide +kernel

/-- Two conflicting items and an unrelated finally accepted one. -/
theorem unrelated_final_item_spared :
    7 ∉ (resolveConflictSet {1, 2} {7} ∅ (fun d => if d = 1 then 5 else 0) finalConflict ∅ ∅
      (∅ : Balances Nat)).2 := by
  have symmetric : ∀ x y, y ∈ related finalConflict x → x ∈ related finalConflict y := by
    intro x y member
    rw [finalConflict, related_map_of] at member ⊢
    split_ifs at member with isKey first
    · rw [Finset.mem_singleton.mp member, first]
      decide
    · have second : x = 2 := by simpa [first] using isKey
      rw [Finset.mem_singleton.mp member, second]
      decide
    · exact absurd member (Finset.notMem_empty y)
  have acyclic : Acyclic (related (∅ : RelationMap Nat)) := by
    intro x cycle
    obtain ⟨_, edge, _⟩ := Relation.TransGen.head'_iff.mp cycle
    exact absurd (key_of_related edge) (Finset.notMem_empty x)
  refine (resolution_spares_final_iff symmetric acyclic).2.mpr ?_ _ ∅ ∅ 7
    (Finset.mem_singleton_self 7)
  decide +kernel

end Example

end RChain.Sdk
