import RChain.Sdk.Branches

/-!
# When the branches make up the target

The fold of the roots goes through the keys once, in ascending order, and a root that is folded
brings its direct dependents only. A key is left at the end if nothing holds it at its turn, and
its branch has what is below it along keys in ascending order. Everything else is in no branch.
-/

namespace RChain.Sdk

open Reach Sorted Finset
open List (foldl_cons isChain_cons_cons mem_cons_self pairwise_cons)

variable {D : Type} [LinearOrder D] (g : RelationMap D)

/-- From `k` to `x` along direct dependents, with the items between in ascending order. -/
def Climbs (k x : D) : Prop :=
  ∃ between : List D, between.Pairwise (· < ·) ∧
    List.IsChain (fun a b => b ∈ related g a) (k :: (between ++ [x]))

/-- A key stands if no greater key and no smaller standing one climbs to it. -/
def standStep (standing : Finset D) (root : D) : Finset D :=
  if ∃ j ∈ g.keys, (root < j ∨ j ∈ standing) ∧ root ∈ onePass g j then standing
  else insert root standing

def standing : Finset D := (elements g.keys).foldl (standStep g) ∅

variable {g}

section Pass

theorem elements_ascend (s : Finset D) : (elements s).Pairwise (· < ·) :=
  ((elements_sorted s).and (elements_nodup s)).imp fun both => lt_of_le_of_ne both.1 both.2

theorem subset_absorbed (roots : List D) (found : Finset D) :
    found ⊆ roots.foldl (absorb g) found := by
  induction roots generalizing found with
  | nil => exact Finset.Subset.refl _
  | cons root _ ih =>
    refine Finset.Subset.trans ?_ (ih (absorb g found root))
    unfold absorb
    split_ifs
    · exact subset_union_left
    · exact Finset.Subset.refl _

theorem mem_absorbed (roots : List D) (found : Finset D) (x : D) :
    x ∈ roots.foldl (absorb g) found ↔ x ∈ found ∨ ∃ a between, (a :: between).Sublist roots ∧
      a ∈ found ∧ List.IsChain (fun a b => b ∈ related g a) (a :: (between ++ [x])) := by
  induction roots generalizing found with
  | nil => simp
  | cons root _ ih =>
    have absorbed (y : D) : y ∈ absorb g found root ↔
        y ∈ found ∨ root ∈ found ∧ y ∈ related g root := by
      unfold absorb
      split_ifs with held
      · rw [mem_union, mem_insert]
        constructor
        · rintro (before | rfl | edge)
          · exact .inl before
          · exact .inl held
          · exact .inr ⟨held, edge⟩
        · rintro (before | ⟨_, edge⟩)
          · exact .inl before
          · exact .inr (.inr edge)
      · simp [held]
    rw [foldl_cons, ih, absorbed]
    constructor
    · rintro ((before | ⟨held, edge⟩) | ⟨a, between, sublist, start, chain⟩)
      · exact .inl before
      · exact .inr ⟨root, [], by simp, held, by simpa using edge⟩
      · rcases (absorbed a).mp start with before | ⟨held, edge⟩
        · exact .inr ⟨a, between, sublist.cons _, before, chain⟩
        · exact .inr ⟨root, a :: between, sublist.cons_cons _, held,
            isChain_cons_cons.mpr ⟨edge, chain⟩⟩
    · rintro (before | ⟨a, between, sublist, start, chain⟩)
      · exact .inl (.inl before)
      · cases sublist with
        | cons _ later => exact .inr ⟨a, between, later, (absorbed a).mpr (.inl start), chain⟩
        | cons_cons _ later =>
          cases between with
          | nil => exact .inl (.inr ⟨start, by simpa using chain⟩)
          | cons b between =>
            obtain ⟨edge, chain⟩ := isChain_cons_cons.mp chain
            exact .inr ⟨b, between, later, (absorbed b).mpr (.inr ⟨start, edge⟩), chain⟩

theorem chain_keys {k x : D} {between : List D}
    (chain : List.IsChain (fun a b => b ∈ related g a) (k :: (between ++ [x]))) :
    ∀ a ∈ k :: between, a ∈ g.keys := by
  induction between generalizing k with
  | nil =>
    intro _ mem
    rw [List.mem_singleton.mp mem]
    exact key_of_related (isChain_cons_cons.mp chain).1
  | cons b _ ih =>
    obtain ⟨edge, chain⟩ := isChain_cons_cons.mp chain
    rw [List.forall_mem_cons]
    exact ⟨key_of_related edge, ih chain⟩

theorem mem_one_pass {k x : D} : x ∈ onePass g k ↔ Climbs g k x := by
  rw [onePass, mem_absorbed, Climbs]
  constructor
  · rintro (edge | ⟨a, between, sublist, start, chain⟩)
    · exact ⟨[], List.Pairwise.nil, by simpa using edge⟩
    · refine ⟨a :: between, ?_, isChain_cons_cons.mpr ⟨start, chain⟩⟩
      exact (elements_ascend g.keys).sublist sublist
  · rintro ⟨between, ascending, chain⟩
    cases between with
    | nil => exact .inl (by simpa using chain)
    | cons a between =>
      refine .inr ⟨a, between, ?_, (isChain_cons_cons.mp chain).1,
        (isChain_cons_cons.mp chain).2⟩
      refine List.sublist_of_subperm_of_pairwise (List.subperm_of_subset ?_ ?_)
        (ascending.imp le_of_lt) (elements_sorted g.keys)
      · exact ascending.imp ne_of_lt
      · intro key mem
        exact mem_elements.mpr (chain_keys chain key (List.mem_cons_of_mem _ mem))

end Pass

section Fold

variable {done rest : List D} {root : D} {stand : Finset D} {acc : RelationMap D}

variable (g) in
/-- The state of the fold after the roots `done`. -/
structure Folded (done rest : List D) (stand : Finset D) (acc : RelationMap D) : Prop where
  rooted : Rooted g acc
  keys : ∀ k, k ∈ acc.keys ↔ k ∈ rest ∨ k ∈ stand
  found : ∀ k ∈ acc.keys, related acc k = done.foldl (absorb g) (related g k)
  passed : ∀ k ∈ stand, k ∈ done

theorem pass_split (order : elements g.keys = done ++ rest) (k : D) :
    onePass g k = rest.foldl (absorb g) (done.foldl (absorb g) (related g k)) := by
  rw [onePass, order, List.foldl_append]

section

variable (acyclic : Acyclic (related g))

include acyclic

/-- At its turn a root is held by a branch exactly when a greater key or a standing one climbs to
it. -/
theorem held_iff (order : elements g.keys = done ++ root :: rest)
    (folded : Folded g done (root :: rest) stand acc) :
    (∃ k, root ∈ related acc k) ↔ ∃ j ∈ g.keys, (root < j ∨ j ∈ stand) ∧ root ∈ onePass g j := by
  have ascends : (done ++ root :: rest).Pairwise (· < ·) := order ▸ elements_ascend g.keys
  have later {k : D} : k ∈ rest → root < k :=
    (pairwise_cons.mp (List.pairwise_append.mp ascends).2.1).1 k
  constructor
  · rintro ⟨k, held⟩
    have isKey := key_of_related held
    have different : k ≠ root := by
      rintro rfl
      exact acyclic k (folded.rooted.below k k held)
    refine ⟨k, folded.rooted.keys isKey, ?_, ?_⟩
    · rcases (folded.keys k).mp isKey with among | stands
      · rcases List.mem_cons.mp among with same | after
        · exact absurd same different
        · exact .inl (later after)
      · exact .inr stands
    · rw [pass_split order]
      rw [folded.found k isKey] at held
      exact subset_absorbed _ _ held
  · rintro ⟨j, isKey, place, found⟩
    rw [pass_split order] at found
    rcases absorbed_cases _ _ found with held | ⟨a, among, edge⟩
    · have present : j ∈ acc.keys := by
        rw [folded.keys]
        rcases place with above | stands
        · left
          have listed : j ∈ done ++ root :: rest := order ▸ mem_elements.mpr isKey
          rcases List.mem_append.mp listed with earlier | among
          · exact absurd above (not_lt_of_gt
              ((List.pairwise_append.mp ascends).2.2 j earlier root mem_cons_self))
          · exact among
        · exact .inr stands
      exact ⟨j, by rw [folded.found j present]; exact held⟩
    · refine ⟨a, ?_⟩
      rw [folded.found a ((folded.keys a).mpr (.inl among))]
      exact subset_absorbed _ _ edge

theorem folded_step (order : elements g.keys = done ++ root :: rest)
    (folded : Folded g done (root :: rest) stand acc) :
    Folded g (done ++ [root]) rest (standStep g stand root) (foldRoot g acc root) := by
  have distinct : (done ++ root :: rest).Nodup := order ▸ elements_nodup g.keys
  have rootLater : root ∉ rest := (List.nodup_cons.mp (List.nodup_append.mp distinct).2.1).1
  have rootStands : root ∉ stand := fun stands =>
    (List.nodup_append.mp distinct).2.2 root (folded.passed root stands) root mem_cons_self rfl
  have pass (k : D) (isKey : k ∈ acc.keys) : (done ++ [root]).foldl (absorb g) (related g k) =
      absorb g (related acc k) root := by
    rw [List.foldl_append, foldl_cons, List.foldl_nil, folded.found k isKey]
  have rooted := rooted_fold acyclic root folded.rooted
  have held := held_iff acyclic order folded
  by_cases alone : ∃ k, root ∈ related acc k
  · have same : standStep g stand root = stand := if_pos (held.mp alone)
    obtain ⟨_, inHolder⟩ := alone
    have selfless : root ∉ related acc root := fun mem =>
      acyclic root (folded.rooted.below root root mem)
    have removed : root ∉ (foldRoot g acc root).keys := fold_root_removed inHolder selfless
    rw [same]
    refine ⟨rooted, fun k => ?_, fun k isKey => ?_, fun k stands => ?_⟩
    · by_cases here : k = root
      · rw [here]
        exact iff_of_false removed (not_or_intro rootLater rootStands)
      · rw [fold_root_keys here, folded.keys, List.mem_cons]
        simp only [here, false_or]
    · have different : k ≠ root := fun here => removed (here ▸ isKey)
      rw [related_fold_root different, pass k ((fold_root_keys different).mp isKey)]
    · exact List.mem_append_left _ (folded.passed k stands)
  · have grown : standStep g stand root = insert root stand := if_neg fun climbs =>
      alone (held.mpr climbs)
    have nobody : ∀ k, root ∉ related acc k := not_exists.mp alone
    rw [grown, fold_root_alone nobody]
    refine ⟨folded.rooted, fun k => ?_, fun k isKey => ?_, fun k stands => ?_⟩
    · rw [folded.keys, List.mem_cons, mem_insert]
      tauto
    · rw [pass k isKey, absorb, if_neg (nobody k)]
    · rcases mem_insert.mp stands with rfl | before
      · exact List.mem_append_right _ (List.mem_singleton_self _)
      · exact List.mem_append_left _ (folded.passed k before)

theorem folded_all (rest : List D) {done : List D} {stand : Finset D} {acc : RelationMap D}
    (order : elements g.keys = done ++ rest) (folded : Folded g done rest stand acc) :
    Folded g (elements g.keys) [] (rest.foldl (standStep g) stand)
      (rest.foldl (foldRoot g) acc) := by
  induction rest generalizing done stand acc with
  | nil =>
    rw [List.append_nil] at order
    rw [order]
    exact folded
  | cons _ _ ih =>
    refine ih ?_ (folded_step acyclic order folded)
    rw [order, List.append_assoc, List.singleton_append]

theorem folded_branches :
    Folded g (elements g.keys) [] (standing g) ((elements g.keys).foldl (foldRoot g) g) := by
  refine folded_all acyclic _ (List.nil_append _).symm ⟨rooted_initial, fun k => ?_, fun k _ => rfl,
    fun k impossible => absurd impossible (notMem_empty k)⟩
  simp

theorem branch_keys (target : Finset D) (k : D) : k ∈ (computeBranches target g).keys ↔
      k ∈ standing g ∨ k ∈ target \ (g.keys ∪ valuesOf g) := by
  have folded := folded_branches acyclic
  unfold computeBranches
  dsimp only
  rw [keys_or_insert, to_finset_elements, mem_union, folded.keys]
  simp only [List.not_mem_nil, false_or, or_comm]

theorem mem_branch (target : Finset D) {k x : D} :
    x ∈ related (computeBranches target g) k ↔ k ∈ standing g ∧ Climbs g k x := by
  have folded := folded_branches acyclic
  have keys (k : D) : k ∈ ((elements g.keys).foldl (foldRoot g) g).keys ↔ k ∈ standing g := by
    rw [folded.keys]
    simp only [List.not_mem_nil, false_or]
  unfold computeBranches
  dsimp only
  rw [related_or_insert, ← mem_one_pass]
  constructor
  · intro mem
    have isKey := key_of_related mem
    rw [folded.found k isKey] at mem
    exact ⟨(keys k).mp isKey, mem⟩
  · rintro ⟨stands, found⟩
    rw [folded.found k ((keys k).mpr stands)]
    exact found

end

end Fold

section Scope

theorem mem_partition_from (views : List (Finset D)) (taken : Finset D) (x : D) :
    (∃ part ∈ partitionFrom taken views, x ∈ part) ↔ x ∉ taken ∧ ∃ view ∈ views, x ∈ view := by
  induction views generalizing taken with
  | nil => simp [partitionFrom]
  | cons _ _ ih =>
    rw [partitionFrom, List.exists_mem_cons_iff, List.exists_mem_cons_iff, ih, mem_union, mem_sdiff]
    tauto

theorem partition_from_disjoint (views : List (Finset D)) (taken : Finset D) :
    (partitionFrom taken views).Pairwise Disjoint ∧
      ∀ part ∈ partitionFrom taken views, Disjoint taken part := by
  induction views generalizing taken with
  | nil => exact ⟨List.Pairwise.nil, fun part impossible => absurd impossible List.not_mem_nil⟩
  | cons view _ ih =>
    obtain ⟨apart, outside⟩ := ih (taken ∪ (view \ taken))
    rw [partitionFrom]
    refine ⟨pairwise_cons.mpr ⟨fun part later => ?_, apart⟩, ?_⟩
    · exact (outside part later).mono_left subset_union_right
    · rw [List.forall_mem_cons]
      exact ⟨disjoint_sdiff, fun part later =>
        (outside part later).mono_left subset_union_left⟩

/-- The items of the branches: the standing keys, what they climb to, and the items outside the
map. -/
theorem mem_greedy_branches (acyclic : Acyclic (related g)) (target : Finset D) (x : D) :
    (∃ part ∈ computeGreedyNonIntersectingBranches target g, x ∈ part) ↔
      (∃ k ∈ standing g, x = k ∨ Climbs g k x) ∨ x ∈ target \ (g.keys ∪ valuesOf g) := by
  unfold computeGreedyNonIntersectingBranches
  dsimp only
  rw [partitionScope, mem_partition_from]
  simp only [notMem_empty, not_false_eq_true, true_and, List.mem_map, List.mem_insertionSort,
    mem_elements, exists_exists_and_eq_and, mem_insert, mem_branch acyclic target,
    branch_keys acyclic target]
  constructor
  · rintro ⟨k, stands | outside, rfl | ⟨alsoStands, climbs⟩⟩
    · exact .inl ⟨x, stands, .inl rfl⟩
    · exact .inl ⟨k, alsoStands, .inr climbs⟩
    · exact .inr outside
    · exact .inl ⟨k, alsoStands, .inr climbs⟩
  · rintro (⟨k, stands, rfl | climbs⟩ | outside)
    · exact ⟨x, .inl stands, .inl rfl⟩
    · exact ⟨k, .inl stands, .inr ⟨stands, climbs⟩⟩
    · exact ⟨x, .inr outside, .inl rfl⟩

end Scope

section Standing

theorem stand_unchanged {roots : List D} {k : D} (outside : k ∉ roots) (stand : Finset D) :
    k ∈ roots.foldl (standStep g) stand ↔ k ∈ stand := by
  induction roots generalizing stand with
  | nil => rfl
  | cons _ _ ih =>
    rw [List.mem_cons, not_or] at outside
    rw [foldl_cons, ih outside.2, standStep]
    split_ifs
    · rfl
    · rw [mem_insert]
      simp only [outside.1, false_or]

theorem climbs_values {k x : D} (climbs : Climbs g k x) : x ∈ valuesOf g := by
  rw [← mem_one_pass] at climbs
  exact one_pass_values k climbs

theorem climbs_depends {k x : D} (climbs : Climbs g k x) : DependsOn g x k := by
  obtain ⟨between, ascending, chain⟩ := climbs
  clear ascending
  induction between generalizing k with
  | nil => exact Relation.TransGen.single (isChain_cons_cons.mp chain).1
  | cons a _ ih =>
    obtain ⟨edge, chain⟩ := isChain_cons_cons.mp chain
    exact Relation.TransGen.head edge (ih chain)

theorem mem_standing (acyclic : Acyclic (related g)) (k : D) :
    k ∈ standing g ↔ k ∈ g.keys ∧ ∀ j, Climbs g j k → j < k ∧ j ∉ standing g := by
  by_cases isKey : k ∈ g.keys
  · obtain ⟨done, rest, order⟩ := List.append_of_mem (mem_elements.mpr isKey)
    have ascends : (done ++ k :: rest).Pairwise (· < ·) := order ▸ elements_ascend g.keys
    obtain ⟨_, later, earlier⟩ := List.pairwise_append.mp ascends
    have notDone : k ∉ done := fun mem =>
      lt_irrefl k (earlier k mem k mem_cons_self)
    have notRest : k ∉ rest := fun mem => lt_irrefl k ((pairwise_cons.mp later).1 k mem)
    set before := done.foldl (standStep g) ∅ with named
    have whole : standing g = rest.foldl (standStep g) (standStep g before k) := by
      rw [standing, order, List.foldl_append, foldl_cons]
    have absent : k ∉ before := by
      rw [named, stand_unchanged notDone]
      exact notMem_empty k
    have below {j : D} (less : j < k) : j ∈ standing g ↔ j ∈ before := by
      have outside : j ∉ rest := fun mem =>
        lt_asymm less ((pairwise_cons.mp later).1 j mem)
      rw [whole, stand_unchanged outside, standStep]
      split_ifs
      · rfl
      · rw [mem_insert]
        simp only [ne_of_lt less, false_or]
    have turn : k ∈ standing g ↔ ¬ ∃ j ∈ g.keys, (k < j ∨ j ∈ before) ∧ k ∈ onePass g j := by
      rw [whole, stand_unchanged notRest, standStep]
      split_ifs with climbs
      · exact iff_of_false absent (not_not_intro climbs)
      · exact iff_of_true (mem_insert_self k _) climbs
    rw [turn]
    constructor
    · intro nobody
      refine ⟨isKey, fun j climbs => ?_⟩
      have source : j ∈ g.keys := by
        obtain ⟨_, _, chain⟩ := climbs
        exact chain_keys chain j mem_cons_self
      have found := mem_one_pass.mpr climbs
      rcases lt_trichotomy j k with less | rfl | greater
      · exact ⟨less, fun stands => nobody ⟨j, source, .inr ((below less).mp stands), found⟩⟩
      · exact absurd (climbs_depends climbs) (acyclic j)
      · exact absurd ⟨j, source, .inl greater, found⟩ nobody
    · rintro ⟨_, smaller⟩ ⟨j, _, place, found⟩
      obtain ⟨less, falls⟩ := smaller j (mem_one_pass.mp found)
      rcases place with greater | stands
      · exact lt_asymm less greater
      · exact falls ((below less).mpr stands)
  · refine iff_of_false (fun stands => isKey ?_) (fun both => isKey both.1)
    have folded := folded_branches acyclic
    exact folded.rooted.keys ((folded.keys k).mpr (.inr stands))

/-- The branches do not intersect. They make up the target exactly when every dependent item is a
standing key or below one along ascending keys; a key stands when no greater key and no standing
one is above it along ascending keys. -/
theorem branches_partition_iff (target : Finset D) (acyclic : Acyclic (related g))
    (within : g.keys ∪ valuesOf g ⊆ target) :
    (computeGreedyNonIntersectingBranches target g).Pairwise Disjoint ∧
    (∀ k, k ∈ standing g ↔ k ∈ g.keys ∧ ∀ j, Climbs g j k → j < k ∧ j ∉ standing g) ∧
    ((∀ x, x ∈ target ↔ ∃ part ∈ computeGreedyNonIntersectingBranches target g, x ∈ part) ↔
      ∀ x ∈ valuesOf g, ∃ k ∈ standing g, x = k ∨ Climbs g k x) := by
  refine ⟨(partition_from_disjoint _ ∅).1, mem_standing acyclic, ?_⟩
  constructor
  · intro union x isValue
    rcases (mem_greedy_branches acyclic target x).mp
      ((union x).mp (within (mem_union_right _ isValue))) with covered | outside
    · exact covered
    · exact absurd (mem_union_right _ isValue) (mem_sdiff.mp outside).2
  · intro covered x
    rw [mem_greedy_branches acyclic]
    constructor
    · intro among
      by_cases isValue : x ∈ valuesOf g
      · exact Or.inl (covered x isValue)
      · by_cases isKey : x ∈ g.keys
        · refine Or.inl ⟨x, (mem_standing acyclic x).mpr ⟨isKey, fun j climbs => ?_⟩, Or.inl rfl⟩
          exact absurd (climbs_values climbs) isValue
        · refine Or.inr (mem_sdiff.mpr ⟨among, ?_⟩)
          rw [mem_union, not_or]
          exact ⟨isKey, isValue⟩
    · rintro (⟨_, stands, rfl | climbs⟩ | outside)
      · exact within (mem_union_left _ ((mem_standing acyclic x).mp stands).1)
      · exact within (mem_union_right _ (climbs_values climbs))
      · exact (mem_sdiff.mp outside).1

/-- A chain against the order of its items: 1 depends on 2, 2 on 3 and 3 on 4. -/
def fallingChain : RelationMap Nat := mapOf {2, 3, 4} fun k => {k - 1}

theorem falling_chain_acyclic : Acyclic (related fallingChain) := by
  have falls (x y : Nat) (edge : y ∈ related fallingChain x) : y < x := by
    rw [fallingChain, related_map_of] at edge
    split_ifs at edge with isKey
    · rw [mem_singleton] at edge
      have positive : x ≠ 0 := by
        rintro rfl
        exact absurd isKey (by decide)
      exact edge ▸ Nat.pred_lt positive
    · exact absurd edge (notMem_empty y)
  exact acyclic_of_lt (D := Natᵒᵈ) falls

theorem last_of_falling_chain_lost : Acyclic (related fallingChain) ∧
    fallingChain.keys ∪ valuesOf fallingChain ⊆ {1, 2, 3, 4} ∧
    computeGreedyNonIntersectingBranches {1, 2, 3, 4} fallingChain = [{2, 3, 4}] :=
  ⟨falling_chain_acyclic, by decide, by decide⟩

def risingChain : RelationMap Nat := mapOf {1, 2, 3} fun k => {k + 1}

theorem rising_chain_acyclic : Acyclic (related risingChain) := by
  refine acyclic_of_lt fun x y edge => ?_
  rw [risingChain, related_map_of] at edge
  split_ifs at edge
  · rw [mem_singleton] at edge
    exact edge ▸ Nat.lt_succ_self x
  · exact absurd edge (notMem_empty y)

theorem rising_chain_partition :
    (computeGreedyNonIntersectingBranches {1, 2, 3, 4} risingChain).Pairwise Disjoint ∧
    ∀ x, x ∈ ({1, 2, 3, 4} : Finset Nat) ↔
      ∃ part ∈ computeGreedyNonIntersectingBranches {1, 2, 3, 4} risingChain, x ∈ part := by
  obtain ⟨apart, _, union⟩ := branches_partition_iff {1, 2, 3, 4} rising_chain_acyclic (by decide)
  refine ⟨apart, union.mpr fun y isValue => ⟨1, by decide, Or.inr (mem_one_pass.mp ?_)⟩⟩
  revert y
  decide

end Standing

end RChain.Sdk
