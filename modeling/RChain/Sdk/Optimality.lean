import Mathlib.Algebra.BigOperators.Group.Finset.Piecewise
import Mathlib.Algebra.Order.BigOperators.Group.Finset
import RChain.Sdk.ConflictResolution

/-!
# The cost of a resolution

Among the rejection options there is, for every way to resolve the conflicts, one that rejects
nothing of what is accepted there: the search can always go on with a key that spares it. The
options range over everything in the conflict map, and an item that is final or rejected anyway
adds its cost to an option although it is not a choice.
-/

namespace RChain.Sdk

open Reach Sorted List Int64
open Finset (mem_biUnion mem_inter mem_sdiff mem_union mem_union_left)

variable {D : Type} [LinearOrder D]

/-- Rejecting these items leaves a part of the conflict set without conflicts, which depends on
nothing rejected and is compatible with the final sets. -/
structure Resolves (conflictSet acceptedFinally rejectedFinally : Finset D)
    (conflictsMap dependencyMap : RelationMap D) (rejected : Finset D) : Prop where
  within : rejected ⊆ conflictSet
  compatible : ∀ x ∈ conflictSet \ rejected, ∀ y ∈ conflictSet \ rejected,
    y ∉ related conflictsMap x
  grounded : ∀ x ∈ conflictSet \ rejected, ∀ y, y ∈ rejected ∨ y ∈ rejectedFinally →
    ¬ DependsOn dependencyMap x y
  compatibleFinal : ∀ x ∈ conflictSet \ rejected, ∀ f ∈ acceptedFinally,
    x ∉ related conflictsMap f

def totalCost (cost : D → Int64) (items : Finset D) : Int := ∑ x ∈ items, (cost x).toInt

/-- The items of the conflict set that are not rejected because of the final sets. -/
def choices (conflictSet acceptedFinally rejectedFinally : Finset D)
    (conflictsMap dependencyMap : RelationMap D) : Finset D :=
  conflictSet \ withDependencies (incompatibleWithFinal acceptedFinally rejectedFinally conflictsMap
    dependencyMap) dependencyMap

/-- Conflicts are among the items of the scope and finally accepted items have none among themselves.
The keys fall into two parts that reject nothing of each other: in one an option rejects no choice,
in the other nothing but choices, apart from items that cost nothing. -/
structure FreeChoice (conflictSet acceptedFinally rejectedFinally : Finset D) (cost : D → Int64)
    (conflictsMap dependencyMap : RelationMap D) : Prop where
  scope : ∀ k, related conflictsMap k ⊆ conflictSet ∪ (acceptedFinally ∪ rejectedFinally)
  finalApart : ∀ f ∈ acceptedFinally, ∀ g ∈ acceptedFinally, g ∉ related conflictsMap f
  free : ∃ settled : Finset D,
    ∀ k, ∀ x ∈ withDependencies (related conflictsMap k) dependencyMap,
      (x ∈ conflictsMap.keys → (x ∈ settled ↔ k ∈ settled)) ∧
      (cost x = 0 ∨ (k ∉ settled ↔ x ∈ choices conflictSet acceptedFinally rejectedFinally
        conflictsMap dependencyMap))

section Taken

variable {conflicts : RelationMap D} {taken other : Finset D}

/-- Keys that are rejected by nothing of another set can be accepted after it. -/
theorem taken_beside (held : Taken conflicts other) (p : D → Prop) [DecidablePred p]
    (apart : ∀ n ∈ conflicts.keys, p n → n ∈ keysLeft conflicts other)
    (more : Taken conflicts taken) : Taken conflicts (other ∪ taken.filter p) := by
  induction more with
  | nothing => simpa using held
  | @next taken n _ left ih =>
    by_cases chosen : p n
    · rw [Finset.filter_insert, if_pos chosen, Finset.union_insert]
      refine ih.next ?_
      have outside := apart n (mem_sdiff.mp left).1 chosen
      simp only [keysLeft, Finset.union_biUnion, mem_sdiff, mem_union, mem_biUnion,
        Finset.mem_filter] at left outside ⊢
      grind
    · rw [Finset.filter_insert, if_neg chosen]
      exact ih

end Taken

section Spare

variable {conflictSet acceptedFinally rejectedFinally rejected : Finset D} {cost : D → Int64}
  {conflictsMap dependencyMap : RelationMap D}
  (resolves : Resolves conflictSet acceptedFinally rejectedFinally conflictsMap dependencyMap
    rejected)
  (choice : FreeChoice conflictSet acceptedFinally rejectedFinally cost conflictsMap dependencyMap)

include resolves choice

/-- What an item does not conflict with, and what does not depend on its conflicts, is spared when
it is accepted. -/
theorem spared_by {n : D} (apart : ∀ y ∈ related conflictsMap n, y ∉ conflictSet \ rejected)
    (final : ∀ y ∈ related conflictsMap n, y ∈ acceptedFinally →
      ∀ x ∈ conflictSet \ rejected, ¬ DependsOn dependencyMap x y) :
    Disjoint (related (fullConflictsMap conflictsMap dependencyMap) n) (conflictSet \ rejected) := by
  rw [related_full, Finset.disjoint_left]
  intro x mem accepted
  obtain ⟨y, conflict, reached⟩ := mem_with_dependencies.mp mem
  rcases Relation.reflTransGen_iff_eq_or_transGen.mp reached with same | depends
  · exact apart y conflict (same ▸ accepted)
  · rcases mem_union.mp (choice.scope n conflict) with among | outside
    · have isRejected : y ∈ rejected := by
        by_contra kept
        exact apart y conflict (mem_sdiff.mpr ⟨among, kept⟩)
      exact resolves.grounded x accepted y (.inl isRejected) depends
    · rcases mem_union.mp outside with isFinal | rejectedFinal
      · exact final y conflict isFinal x accepted depends
      · exact resolves.grounded x accepted y (.inr rejectedFinal) depends

theorem spared_by_final {f : D} (final : f ∈ acceptedFinally) :
    Disjoint (related (fullConflictsMap conflictsMap dependencyMap) f) (conflictSet \ rejected) := by
  refine spared_by resolves choice (fun y conflict accepted => ?_) fun y conflict alsoFinal => ?_
  · exact resolves.compatibleFinal y accepted f final conflict
  · exact absurd conflict (choice.finalApart f final y alsoFinal)

theorem sparing_key (symmetric : ∀ x y, y ∈ related conflictsMap x → x ∈ related conflictsMap y)
    (taken : Finset D)
    (disjoint : Disjoint (taken.biUnion (related (fullConflictsMap conflictsMap dependencyMap)))
      (conflictSet \ rejected))
    (left : (keysLeft (fullConflictsMap conflictsMap dependencyMap) taken).Nonempty) :
    ∃ n ∈ keysLeft (fullConflictsMap conflictsMap dependencyMap) taken,
      Disjoint (related (fullConflictsMap conflictsMap dependencyMap) n)
        (conflictSet \ rejected) := by
  rw [keysLeft, keys_full] at left ⊢
  set lost := taken.biUnion (related (fullConflictsMap conflictsMap dependencyMap)) with named
  have closed : Closed (related dependencyMap) lost := by
    intro x mem _ edge
    rw [named] at mem ⊢
    obtain ⟨k, isTaken, conflict⟩ := mem_biUnion.mp mem
    refine mem_biUnion.mpr ⟨k, isTaken, ?_⟩
    rw [related_full] at conflict ⊢
    exact with_dependencies_closed _ _ x conflict edge
  -- a key in conflict with `n` that is neither lost nor taken is still left
  have settled {n y : D} (isLeft : n ∈ conflictsMap.keys \ (lost ∪ taken))
      (conflict : y ∈ related conflictsMap n) (gone : y ∉ conflictsMap.keys \ (lost ∪ taken)) :
      y ∈ lost := by
    have back := symmetric n y conflict
    by_contra kept
    have isTaken : y ∈ taken := by
      by_contra untaken
      refine gone (mem_sdiff.mpr ⟨key_of_related back, ?_⟩)
      rw [mem_union, not_or]
      exact ⟨kept, untaken⟩
    refine (mem_sdiff.mp isLeft).2 (mem_union_left _ ?_)
    rw [named]
    refine mem_biUnion.mpr ⟨y, isTaken, ?_⟩
    rw [related_full]
    exact subset_with_dependencies _ _ back
  by_cases finalLeft : ∃ f ∈ conflictsMap.keys \ (lost ∪ taken), f ∈ acceptedFinally
  · obtain ⟨f, isLeft, final⟩ := finalLeft
    exact ⟨f, isLeft, spared_by_final resolves choice final⟩
  · by_cases acceptedLeft : ∃ a ∈ conflictsMap.keys \ (lost ∪ taken), a ∈ conflictSet \ rejected
    · obtain ⟨a, isLeft, accepted⟩ := acceptedLeft
      refine ⟨a, isLeft, spared_by resolves choice (fun y conflict alsoAccepted => ?_) ?_⟩
      · exact resolves.compatible a accepted y alsoAccepted conflict
      · intro y conflict final
        exact absurd (symmetric a y conflict) (resolves.compatibleFinal a accepted y final)
    · obtain ⟨n, isLeft⟩ := left
      refine ⟨n, isLeft, spared_by resolves choice (fun y conflict accepted => ?_) ?_⟩
      · have inLost := settled isLeft conflict fun still => acceptedLeft ⟨y, still, accepted⟩
        exact Finset.disjoint_left.mp disjoint inLost accepted
      · intro y conflict final _ accepted depends
        have inLost := settled isLeft conflict fun still => finalLeft ⟨y, still, final⟩
        exact Finset.disjoint_left.mp disjoint
          (closed_reaches closed inLost depends.to_reflTransGen) accepted

theorem option_sparing (symmetric : ∀ x y, y ∈ related conflictsMap x → x ∈ related conflictsMap y)
    (conflicts : conflictsMap.keys.Nonempty) :
    ∃ option ∈ computeRejectionOptions (fullConflictsMap conflictsMap dependencyMap),
      Disjoint option (conflictSet \ rejected) := by
  rw [← keys_full conflictsMap dependencyMap] at conflicts
  obtain ⟨_, _, apart, found⟩ := option_grows conflicts (P := fun taken => Disjoint
      (taken.biUnion (related (fullConflictsMap conflictsMap dependencyMap))) (conflictSet \ rejected))
    (fun taken apart left => (sparing_key resolves choice symmetric taken apart left).imp
      fun n spared => ⟨spared.1, by
        rw [Finset.biUnion_insert]
        exact Finset.disjoint_union_left.mpr ⟨spared.2, apart⟩⟩)
    .nothing (by simp)
  exact ⟨_, found, apart⟩

theorem enforced_rejected :
    conflictSet ∩ withDependencies (incompatibleWithFinal acceptedFinally rejectedFinally
      conflictsMap dependencyMap) dependencyMap ⊆ rejected := by
  intro x mem
  obtain ⟨among, enforced⟩ := mem_inter.mp mem
  by_contra kept
  have accepted : x ∈ conflictSet \ rejected := mem_sdiff.mpr ⟨among, kept⟩
  obtain ⟨start, incompatible, reached⟩ := mem_with_dependencies.mp enforced
  rcases mem_union.mp incompatible with conflicting | depending
  · obtain ⟨f, final, conflict⟩ := mem_biUnion.mp conflicting
    have spared := spared_by_final resolves choice final
    rw [related_full, Finset.disjoint_left] at spared
    exact spared (mem_with_dependencies.mpr ⟨start, conflict, reached⟩) accepted
  · obtain ⟨r, rejectedFinal, edge⟩ := mem_biUnion.mp depending
    exact resolves.grounded x accepted r (.inr rejectedFinal)
      (Relation.TransGen.head' edge reached)

end Spare

section Cost

variable {cost : D → Int64} (nonneg : ∀ d, 0 ≤ cost d)
include nonneg

omit [LinearOrder D] in
theorem to_int_nonneg (d : D) : 0 ≤ (cost d).toInt := by
  have := le_iff_toInt_le.mp (nonneg d)
  rwa [toInt_zero] at this

omit [LinearOrder D] in
theorem cost_fold (items : List D) (start : Int64)
    (positive : 0 ≤ start.toInt)
    (fits : start.toInt + (items.map fun d => (cost d).toInt).sum < 2 ^ 63) :
    (items.foldl (fun acc d => acc + cost d) start).toInt =
      start.toInt + (items.map fun d => (cost d).toInt).sum := by
  induction items generalizing start with
  | nil => simp
  | cons d items ih =>
    rw [map_cons, sum_cons] at fits ⊢
    have here := to_int_nonneg nonneg d
    have later : 0 ≤ (items.map fun d => (cost d).toInt).sum := by
      refine sum_nonneg fun amount listed => ?_
      obtain ⟨other, _, rfl⟩ := mem_map.mp listed
      exact to_int_nonneg nonneg other
    have sum : (start + cost d).toInt = start.toInt + (cost d).toInt := by
      rw [toInt_add]
      exact Int.bmod_eq_of_le (by omega) (by omega)
    rw [foldl_cons, ih (start + cost d) (by omega) (by omega), sum]
    ring

theorem cost_covered {small large : Finset D} (covered : ∀ x ∈ small, x ∈ large ∨ cost x = 0) :
    totalCost cost small ≤ totalCost cost large := by
  have same : totalCost cost (small ∩ large) = totalCost cost small := by
    refine Finset.sum_subset Finset.inter_subset_left fun x mem outside => ?_
    rcases covered x mem with inside | nothing
    · exact absurd (mem_inter.mpr ⟨mem, inside⟩) outside
    · rw [nothing]
      rfl
  rw [← same]
  exact Finset.sum_le_sum_of_subset_of_nonneg Finset.inter_subset_right
    fun d _ _ => to_int_nonneg nonneg d

theorem cost_mono {small large : Finset D} (subset : small ⊆ large) :
    totalCost cost small ≤ totalCost cost large :=
  cost_covered nonneg fun _ mem => .inl (subset mem)

theorem cost_union (left right : Finset D) :
    totalCost cost (left ∪ right) ≤ totalCost cost left + totalCost cost right := by
  have both : (∑ d ∈ left ∪ right, (cost d).toInt) + ∑ d ∈ left ∩ right, (cost d).toInt =
      ∑ d ∈ left, (cost d).toInt + ∑ d ∈ right, (cost d).toInt := Finset.sum_union_inter
  have common := cost_mono nonneg (Finset.empty_subset (left ∩ right))
  rw [totalCost, Finset.sum_empty] at common
  rw [totalCost, totalCost, totalCost, ← both]
  exact Int.le_add_of_nonneg_right common

theorem key_cost {option : Finset D}
    (fits : totalCost cost option < 2 ^ 63) :
    (ofLex (rejectionKey cost option)).1 = totalCost cost option := by
  have sum : ((elements option).map fun d => (cost d).toInt).sum = totalCost cost option := by
    rw [totalCost, ← sum_toFinset _ (elements_nodup option), to_finset_elements]
  rw [rejectionKey, ofLex_toLex, cost_fold nonneg _ 0 (by simp) (by rw [sum]; simpa using fits), sum]
  simp

end Cost

section Minimal

variable {CH : Type} [LinearOrder CH] {conflictSet acceptedFinally rejectedFinally : Finset D}
  {cost : D → Int64} {conflictsMap dependencyMap : RelationMap D}
  {mergeableDiffs : Finmap fun _ : D => Balances CH} {initMergeableValues : Balances CH}

theorem no_overflow (noChannels : ∀ d, (mergeableDiffs.lookup d).getD ∅ = ∅) (deploys : List D)
    (balances : Balances CH) :
    deploys.foldl (foldDeploy dependencyMap mergeableDiffs) (balances, ∅) = (balances, ∅) := by
  induction deploys with
  | nil => rfl
  | cons deploy _ ih =>
    have unchanged : calcMergedResult deploy balances mergeableDiffs = some balances := by
      rw [calcMergedResult, noChannels]
      rfl
    rw [foldl_cons, foldDeploy, if_neg (Finset.notMem_empty deploy), unchanged]
    exact ih

theorem resolution_without_channels (noChannels : ∀ d, (mergeableDiffs.lookup d).getD ∅ = ∅) :
    (resolveConflictSet conflictSet acceptedFinally rejectedFinally cost conflictsMap dependencyMap
      mergeableDiffs initMergeableValues).2 =
      computeOptimalRejection
        (if computeRejectionOptions (fullConflictsMap conflictsMap dependencyMap) = ∅ then {∅}
          else computeRejectionOptions (fullConflictsMap conflictsMap dependencyMap)) cost ∪
      withDependencies (incompatibleWithFinal acceptedFinally rejectedFinally conflictsMap
        dependencyMap) dependencyMap := by
  have nothing (toMerge : Finset D) :
      foldRejection initMergeableValues toMerge dependencyMap mergeableDiffs = ∅ := by
    rw [foldRejection, no_overflow noChannels]
  rw [resolveConflictSet]
  dsimp only
  rw [addMergeableOverflowRejections]
  simp only [nothing, Finset.union_empty, Finset.image_id']

variable {option : Finset D} {resolution : Finset D × Finset D}

section

variable (found : option ∈ computeRejectionOptions (fullConflictsMap conflictsMap dependencyMap))
include found

theorem option_within : option ⊆ conflictsMap.keys.biUnion fun k =>
      withDependencies (related conflictsMap k) dependencyMap := by
  obtain ⟨_, keys, made, _⟩ := rejection_option found
  rw [keys_full] at keys
  intro _ mem
  rw [made] at mem
  obtain ⟨k, isAccepted, conflict⟩ := mem_biUnion.mp mem
  rw [related_full] at conflict
  exact mem_biUnion.mpr ⟨k, keys isAccepted, conflict⟩

theorem optimal_cost (nonneg : ∀ d, 0 ≤ cost d)
    (fits : totalCost cost (conflictsMap.keys.biUnion fun k =>
      withDependencies (related conflictsMap k) dependencyMap) < 2 ^ 63) :
    totalCost cost (computeOptimalRejection
      (computeRejectionOptions (fullConflictsMap conflictsMap dependencyMap)) cost) ≤
      totalCost cost option := by
  obtain ⟨mem, least⟩ := optimal_rejection cost ⟨option, found⟩
  have small {other : Finset D} (among : other ∈ computeRejectionOptions
      (fullConflictsMap conflictsMap dependencyMap)) : totalCost cost other < 2 ^ 63 :=
    (cost_mono nonneg (option_within among)).trans_lt fits
  rw [← key_cost nonneg (small mem), ← key_cost nonneg (small found)]
  exact Prod.Lex.monotone_fst _ _ (least option found)

/-- The settled part of one option with the choices of another. -/
theorem mixed_option (nonneg : ∀ d, 0 ≤ cost d)
    (choice : FreeChoice conflictSet acceptedFinally rejectedFinally cost conflictsMap dependencyMap)
    {best : Finset D} (held : best ∈ computeRejectionOptions
      (fullConflictsMap conflictsMap dependencyMap)) :
    let free := choices conflictSet acceptedFinally rejectedFinally conflictsMap dependencyMap
    ∃ mixed ∈ computeRejectionOptions (fullConflictsMap conflictsMap dependencyMap),
      totalCost cost mixed ≤ totalCost cost (best \ free) + totalCost cost (option ∩ free) := by
  intro free
  obtain ⟨settled, parts⟩ := choice.free
  simp only [← related_full, ← keys_full conflictsMap dependencyMap] at parts
  obtain ⟨_, kept, keptTaken, _, rfl, keptAll⟩ := mem_options_iff.mp held
  obtain ⟨some, chosen, chosenTaken, _, rfl, chosenAll⟩ := mem_options_iff.mp found
  generalize fullConflictsMap conflictsMap dependencyMap = conflicts at *
  have first : Taken conflicts (kept.filter (· ∈ settled)) := by
    simpa using taken_beside .nothing (· ∈ settled) (by simp +contextual [keysLeft]) keptTaken
  have both := taken_beside first (· ∉ settled) (fun n isKey choosing => by
    simp only [keysLeft, mem_sdiff, mem_union, mem_biUnion, Finset.mem_filter]
    grind) chosenTaken
  refine ⟨_, mem_options_iff.mpr ⟨some, _, both, taken_keys both, rfl, fun n isKey => ?_⟩,
    (cost_covered nonneg fun x mem => ?_).trans (cost_union nonneg _ _)⟩
  · have inKept := keptAll isKey
    have inChosen := chosenAll isKey
    simp only [mem_union, mem_biUnion, Finset.mem_filter] at inKept inChosen ⊢
    grind
  · simp only [mem_union, mem_biUnion, Finset.mem_filter] at mem
    obtain ⟨a, ⟨inKept, isSettled⟩ | ⟨inChosen, choosing⟩, conflict⟩ := mem
    · refine (parts a x conflict).2.symm.imp_left fun same => mem_union_left _ (mem_sdiff.mpr ?_)
      exact ⟨mem_biUnion.mpr ⟨a, inKept, conflict⟩, fun isChoice => same.mpr isChoice isSettled⟩
    · refine (parts a x conflict).2.symm.imp_left fun same =>
        Finset.mem_union_right _ (mem_inter.mpr ?_)
      exact ⟨mem_biUnion.mpr ⟨a, inChosen, conflict⟩, same.mp choosing⟩

theorem optimal_choice_cost (nonneg : ∀ d, 0 ≤ cost d)
    (fits : totalCost cost (conflictsMap.keys.biUnion fun k =>
      withDependencies (related conflictsMap k) dependencyMap) < 2 ^ 63)
    (choice : FreeChoice conflictSet acceptedFinally rejectedFinally cost conflictsMap
      dependencyMap) :
    let free := choices conflictSet acceptedFinally rejectedFinally conflictsMap dependencyMap
    totalCost cost (computeOptimalRejection
      (computeRejectionOptions (fullConflictsMap conflictsMap dependencyMap)) cost ∩ free) ≤
      totalCost cost (option ∩ free) := by
  intro free
  obtain ⟨_, isOption, cheap⟩ := mixed_option found nonneg choice
    (optimal_rejection cost ⟨option, found⟩).1
  have least := (optimal_cost isOption nonneg fits).trans cheap
  rw [totalCost, ← Finset.sum_inter_add_sum_sdiff _ free] at least
  exact (Int.add_le_add_iff_left _).mp ((Int.add_comm ..).trans_le least)

end

theorem accepted_part
    (sound : Sound conflictSet acceptedFinally rejectedFinally conflictsMap dependencyMap
      resolution) : conflictSet \ (conflictSet ∩ resolution.2) = resolution.1 := by
  ext x
  rw [mem_sdiff, mem_inter]
  constructor
  · rintro ⟨among, kept⟩
    exact (sound.split x among).mpr fun rejected => kept ⟨among, rejected⟩
  · intro accepted
    have among := sound.within accepted
    exact ⟨among, fun both => (sound.split x among).mp accepted both.2⟩

theorem resolves_of_sound
    (sound : Sound conflictSet acceptedFinally rejectedFinally conflictsMap dependencyMap
      resolution) : Resolves conflictSet acceptedFinally rejectedFinally conflictsMap dependencyMap
      (conflictSet ∩ resolution.2) := by
  refine ⟨Finset.inter_subset_left, ?_, ?_, ?_⟩
  · rw [accepted_part sound]
    exact sound.compatible
  · rw [accepted_part sound]
    rintro x accepted y (rejected | final)
    · exact sound.grounded x accepted y (.inl (mem_inter.mp rejected).2)
    · exact sound.grounded x accepted y (.inr final)
  · rw [accepted_part sound]
    exact fun x accepted f final => (sound.compatibleFinal x accepted f final).1

variable (mergeableDiffs initMergeableValues) in
/-- The rejected part of the conflict set costs no more than any other resolution. -/
theorem rejection_has_minimum_cost
    (symmetric : ∀ x y, y ∈ related conflictsMap x → x ∈ related conflictsMap y)
    (noChannels : ∀ d, (mergeableDiffs.lookup d).getD ∅ = ∅) (nonneg : ∀ d, 0 ≤ cost d)
    (fits : totalCost cost (conflictsMap.keys.biUnion fun k =>
      withDependencies (related conflictsMap k) dependencyMap) < 2 ^ 63)
    (choice : FreeChoice conflictSet acceptedFinally rejectedFinally cost conflictsMap
      dependencyMap) :
    Resolves conflictSet acceptedFinally rejectedFinally conflictsMap dependencyMap
      (conflictSet ∩ (resolveConflictSet conflictSet acceptedFinally rejectedFinally cost
        conflictsMap dependencyMap mergeableDiffs initMergeableValues).2) ∧
    ∀ rejected, Resolves conflictSet acceptedFinally rejectedFinally conflictsMap dependencyMap
        rejected →
      totalCost cost (conflictSet ∩ (resolveConflictSet conflictSet acceptedFinally rejectedFinally
        cost conflictsMap dependencyMap mergeableDiffs initMergeableValues).2) ≤
      totalCost cost rejected := by
  refine ⟨resolves_of_sound (resolution_sound symmetric), fun rejected resolves => ?_⟩
  rw [resolution_without_channels noChannels]
  set enforced := withDependencies (incompatibleWithFinal acceptedFinally rejectedFinally
    conflictsMap dependencyMap) dependencyMap with named
  have forced : conflictSet ∩ enforced ⊆ rejected := enforced_rejected resolves choice
  split_ifs with noOptions
  · have nothing : computeOptimalRejection ({∅} : Finset (Finset D)) cost = ∅ :=
      Finset.mem_singleton.mp (optimal_rejection cost (Finset.singleton_nonempty _)).1
    rw [nothing, Finset.empty_union]
    exact cost_mono nonneg forced
  · obtain ⟨_, isOption⟩ := Finset.nonempty_iff_ne_empty.mpr noOptions
    obtain ⟨k, isKey, _⟩ := Finset.mem_biUnion.mp isOption
    rw [keys_full] at isKey
    obtain ⟨option, found, apart⟩ := option_sparing resolves choice symmetric ⟨k, isKey⟩
    set best := computeOptimalRejection
      (computeRejectionOptions (fullConflictsMap conflictsMap dependencyMap)) cost
    have chosen : option ∩ (conflictSet \ enforced) ⊆ rejected := by
      intro _ member
      obtain ⟨inOption, inside⟩ := Finset.mem_inter.mp member
      by_contra kept
      exact Finset.disjoint_left.mp apart inOption
        (Finset.mem_sdiff.mpr ⟨(Finset.mem_sdiff.mp inside).1, kept⟩)
    have separate : Disjoint (option ∩ (conflictSet \ enforced)) (conflictSet ∩ enforced) := by
      rw [Finset.disjoint_left]
      intro _ left right
      exact (Finset.mem_sdiff.mp (Finset.mem_inter.mp left).2).2 (Finset.mem_inter.mp right).2
    calc totalCost cost (conflictSet ∩ (best ∪ enforced))
        ≤ totalCost cost (best ∩ (conflictSet \ enforced) ∪ conflictSet ∩ enforced) := by
          refine cost_mono nonneg fun x member => ?_
          simp only [mem_inter, mem_union, mem_sdiff] at member ⊢
          tauto
      _ ≤ totalCost cost (best ∩ (conflictSet \ enforced)) +
            totalCost cost (conflictSet ∩ enforced) := cost_union nonneg _ _
      _ ≤ totalCost cost (option ∩ (conflictSet \ enforced)) +
            totalCost cost (conflictSet ∩ enforced) :=
          Int.add_le_add_right (optimal_choice_cost found nonneg fits choice) _
      _ = totalCost cost (option ∩ (conflictSet \ enforced) ∪ conflictSet ∩ enforced) :=
          (Finset.sum_union separate).symm
      _ ≤ totalCost cost rejected := cost_mono nonneg (Finset.union_subset chosen forced)

end Minimal

section Samples

/-- Item 1 conflicts with items 2 and 9. -/
def sharedConflict : RelationMap Nat :=
  mapOf {1, 2, 9} fun k => if k = 1 then {2, 9} else {1}

def sampleCost (d : Nat) : Int64 := if d = 1 then 10 else if d = 2 then 1 else 0

theorem sole_rejection : Resolves {1, 2} {9} ∅ sharedConflict ∅ {1} := by
  have accepted {x : Nat} (mem : x ∈ ({1, 2} : Finset Nat) \ {1}) : x = 2 := by
    revert x
    decide
  refine ⟨by decide, fun x left y right => ?_, fun x _ y _ depends => ?_, fun x left f final => ?_⟩
  · rw [accepted left, accepted right]
    decide
  · obtain ⟨_, _, edge⟩ := Relation.TransGen.tail'_iff.mp depends
    exact absurd (key_of_related edge) (by simp)
  · rw [accepted left, Finset.mem_singleton.mp final]
    decide

/-- Item 1 is rejected because of the final item 9, but its cost speaks for an option that rejects
item 2 as well. -/
theorem rejected_item_counted_again : (resolveConflictSet {1, 2} {9} ∅ sampleCost sharedConflict ∅
      (∅ : Finmap fun _ : Nat => Balances Nat) ∅).2 = {1, 2, 9} ∧
    Resolves {1, 2} {9} ∅ sharedConflict ∅ {1} ∧
    totalCost sampleCost {1} < totalCost sampleCost ({1, 2} ∩ {1, 2, 9}) :=
  ⟨by decide, sole_rejection, by decide⟩

/-- Items 1 and 2 conflict, and items 3 and 9. -/
def pairedConflict : RelationMap Nat :=
  mapOf {1, 2, 3, 9} fun k => if k = 1 then {2} else if k = 2 then {1} else if k = 3 then {9} else {3}

def pairedCost (d : Nat) : Int64 := if d = 2 then 1 else 10

theorem paired_symmetric (x y : Nat) (conflict : y ∈ related pairedConflict x) :
    x ∈ related pairedConflict y := by
  have every : ∀ x ∈ pairedConflict.keys, ∀ y ∈ related pairedConflict x,
      x ∈ related pairedConflict y := by decide
  exact every x (key_of_related conflict) y conflict

/-- Item 3 is rejected because of item 9, apart from the choice between items 1 and 2. -/
theorem paired_choice : FreeChoice {1, 2, 3} {9} ∅ pairedCost pairedConflict ∅ := by
  have inside : ∀ k ∈ pairedConflict.keys, related pairedConflict k ⊆ {1, 2, 3} ∪ ({9} ∪ ∅) := by
    decide
  have apart : ∀ k ∈ pairedConflict.keys, ∀ x ∈ withDependencies (related pairedConflict k) ∅,
      (x ∈ pairedConflict.keys → (x ∈ ({3, 9} : Finset Nat) ↔ k ∈ ({3, 9} : Finset Nat))) ∧
      (pairedCost x = 0 ∨ (k ∉ ({3, 9} : Finset Nat) ↔
        x ∈ choices {1, 2, 3} {9} ∅ pairedConflict ∅)) := by
    decide
  refine ⟨fun k x conflict => inside k (key_of_related conflict) conflict, by decide,
    {3, 9}, fun k x mem => ?_⟩
  obtain ⟨_, conflict, _⟩ := mem_with_dependencies.mp mem
  exact apart k (key_of_related conflict) x mem

/-- Of two items in conflict the cheaper one is rejected. -/
theorem cheaper_item_rejected : (resolveConflictSet {1, 2, 3} {9} ∅ pairedCost pairedConflict ∅
      (∅ : Finmap fun _ : Nat => Balances Nat) ∅).2 = {2, 3} ∧
    ∀ rejected, Resolves {1, 2, 3} {9} ∅ pairedConflict ∅ rejected →
      totalCost pairedCost {2, 3} ≤ totalCost pairedCost rejected := by
  have result : (resolveConflictSet {1, 2, 3} {9} ∅ pairedCost pairedConflict ∅
      (∅ : Finmap fun _ : Nat => Balances Nat) ∅).2 = {2, 3} := by decide
  have nonneg (d : Nat) : 0 ≤ pairedCost d := by
    unfold pairedCost
    split_ifs <;> decide
  have minimum := (rejection_has_minimum_cost (∅ : Finmap fun _ : Nat => Balances Nat) ∅
    paired_symmetric (fun d => by rw [Finmap.lookup_empty]; rfl) nonneg (by decide)
    paired_choice).2
  refine ⟨result, fun rejected resolves => ?_⟩
  have bound := minimum rejected resolves
  rw [result] at bound
  exact bound

end Samples

end RChain.Sdk
