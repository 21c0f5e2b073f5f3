import RChain.Sdk.ConflictResolution

/-!
# Branches of dependent items

A root that is folded into the branches above it brings the items that depend on it
directly, as the map had them at the start, and not those that its own branch has gathered.
So a branch holds what one pass over the roots in order finds; an item that needs a second
pass is in no branch.
-/

namespace RChain.Sdk

open Reach Sorted List
open Finset (mem_filter mem_insert mem_union notMem_empty)

variable {D : Type} [LinearOrder D]

variable {g : RelationMap D}

variable (g) in
/-- A root that has been found brings its direct dependents. -/
def absorb (found : Finset D) (root : D) : Finset D :=
  if root ∈ found then found ∪ insert root (related g root) else found

variable (g) in
/-- What one pass over the roots, in order, finds from the direct dependents of an item. -/
def onePass (start : D) : Finset D := (elements g.keys).foldl (absorb g) (related g start)

theorem absorbed_cases (roots : List D) (found : Finset D) {x : D}
    (mem : x ∈ roots.foldl (absorb g) found) : x ∈ found ∨ ∃ root ∈ roots, x ∈ related g root := by
  induction roots generalizing found with
  | nil => exact .inl mem
  | cons root _ ih =>
    rw [foldl_cons] at mem
    rcases ih _ mem with early | ⟨later, among, edge⟩
    · unfold absorb at early
      split_ifs at early with isFound
      · rcases mem_union.mp early with before | merged
        · exact .inl before
        · rcases mem_insert.mp merged with rfl | edge
          · exact .inl isFound
          · exact .inr ⟨root, mem_cons_self .., edge⟩
      · exact .inl early
    · exact .inr ⟨later, mem_cons_of_mem _ among, edge⟩

theorem one_pass_values (start : D) : onePass g start ⊆ valuesOf g := by
  intro _ mem
  rcases absorbed_cases _ _ mem with direct | ⟨root, _, edge⟩
  · exact related_subset_values g start direct
  · exact related_subset_values g root edge

section Fold

variable {acc : RelationMap D} {root : D} {k : D}

theorem related_erase_ne (different : k ≠ root) : related (acc.erase root) k = related acc k := by
  rw [related, Finmap.lookup_erase_ne different, related]

theorem related_fold_root (different : k ≠ root) :
    related (foldRoot g acc root) k = absorb g (related acc k) root := by
  unfold foldRoot absorb
  dsimp only
  split_ifs with alone held held
  · have listed : k ∈ acc.keys.filter fun k => root ∈ related acc k :=
      mem_filter.mpr ⟨key_of_related held, held⟩
    rw [alone] at listed
    exact absurd listed (notMem_empty k)
  · rfl
  · rw [related_extend_all, if_pos, related_erase_ne different]
    exact mem_elements.mpr (mem_filter.mpr ⟨key_of_related held, held⟩)
  · rw [related_extend_all, if_neg, related_erase_ne different]
    intro listed
    exact held (mem_filter.mp (mem_elements.mp listed)).2

theorem fold_root_alone (alone : ∀ k, root ∉ related acc k) : foldRoot g acc root = acc := by
  unfold foldRoot
  dsimp only
  rw [if_pos]
  apply Finset.filter_eq_empty_iff.mpr
  intro k _
  exact alone k

theorem fold_root_removed (held : root ∈ related acc k) (apart : root ∉ related acc root) :
    root ∉ (foldRoot g acc root).keys := by
  unfold foldRoot
  dsimp only
  rw [if_neg, keys_extend_all, to_finset_elements, mem_union, not_or]
  · constructor
    · intro listed
      exact apart (mem_filter.mp listed).2
    · rw [Finmap.mem_keys, Finmap.mem_erase]
      intro stays
      exact stays.1 rfl
  · intro alone
    have listed : k ∈ acc.keys.filter fun k => root ∈ related acc k :=
      mem_filter.mpr ⟨key_of_related held, held⟩
    rw [alone] at listed
    exact notMem_empty k listed

theorem fold_root_keys (different : k ≠ root) : k ∈ (foldRoot g acc root).keys ↔ k ∈ acc.keys := by
  unfold foldRoot
  dsimp only
  split_ifs with alone
  · rfl
  · rw [keys_extend_all, to_finset_elements, mem_union, Finmap.mem_keys, Finmap.mem_erase]
    constructor
    · rintro (listed | ⟨_, present⟩)
      · exact (mem_filter.mp listed).1
      · exact Finmap.mem_keys.mpr present
    · intro isKey
      exact .inr ⟨different, Finmap.mem_keys.mp isKey⟩

end Fold

theorem related_or_insert (items : List D) (m : RelationMap D) (k : D) :
    related (items.foldl (fun acc t => if t ∈ acc then acc else acc.insert t ∅) m) k =
      related m k := by
  induction items generalizing m with
  | nil => rfl
  | cons item _ ih =>
    rw [foldl_cons, ih]
    split_ifs with present
    · rfl
    · by_cases here : k = item
      · subst here
        rw [related_insert_self, related, Finmap.lookup_eq_none.mpr present]
        rfl
      · exact related_insert_ne m ∅ here

end RChain.Sdk
