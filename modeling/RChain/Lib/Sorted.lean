import Mathlib.Data.Finset.Dedup
import Mathlib.Data.List.Sort

/-!
# Sorting

An ordered set that is iterated visits its elements in ascending order. The list is
computed by insertion, so that it can be evaluated.
-/

namespace Sorted

open List

variable {D : Type*} [LinearOrder D]

theorem insertion_sort_eq_of_perm {left right : List D} (perm : left.Perm right) :
    left.insertionSort (· ≤ ·) = right.insertionSort (· ≤ ·) := by
  refine List.Perm.eq_of_pairwise ?_ (pairwise_insertionSort _ left)
    (pairwise_insertionSort _ right) ?_
  · intro _ _ _ _ below above
    exact le_antisymm below above
  · exact ((perm_insertionSort _ left).trans perm).trans (perm_insertionSort _ right).symm

def elements (s : Finset D) : List D :=
  Quotient.liftOn s.val (fun items => items.insertionSort (· ≤ ·))
    fun _ _ perm => insertion_sort_eq_of_perm perm

@[simp]
theorem mem_elements {s : Finset D} {x : D} : x ∈ elements s ↔ x ∈ s := by
  obtain ⟨items, _⟩ := s
  induction items using Quotient.inductionOn with
  | h items => exact (perm_insertionSort _ items).mem_iff

theorem elements_sorted (s : Finset D) : (elements s).Pairwise (· ≤ ·) := by
  obtain ⟨items, _⟩ := s
  induction items using Quotient.inductionOn with
  | h items => exact pairwise_insertionSort _ items

theorem elements_nodup (s : Finset D) : (elements s).Nodup := by
  obtain ⟨items, nodup⟩ := s
  induction items using Quotient.inductionOn with
  | h items => exact (perm_insertionSort _ items).nodup_iff.mpr nodup

theorem elements_to_finset_eq_iff {items : List D} :
    elements items.toFinset = items ↔ items.Pairwise (· < ·) := by
  constructor
  · intro same
    have sorted := elements_sorted items.toFinset
    have distinct := elements_nodup items.toFinset
    rw [same] at sorted distinct
    exact (sorted.and distinct).imp fun both => lt_of_le_of_ne both.1 both.2
  · intro ascending
    have distinct : items.Nodup := ascending.imp fun below => ne_of_lt below
    refine List.Perm.eq_of_pairwise (fun a b _ _ below above => le_antisymm below above)
      (elements_sorted _) (ascending.imp fun below => le_of_lt below) ?_
    rw [perm_ext_iff_of_nodup (elements_nodup _) distinct]
    intro _
    rw [mem_elements, mem_toFinset]

theorem filter_elements_congr {s t : Finset D} {p q : D → Bool}
    (same : ∀ x, x ∈ s ∧ p x ↔ x ∈ t ∧ q x) : (elements s).filter p = (elements t).filter q := by
  refine List.Perm.eq_of_pairwise (fun a b _ _ below above => le_antisymm below above)
    ((elements_sorted s).filter p) ((elements_sorted t).filter q) ?_
  rw [perm_ext_iff_of_nodup ((elements_nodup s).filter p) ((elements_nodup t).filter q)]
  intro x
  rw [mem_filter, mem_filter, mem_elements, mem_elements]
  exact same x

theorem elements_length_le (items : List D) : (elements items.toFinset).length ≤ items.length := by
  have subset : (elements items.toFinset).Subperm items :=
    subperm_of_subset (elements_nodup _) fun item mem => by simpa using mem
  exact subset.length_le

end Sorted
