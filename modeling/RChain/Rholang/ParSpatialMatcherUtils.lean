import Mathlib.Data.List.Nodup
import RChain.Rholang.Accounting

/-!
# Subset enumeration of the spatial matcher

Source: `rholang/src/matcher/par_spatial_matcher_utils.rs`.

A split of a list is described by a mask with one flag for each position: what is chosen and
what is left, both in their order. Sizes are `Int`; none leaves the range of the source's `i32`.
-/

namespace RChain.Rholang

open List Function

variable {A : Type}

def maxSubsetItems : Nat := 20

def countedMaxSubsets (maxSize : Int) : List A → List (List A × List A × Int)
  | [] => [([], [], 0)]
  | head :: rem => ([], head :: rem, 0) :: (countedMaxSubsets maxSize rem).flatMap
      fun (tail, complement, count) =>
        if count = maxSize then [(tail, head :: complement, count)]
        else if tail.isEmpty then [(head :: tail, complement, 1)]
        else [(tail, head :: complement, count), (head :: tail, complement, count + 1)]

def worker (items : List A) (minSize maxSize : Int) : List (List A × List A × Int) :=
  if maxSize < 0 ∨ maxSize < minSize then []
  else if minSize ≤ 0 then
    if maxSize = 0 then [([], items, 0)] else countedMaxSubsets maxSize items
  else match items with
    | [] => []
    | head :: rem => (worker rem (minSize - 1) maxSize).flatMap fun (tail, complement, count) =>
        if count = maxSize then [(tail, head :: complement, count)]
        else if count = minSize - 1 then [(head :: tail, complement, minSize)]
        else [(tail, head :: complement, count), (head :: tail, complement, count + 1)]

def minMaxSubsets (items : List A) (minSize maxSize : Int) :
    Except RholangError (List (List A × List A)) :=
  if maxSubsetItems < items.length then
    .error (.reduceError
      s!"spatial match subset enumeration too large: {items.length} items exceeds limit 20")
  else .ok ((worker items minSize maxSize).map fun (sub, comp, _) => (sub, comp))

def chosen (mask : List Bool) (items : List A) : List A :=
  ((mask.zip items).filter (·.1)).map (·.2)

/-- The complement of the chosen items. -/
def remaining (mask : List Bool) (items : List A) : List A :=
  ((mask.zip items).filter (!·.1)).map (·.2)

def Masks (items : List A) (least most : Int) (masks : List (List Bool)) : Prop :=
  masks.Nodup ∧ ∀ mask, mask ∈ masks ↔
    mask.length = items.length ∧ least ≤ mask.count true ∧ mask.count true ≤ most

def splitBy (items : List A) (mask : List Bool) : List A × List A × Int :=
  (chosen mask items, remaining mask items, mask.count true)

/-- The masks of one position more, within the bounds. -/
def extended (least most : Int) (masks : List (List Bool)) : List (List Bool) :=
  (masks.flatMap fun mask => [false :: mask, true :: mask]).filter
    fun mask => least ≤ mask.count true ∧ mask.count true ≤ most

/-- Splits that come each from one mask within the bounds, and from every such mask once. -/
def Exact (items : List A) (least most : Int) (splits : List (List A × List A × Int)) : Prop :=
  ∃ masks, Masks items least most masks ∧ splits = masks.map (splitBy items)

variable {items rem : List A} {least most : Int} {masks : List (List Bool)} {mask : List Bool}

theorem chosen_length (same : mask.length = items.length) :
    (chosen mask items).length = mask.count true := by
  induction mask generalizing items with
  | nil => rfl
  | cons flag mask ih =>
    cases items with
    | nil => cases same
    | cons item items =>
      have rest := ih (Nat.succ.inj same)
      cases flag <;> simpa [chosen] using rest

theorem masks_extended (least : Int) (head : A)
    (listing : Masks rem (least - 1) most masks) :
    Masks (head :: rem) least most (extended least most masks) := by
  constructor
  · apply Nodup.filter
    rw [nodup_flatMap]
    refine ⟨fun mask _ => by simp, listing.1.imp fun {left right} differ => ?_⟩
    simp [onFun, Ne.symm differ]
  · intro mask
    simp only [extended, mem_filter, mem_flatMap, mem_cons, not_mem_nil, or_false, listing.2,
      decide_eq_true_eq, length_cons]
    constructor
    · rintro ⟨⟨rest, ⟨length, _⟩, rfl | rfl⟩, bounds⟩ <;> exact ⟨by simp [length], bounds⟩
    · rintro ⟨length, bounds⟩
      cases mask with
      | nil => cases length
      | cons flag rest =>
        refine ⟨⟨rest, ⟨Nat.succ.inj length, ?_⟩, by cases flag <;> simp⟩, bounds⟩
        cases flag <;> simp at bounds <;> omega

theorem counted_none (items : List A) :
    splitBy items (replicate items.length false) = ([], items, 0) := by
  induction items with
  | nil => rfl
  | cons item items ih =>
    simp only [splitBy, Prod.mk.injEq] at ih
    simp [splitBy, replicate_succ, chosen, remaining] at ih ⊢
    exact ih

theorem none_chosen_iff : mask.length = items.length ∧ mask.count true = 0 ↔
    mask = replicate items.length false := by
  rw [eq_replicate_iff, count_eq_zero]
  refine and_congr_right fun _ => ⟨fun absent flag mem => ?_, fun all mem => ?_⟩
  · cases flag with
    | false => rfl
    | true => exact absurd mem absent
  · exact Bool.noConfusion (all true mem)

/-- What the loop of `worker` makes of the splits of one item less. -/
theorem extended_counted (least : Int) (head : A) (bounds : least ≤ most)
    (listing : Masks rem (least - 1) most masks) :
    ((masks.map (splitBy rem)).flatMap fun (tail, complement, count) =>
        if count = most then [(tail, head :: complement, count)]
        else if count = least - 1 then [(head :: tail, complement, least)]
        else [(tail, head :: complement, count), (head :: tail, complement, count + 1)]) =
      (extended least most masks).map (splitBy (head :: rem)) := by
  rw [extended, flatMap_map, filter_flatMap, map_flatMap]
  refine flatMap_congr fun mask mem => ?_
  obtain ⟨_, low, high⟩ := (listing.2 mask).mp mem
  have without : splitBy (head :: rem) (false :: mask) =
      (chosen mask rem, head :: remaining mask rem, (mask.count true : Int)) := by
    simp [splitBy, chosen, remaining]
  have taken : splitBy (head :: rem) (true :: mask) =
      (head :: chosen mask rem, remaining mask rem, (mask.count true : Int) + 1) := by
    simp [splitBy, chosen, remaining]
  dsimp only [splitBy, comp_apply]
  rw [filter_cons, filter_cons, filter_nil, count_cons_self, count_cons_of_ne (by decide)]
  split_ifs <;> simp_all <;> omega

theorem counted_max_subsets_exact (positive : 0 < most) (items : List A) :
    Exact items 0 most (countedMaxSubsets most items) := by
  induction items with
  | nil =>
    refine ⟨[[]], ⟨nodup_singleton _, fun mask => ?_⟩, rfl⟩
    rw [mem_singleton]
    constructor
    · rintro rfl
      exact ⟨rfl, le_rfl, positive.le⟩
    · rintro ⟨length, _⟩
      exact length_eq_zero_iff.mp length
  | cons head rem ih =>
    obtain ⟨masks, listing, same⟩ := ih
    have grown := masks_extended 1 head listing
    refine ⟨replicate (rem.length + 1) false :: _, ⟨nodup_cons.mpr ⟨fun mem => ?_, grown.1⟩,
      fun mask => ?_⟩, ?_⟩
    · simpa [count_replicate] using ((grown.2 _).mp mem).2.1
    · rw [mem_cons, grown.2]
      constructor
      · rintro (rfl | ⟨length, low, high⟩)
        · simp [count_replicate, positive.le]
        · exact ⟨length, by omega, high⟩
      · rintro ⟨length, _, high⟩
        rcases Nat.eq_zero_or_pos (mask.count true) with none | some
        · exact Or.inl (none_chosen_iff.mp ⟨length, none⟩)
        · exact Or.inr ⟨length, by omega, high⟩
    · rw [countedMaxSubsets, map_cons, ← extended_counted 1 head positive listing, same,
        show rem.length + 1 = (head :: rem).length from rfl, counted_none]
      congr 1
      refine flatMap_congr fun split mem => ?_
      obtain ⟨mask, listed, rfl⟩ := mem_map.mp mem
      have empty : (chosen mask rem).isEmpty ↔ (mask.count true : Int) = 1 - 1 := by
        rw [isEmpty_iff_length_eq_zero, chosen_length ((listing.2 mask).mp listed).1]
        omega
      exact if_congr Iff.rfl rfl (if_congr empty rfl rfl)

theorem worker_unbounded_below (low : least ≤ 0) (bound : 0 ≤ most) (items : List A) :
    Exact items least most (worker items least most) := by
  have weaker {masks} (listing : Masks items 0 most masks) : Masks items least most masks :=
    ⟨listing.1, fun mask => (listing.2 mask).trans (by omega)⟩
  have unfolded : worker items least most =
      if most = 0 then [([], items, 0)] else countedMaxSubsets most items := by
    rw [worker.eq_def, if_neg (by omega), if_pos low]
  rw [unfolded]
  split_ifs with zero
  · refine ⟨[replicate items.length false], weaker ⟨nodup_singleton _, fun mask => ?_⟩, ?_⟩
    · rw [mem_singleton, ← none_chosen_iff, zero]
      omega
    · rw [map_singleton, counted_none]
  · obtain ⟨masks, listing, same⟩ := counted_max_subsets_exact (by omega : 0 < most) items
    exact ⟨masks, weaker listing, same⟩

theorem worker_exact (ordered : least ≤ most) (bound : 0 ≤ most) (items : List A) :
    Exact items least most (worker items least most) := by
  induction items generalizing least with
  | nil =>
    by_cases low : least ≤ 0
    · exact worker_unbounded_below low bound []
    · refine ⟨[], ⟨nodup_nil, fun mask => ⟨nofun, fun fits => ?_⟩⟩, ?_⟩
      · rw [length_eq_zero_iff.mp fits.1] at fits
        exact absurd fits.2.1 low
      · rw [worker, if_neg (by omega), if_neg low, map_nil]
  | cons head rem ih =>
    by_cases low : least ≤ 0
    · exact worker_unbounded_below low bound _
    · obtain ⟨masks, listing, same⟩ := ih (show least - 1 ≤ most by omega)
      refine ⟨_, masks_extended least head listing, ?_⟩
      rw [← extended_counted least head ordered listing, worker, if_neg (by omega), if_neg low, same]

/-- Up to the limit, every choice of positions within the bounds is listed once, with what it
leaves; a longer list is refused. -/
theorem min_max_subsets_exact (items : List A) (minSize maxSize : Int) (nonneg : 0 ≤ minSize)
    (ordered : minSize ≤ maxSize) :
    if items.length ≤ maxSubsetItems then
      ∃ masks : List (List Bool), masks.Nodup ∧
        (∀ mask, mask ∈ masks ↔ mask.length = items.length ∧ minSize ≤ mask.count true ∧
          mask.count true ≤ maxSize) ∧
        minMaxSubsets items minSize maxSize =
          .ok (masks.map fun mask => (chosen mask items, remaining mask items))
    else ∃ message, minMaxSubsets items minSize maxSize = .error (.reduceError message) := by
  obtain ⟨masks, listing, same⟩ := worker_exact ordered (nonneg.trans ordered) items
  split_ifs with fits
  · refine ⟨masks, listing.1, listing.2, ?_⟩
    rw [minMaxSubsets, if_neg (by omega), same, map_map]
    rfl
  · exact ⟨_, if_pos (by omega)⟩

theorem pairs_of_three : ∃ masks : List (List Bool), masks.Nodup ∧
    (∀ mask, mask ∈ masks ↔ mask.length = 3 ∧ (2 : Int) ≤ mask.count true ∧
      (mask.count true : Int) ≤ 2) ∧
    minMaxSubsets [1, 2, 3] 2 2 =
      .ok (masks.map fun mask => (chosen mask [1, 2, 3], remaining mask [1, 2, 3])) :=
  min_max_subsets_exact [1, 2, 3] 2 2 (by decide) (by decide)

/-- Of twenty-one items not even the empty choice is listed. -/
theorem long_list_refused :
    ∃ message, minMaxSubsets (replicate 21 ()) 0 0 = .error (.reduceError message) :=
  ⟨_, rfl⟩

end RChain.Rholang
