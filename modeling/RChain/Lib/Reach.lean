import Mathlib.Data.Finset.Card
import Mathlib.Data.Finset.Union
import RChain.Lib.Sorted

/-!
# What can be reached from a finite set

Two searches over a graph whose successors are finite sets. `expand` remembers what it has
found and so closes a set under successors in any graph; `layers` walks layer by layer
without a memory and visits everything that can be reached if the graph has no cycle. Both
carry fuel, and a number of rounds that suffices is proved for each.
-/

namespace Reach

open Relation List Finset

variable {D : Type*} (step : D → Finset D)

/-- `y` can be reached from `x`. -/
abbrev Reaches (x y : D) : Prop := ReflTransGen (fun a b => b ∈ step a) x y

def Closed (s : Finset D) : Prop := ∀ x ∈ s, step x ⊆ s

def Acyclic : Prop := ∀ x, ¬ TransGen (fun a b => b ∈ step a) x x

variable {step}

theorem closed_reaches {s : Finset D} (closed : Closed step s) {x y : D} (mem : x ∈ s)
    (reached : Reaches step x y) : y ∈ s := by
  induction reached with
  | refl => exact mem
  | tail _ next ih => exact closed _ ih next

theorem closed_union [DecidableEq D] {s t : Finset D} (left : Closed step s)
    (right : Closed step t) : Closed step (s ∪ t) := by
  intro x mem
  rcases mem_union.mp mem with inLeft | inRight
  · exact (left x inLeft).trans subset_union_left
  · exact (right x inRight).trans subset_union_right

theorem acyclic_of_lt [Preorder D] (ascends : ∀ x, ∀ y ∈ step x, x < y) : Acyclic step := by
  intro x cycle
  have below (y : D) (path : TransGen (fun a b => b ∈ step a) x y) : x < y := by
    induction path with
    | single edge => exact ascends x _ edge
    | tail _ edge ih => exact ih.trans (ascends _ _ edge)
  exact lt_irrefl x (below x cycle)

section Expand

variable [DecidableEq D] (step)

/-- Add the successors of the frontier until there is none left to add. -/
def expand : Nat → Finset D → Finset D → Finset D
  | 0, result, _ => result
  | fuel + 1, result, frontier =>
    let new := frontier.biUnion step \ result
    if new = ∅ then result else expand fuel (result ∪ new) new

variable {step}

theorem subset_expand (fuel : Nat) (result frontier : Finset D) :
    result ⊆ expand step fuel result frontier := by
  induction fuel generalizing result frontier with
  | zero => exact Finset.Subset.refl _
  | succ _ ih =>
    unfold expand
    dsimp only
    split_ifs
    · exact Finset.Subset.refl _
    · exact subset_union_left.trans (ih _ _)

theorem expand_reaches (fuel : Nat) (result frontier : Finset D)
    (inside : frontier ⊆ result) {y : D} (found : y ∈ expand step fuel result frontier) :
    ∃ x ∈ result, Reaches step x y := by
  induction fuel generalizing result frontier with
  | zero => exact ⟨y, found, ReflTransGen.refl⟩
  | succ _ ih =>
    unfold expand at found
    dsimp only at found
    split_ifs at found with done
    · exact ⟨y, found, ReflTransGen.refl⟩
    · obtain ⟨x, mem, reached⟩ := ih _ _ subset_union_right found
      rcases mem_union.mp mem with old | new
      · exact ⟨x, old, reached⟩
      · obtain ⟨z, edge, next⟩ := mem_biUnion.mp (mem_sdiff.mp new).1
        exact ⟨z, inside edge, ReflTransGen.head next reached⟩

theorem expand_closed (items : Finset D) (successors : ∀ x, step x ⊆ items) (fuel : Nat)
    (result frontier : Finset D) (done : ∀ x ∈ result, x ∉ frontier → step x ⊆ result)
    (enough : (items \ result).card < fuel) : Closed step (expand step fuel result frontier) := by
  induction fuel generalizing result frontier with
  | zero => omega
  | succ _ ih =>
    unfold expand
    dsimp only
    split_ifs with finished
    · intro x mem y edge
      by_cases atFrontier : x ∈ frontier
      · by_contra missing
        have left : y ∈ frontier.biUnion step \ result :=
          mem_sdiff.mpr ⟨mem_biUnion.mpr ⟨x, atFrontier, edge⟩, missing⟩
        rw [finished] at left
        exact notMem_empty y left
      · exact done x mem atFrontier edge
    · apply ih
      · intro x mem old y edge
        have known : x ∈ result := by
          rcases mem_union.mp mem with before | new
          · exact before
          · exact absurd new old
        by_cases present : y ∈ result
        · exact mem_union_left _ present
        · by_cases atFrontier : x ∈ frontier
          · exact mem_union_right _ (mem_sdiff.mpr ⟨mem_biUnion.mpr ⟨x, atFrontier, edge⟩, present⟩)
          · exact absurd (done x known atFrontier edge) present
      · obtain ⟨y, new⟩ := nonempty_iff_ne_empty.mpr finished
        obtain ⟨found, fresh⟩ := mem_sdiff.mp new
        obtain ⟨x, _, edge⟩ := mem_biUnion.mp found
        have smaller : (items \ (result ∪ (frontier.biUnion step \ result))).card <
            (items \ result).card := by
          apply card_lt_card
          refine ssubset_iff_of_subset ?_ |>.mpr ⟨y, ?_, ?_⟩
          · exact sdiff_subset_sdiff (Finset.Subset.refl _) subset_union_left
          · exact mem_sdiff.mpr ⟨successors x edge, fresh⟩
          · intro outside
            exact (mem_sdiff.mp outside).2 (mem_union_right _ new)
        omega

theorem mem_expand (items : Finset D) (successors : ∀ x, step x ⊆ items) {s : Finset D}
    {fuel : Nat} (enough : items.card < fuel) {y : D} :
    y ∈ expand step fuel s s ↔ ∃ x ∈ s, Reaches step x y := by
  constructor
  · exact expand_reaches fuel s s (Finset.Subset.refl _)
  · rintro ⟨_, mem, reached⟩
    have fewer : (items \ s).card < fuel :=
      (card_le_card sdiff_subset).trans_lt enough
    have closed := expand_closed items successors fuel s s
      (fun _ inside outside => absurd inside outside) fewer
    exact closed_reaches closed (subset_expand fuel s s mem) reached

end Expand

section Layers

variable [LinearOrder D] (step)

/-- The frontier in order, then its successors, until there are none. -/
def layers : Nat → Finset D → List D
  | 0, _ => []
  | fuel + 1, frontier =>
    if frontier = ∅ then []
    else Sorted.elements frontier ++ layers fuel (frontier.biUnion step)

variable {step}

theorem layers_reach (fuel : Nat) (frontier : Finset D) {y : D}
    (visited : y ∈ layers step fuel frontier) : ∃ x ∈ frontier, Reaches step x y := by
  induction fuel generalizing frontier with
  | zero => cases visited
  | succ _ ih =>
    unfold layers at visited
    split_ifs at visited
    · cases visited
    · rcases mem_append.mp visited with here | below
      · exact ⟨y, Sorted.mem_elements.mp here, ReflTransGen.refl⟩
      · obtain ⟨_, edge, reached⟩ := ih _ below
        obtain ⟨x, mem, next⟩ := mem_biUnion.mp edge
        exact ⟨x, mem, ReflTransGen.head next reached⟩

theorem path_in_layers (path : List D) (x : D) (fuel : Nat) (frontier : Finset D)
    (mem : x ∈ frontier) (chained : List.IsChain (fun a b => b ∈ step a) (x :: path))
    (short : path.length < fuel) :
    (x :: path).getLast (List.cons_ne_nil x path) ∈ layers step fuel frontier := by
  induction path generalizing x fuel frontier with
  | nil =>
    cases fuel with
    | zero => cases short
    | succ =>
      unfold layers
      rw [if_neg (ne_empty_of_mem mem)]
      exact mem_append_left _ (Sorted.mem_elements.mpr mem)
  | cons y path ih =>
    cases fuel with
    | zero => cases short
    | succ fuel =>
      rw [isChain_cons_cons] at chained
      unfold layers
      rw [if_neg (ne_empty_of_mem mem), getLast_cons (cons_ne_nil y path)]
      apply mem_append_right
      exact ih y fuel _ (mem_biUnion.mpr ⟨x, mem, chained.1⟩) chained.2
        (Nat.lt_of_succ_lt_succ short)

theorem path_length_le (acyclic : Acyclic step) {items : Finset D}
    (successors : ∀ x, step x ⊆ items) {x : D} {path : List D}
    (chained : List.IsChain (fun a b => b ∈ step a) (x :: path)) :
    path.length ≤ items.card := by
  have transitive : List.IsChain (TransGen fun a b => b ∈ step a) (x :: path) :=
    chained.imp fun _ _ edge => TransGen.single edge
  have pairs := isChain_iff_pairwise.mp transitive
  have distinct : path.Nodup := by
    refine (pairwise_cons.mp pairs).2.imp fun related same => ?_
    subst same
    exact acyclic _ related
  have among : path.toFinset ⊆ items := by
    intro y mem
    obtain ⟨z, edge⟩ := (pairwise_cons.mp pairs).1 y (mem_toFinset.mp mem)
      |> TransGen.tail'_iff.mp
    exact successors z edge.2
  calc path.length = path.toFinset.card := (toFinset_card_of_nodup distinct).symm
    _ ≤ items.card := card_le_card among

theorem mem_layers (acyclic : Acyclic step) {items : Finset D}
    (successors : ∀ x, step x ⊆ items) {fuel : Nat} (enough : items.card < fuel)
    {frontier : Finset D} {y : D} :
    y ∈ layers step fuel frontier ↔ ∃ x ∈ frontier, Reaches step x y := by
  constructor
  · exact layers_reach fuel frontier
  · rintro ⟨x, mem, reached⟩
    obtain ⟨path, chained, last⟩ := exists_isChain_cons_of_relationReflTransGen reached
    have short := path_length_le acyclic successors chained
    rw [← last]
    exact path_in_layers path x fuel frontier mem chained (by omega)

end Layers

end Reach
