import RChain.Models.Sorter

/-!
# Sorting twice

The sorted form of a term keeps its score, so sorting it again changes nothing.
-/

namespace RChain.Models

open BitCodec Container

theorem sort_par_mk (layer : Layer Par) : sortPar (.mk layer) = sortLayer (map sortPar layer) :=
  fold_mk sortLayer layer

theorem sort_by_score_sorted {T : Type} (xs : List (ScoredTerm T)) :
    sortByScore (sortByScore xs) = sortByScore xs :=
  (List.pairwise_insertionSort (fun a b : ScoredTerm T => a.score ≤ b.score) xs).insertionSort_eq

theorem sort_again {S T : Type} {sort : S → ScoredTerm T} {back : T → S} {xs : List S}
    (stable : ∀ x ∈ xs, sort (back (sort x).term) = sort x) :
    sortByScore ((((sortByScore (xs.map sort)).map ScoredTerm.term).map back).map sort) =
      sortByScore (xs.map sort) := by
  have again : (((sortByScore (xs.map sort)).map ScoredTerm.term).map back).map sort =
      sortByScore (xs.map sort) := by
    rw [List.map_map, List.map_map]
    refine (List.map_congr_left fun y mem => ?_).trans (List.map_id _)
    obtain ⟨x, within, rfl⟩ := List.mem_map.mp ((List.mem_insertionSort _).mp mem)
    exact stable x within
  rw [again, sort_by_score_sorted]

section Idempotent

variable {F : Type → Type} [Container F]

/-- The sorted form of a component is sorted again to itself. -/
def Stable (sort : F (ScoredTerm Par) → ScoredTerm (F Par)) (x : F (ScoredTerm Par)) : Prop :=
  sort (map sortPar (sort x).term) = sort x

theorem stable_of_term {sort : F (ScoredTerm Par) → ScoredTerm (F Par)} {x : F (ScoredTerm Par)}
    (kept : (sort x).term = map ScoredTerm.term x)
    (fixed : ∀ c ∈ children x, sortPar c.term = c) : Stable sort x := by
  have again : map sortPar (sort x).term = x := by
    rw [kept, map_map]
    exact map_fixed fixed
  rw [Stable, again]

theorem stable_components {sort : F (ScoredTerm Par) → ScoredTerm (F Par)}
    {xs : List (F (ScoredTerm Par))} (stable : ∀ x ∈ xs, Stable sort x) :
    sortByScore ((mapAll sortPar ((sortByScore (xs.map sort)).map ScoredTerm.term)).map sort) =
      sortByScore (xs.map sort) := sort_again stable

end Idempotent

theorem sort_receive_term (r : Receive (ScoredTerm Par)) :
    (sortReceive r).term = map ScoredTerm.term r := by
  unfold sortReceive
  dsimp only
  rw [List.map_map]
  rfl

theorem sort_match_term (m : Match (ScoredTerm Par)) :
    (sortMatch m).term = map ScoredTerm.term m := by
  unfold sortMatch
  dsimp only
  rw [List.map_map]
  rfl

theorem sort_expr_term (e : Expr (ScoredTerm Par)) : (sortExpr e).term = map ScoredTerm.term e := by
  cases e <;> rfl

theorem sort_connective_term (c : Connective (ScoredTerm Par)) :
    (sortConnective c).term = map ScoredTerm.term c := by
  cases c <;> rfl

/-- The `new` with its URIs in order. -/
def New.arranged {P : Type} (n : New P) : New P := { n with uri := n.uri.insertionSort (· ≤ ·) }

theorem uris_arranged (uris : List String) : (uris.insertionSort (· ≤ ·)).insertionSort (· ≤ ·) =
    uris.insertionSort (· ≤ ·) := (List.pairwise_insertionSort (· ≤ ·) uris).insertionSort_eq

theorem sort_new_arranged (n : New (ScoredTerm Par)) : sortNew n.arranged = sortNew n := by
  unfold sortNew New.arranged
  rw [uris_arranged]

theorem sort_new_term (n : New (ScoredTerm Par)) :
    (sortNew n).term = map ScoredTerm.term n.arranged := rfl

theorem sort_new_stable {n : New (ScoredTerm Par)} (fixed : ∀ c ∈ children n, sortPar c.term = c) :
    Stable sortNew n := by
  have again : map sortPar (sortNew n).term = n.arranged := by
    rw [sort_new_term, map_map]
    exact map_fixed fixed
  rw [Stable, again, sort_new_arranged]

theorem sort_layer_fixed {layer : Layer (ScoredTerm Par)}
    (fixed : ∀ c ∈ children layer, sortPar c.term = c) :
    sortPar (sortLayer layer).term = sortLayer layer := by
  simp only [children, List.forall_mem_append] at fixed
  obtain ⟨sends, receives, news, exprs, matches_, bundles, connectives⟩ := fixed
  have within {F : Type → Type} [Container F] {xs : List (F (ScoredTerm Par))}
      (below : ∀ c ∈ allChildren xs, sortPar c.term = c) :
      ∀ x ∈ xs, ∀ c ∈ children x, sortPar c.term = c := fun x mem c child =>
    below c (List.mem_flatMap.mpr ⟨x, mem, child⟩)
  have sends : ∀ x ∈ layer.sends, Stable sortSend x :=
    fun x mem => stable_of_term rfl (within sends x mem)
  have receives : ∀ x ∈ layer.receives, Stable sortReceive x :=
    fun x mem => stable_of_term (sort_receive_term x) (within receives x mem)
  have news : ∀ x ∈ layer.news, Stable sortNew x :=
    fun x mem => sort_new_stable (within news x mem)
  have exprs : ∀ x ∈ layer.exprs, Stable sortExpr x :=
    fun x mem => stable_of_term (sort_expr_term x) (within exprs x mem)
  have matches_ : ∀ x ∈ layer.matches_, Stable sortMatch x :=
    fun x mem => stable_of_term (sort_match_term x) (within matches_ x mem)
  have bundles : ∀ x ∈ layer.bundles, Stable sortBundle x :=
    fun x mem => stable_of_term rfl (within bundles x mem)
  have connectives : ∀ x ∈ layer.connectives, Stable sortConnective x :=
    fun x mem => stable_of_term (sort_connective_term x) (within connectives x mem)
  have kept : ∀ x ∈ layer.unforgeables,
      sortUnforgeable (id (sortUnforgeable x).term) = sortUnforgeable x := fun _ _ => rfl
  have unforgeables := sort_again kept
  rw [List.map_id] at unforgeables
  rw [sortLayer]
  dsimp only
  rw [sort_par_mk, sortLayer]
  dsimp only [map]
  rw [stable_components sends, stable_components receives, stable_components news,
    stable_components exprs, stable_components matches_, stable_components bundles,
    stable_components connectives, unforgeables]

theorem sort_par_sorted (p : Par) : sortPar (sortPar p).term = sortPar p := by
  induction p using Par.induct with
  | step _ ih =>
    rw [sort_par_mk]
    refine sort_layer_fixed fun c mem => ?_
    rw [children_map] at mem
    obtain ⟨child, within, rfl⟩ := List.mem_map.mp mem
    exact ih child within

/-- Canonicalization is idempotent. -/
theorem sort_par_term_idempotent (p : Par) : sortParTerm (sortParTerm p) = sortParTerm p :=
  congrArg ScoredTerm.term (sort_par_sorted p)

end RChain.Models
