import RChain.Models.Canonical
import RChain.Models.Wire

/-!
# The identity of sorted terms

Source: `models/src/sorted.rs`.

Sorted terms compare without their locally-free sets; their bytes, and the hash of these, have
them. The bytes of a message are given by any encoding of messages that tells them apart.
-/

namespace RChain.Models

open Container

section Free

variable {P Q : Type}

def Expr.free : Expr P → BitSet
  | .eList list => list.locallyFree
  | .eTuple tuple => tuple.locallyFree
  | .eSet set => set.locallyFree
  | .eMap map => map.locallyFree
  | .eMethod method => method.locallyFree
  | _ => []

/-- The locally-free sets of a process and of its parts, without those of the subterms. -/
def Layer.freeSets (layer : Layer P) :
    BitSet × List BitSet × List BitSet × List BitSet × List BitSet × List BitSet :=
  (layer.locallyFree, layer.sends.map (·.locallyFree), layer.receives.map (·.locallyFree),
    layer.news.map (·.locallyFree), layer.exprs.map Expr.free, layer.matches_.map (·.locallyFree))

/-- The locally-free sets of two terms are the same at every place. -/
def Par.sameFree : Par → Par → Bool :=
  Par.fold fun layer q =>
    decide (layer.freeSets = q.layer.freeSets) && accept (children layer) (children q.layer)

theorem free_sets_map (f : P → Q) (layer : Layer P) :
    (Container.map f layer).freeSets = layer.freeSets := by
  have exprs (e : Expr P) : (e.map f).free = e.free := by cases e <;> rfl
  simp only [Layer.freeSets, Container.map, mapAll, List.map_map, Function.comp_def, exprs]

theorem same_free_mk (layer other : Layer Par) : (Par.mk layer).sameFree (.mk other) = true ↔
    layer.freeSets = other.freeSets ∧
      accept ((children layer).map Par.sameFree) (children other) = true := by
  rw [Par.sameFree, fold_mk, Bool.and_eq_true, decide_eq_true_eq, free_sets_map, children_map,
    ← Par.sameFree]
  rfl

theorem same_free_refl (p : Par) : p.sameFree p = true := by
  have all (ps : List Par) (same : ∀ p ∈ ps, p.sameFree p = true) :
      accept (ps.map Par.sameFree) ps = true := by
    induction ps with
    | nil => rfl
    | cons p _ ih =>
      rw [List.map_cons, accept, same p List.mem_cons_self,
        ih fun p mem => same p (List.mem_cons_of_mem _ mem), Bool.and_self]
  induction p using Par.induct with
  | step layer ih => exact (same_free_mk layer layer).mpr ⟨rfl, all _ ih⟩

theorem shape_map_free (g : BitSet → BitSet) (layer : Layer P) :
    shape (layer.mapFree g) = (shape layer).mapFree g := by
  have exprs (e : Expr P) : (e.mapFree g).map (fun _ => ()) = (e.map fun _ => ()).mapFree g := by
    cases e <;> rfl
  simp only [shape, Layer.mapFree, Container.map, mapAll, List.map_map, Function.comp_def, exprs]

theorem children_map_free (g : BitSet → BitSet) (layer : Layer P) :
    children (layer.mapFree g) = children layer := by
  have exprs (e : Expr P) : children (e.mapFree g) = children e := by cases e <;> rfl
  simp only [Layer.mapFree, children, allChildren, List.flatMap_map]
  simp only [children] at exprs
  simp only [exprs]

theorem ext_of_maps {A B C : Type} {f : A → B} {g : A → C} {xs ys : List A}
    (injective : Function.Injective fun x => (f x, g x)) (first : xs.map f = ys.map f)
    (second : xs.map g = ys.map g) : xs = ys := by
  apply List.map_injective_iff.mpr injective
  rw [← List.zip_map', ← List.zip_map', first, second]

theorem expr_free_injective :
    Function.Injective fun e : Expr P => (e.mapFree (fun _ => []), e.free) := by
  intro x y same
  obtain ⟨bare, sets⟩ := Prod.mk.inj same
  cases x <;> cases y <;> first
    | exact bare
    | cases bare
    | (rename_i x y
       cases x
       cases y
       simp_all [Expr.free])

theorem layer_ext {layer other : Layer P}
    (bare : layer.mapFree (fun _ => []) = other.mapFree fun _ => [])
    (sets : layer.freeSets = other.freeSets) : layer = other := by
  cases layer
  cases other
  simp only [Layer.mapFree, Layer.freeSets, Layer.mk.injEq, Prod.mk.injEq] at bare sets ⊢
  refine ⟨ext_of_maps ?_ bare.1 sets.2.1, ext_of_maps ?_ bare.2.1 sets.2.2.1,
    ext_of_maps ?_ bare.2.2.1 sets.2.2.2.1, ext_of_maps ?_ bare.2.2.2.1 sets.2.2.2.2.1,
    ext_of_maps ?_ bare.2.2.2.2.1 sets.2.2.2.2.2, bare.2.2.2.2.2.1, bare.2.2.2.2.2.2.1,
    bare.2.2.2.2.2.2.2.1, sets.1, bare.2.2.2.2.2.2.2.2.2⟩
  · rintro ⟨⟩ ⟨⟩ same
    simp_all
  · rintro ⟨⟩ ⟨⟩ same
    simp_all
  · rintro ⟨⟩ ⟨⟩ same
    simp_all
  · exact expr_free_injective
  · rintro ⟨⟩ ⟨⟩ same
    simp_all

end Free

theorem eq_of_same_free {p q : Par} (bare : p.erase = q.erase) (sets : p.sameFree q = true) :
    p = q := by
  have lists {ps qs : List Par} (bare : ps.map Par.erase = qs.map Par.erase)
      (sets : accept (ps.map Par.sameFree) qs = true)
      (each : ∀ p ∈ ps, ∀ q, p.erase = q.erase → p.sameFree q = true → p = q) : ps = qs := by
    induction ps generalizing qs with
    | nil => exact (List.map_eq_nil_iff.mp bare.symm).symm
    | cons p ps ih =>
      cases qs with
      | nil => cases bare
      | cons q qs =>
        rw [List.map_cons, accept, Bool.and_eq_true] at sets
        obtain ⟨head, tail⟩ := List.cons.inj bare
        rw [each p List.mem_cons_self q head sets.1,
          ih tail sets.2 fun p mem => each p (List.mem_cons_of_mem _ mem)]
  induction p using Par.induct generalizing q with
  | step layer ih =>
    obtain ⟨other⟩ := q
    obtain ⟨own, below⟩ := (same_free_mk layer other).mp sets
    have erased (layer : Layer Par) : (Par.mk layer).erase =
        .mk ((Container.map Par.erase layer).mapFree fun _ => []) := by
      rw [Par.erase, Par.mapFree]
      exact fold_mk _ layer
    rw [erased, erased, Par.mk.injEq] at bare
    have subterms := congrArg children bare
    rw [children_map_free, children_map_free, children_map, children_map] at subterms
    have shapes := congrArg shape bare
    rw [shape_map_free, shape_map_free, shape_map, shape_map] at shapes
    have same : shape layer = shape other :=
      layer_ext shapes (by rw [shape, free_sets_map, own, shape, free_sets_map])
    exact congrArg Par.mk (Container.ext same (lists subterms below ih))

/-- A term in canonical form. -/
structure Sorted where
  par : Par
  canonical : sortParTerm par = par

theorem sorted_canonical (par : Par) : sortParTerm (sortParTerm par) = sortParTerm par :=
  congrArg ScoredTerm.term (sort_par_sorted par)

def Sorted.new (par : Par) : Sorted := ⟨sortParTerm par, sorted_canonical par⟩

variable {Bytes State : Type}

def Sorted.encode (wire : Proto.Par → Bytes) (a : Sorted) : Bytes := wire (parToProto a.par)

/-- The hasher reads the bytes of the term. -/
def Sorted.hash (wire : Proto.Par → Bytes) (update : Bytes → State → State) (a : Sorted)
    (state : State) : State := update (a.encode wire) state

theorem to_proto_injective {p q : Par} (first : p.Proper) (second : q.Proper)
    (same : parToProto p = parToProto q) : p = q := by
  have left := from_to_proto first (le_max_left p.depth q.depth)
  rw [same, from_to_proto second (le_max_right p.depth q.depth)] at left
  exact (Except.ok.inj (Option.some.inj left)).symm

/-- Terms that compare as equal have the same bytes and hashes exactly when their locally-free sets
are the same at every place. -/
theorem sorted_identity_iff {wire : Proto.Par → Bytes} (lossless : Function.Injective wire)
    (update : Bytes → State → State) {a b : Sorted} (first : a.par.Proper)
    (second : b.par.Proper) :
    (a.par.eq b.par = true → a.encode wire = b.encode wire ∧
        a.hash wire update = b.hash wire update) ↔
      (a.par.eq b.par = true → a.par.sameFree b.par = true) := by
  constructor
  · intro identical equal
    rw [to_proto_injective first second (lossless (identical equal).1)]
    exact same_free_refl b.par
  · intro agree equal
    have same : a.par = b.par := eq_of_same_free (of_decide_eq_true equal) (agree equal)
    have bytes : a.encode wire = b.encode wire := by
      rw [Sorted.encode, Sorted.encode, same]
    exact ⟨bytes, by funext state; rw [Sorted.hash, Sorted.hash, bytes]⟩

/-- The components of a process in two orders, with one locally-free set. -/
theorem reordered_terms_identical :
    let a := Sorted.new (.mk { exprs := [.eVar (.boundVar 0), .gInt 2], locallyFree := [0] })
    let b := Sorted.new (.mk { exprs := [.gInt 2, .eVar (.boundVar 0)], locallyFree := [0] })
    a.encode id = b.encode id ∧
      a.hash id (fun bytes _ => bytes) = b.hash id fun bytes (_ : Proto.Par) => bytes := by
  intro a b
  have first : a.par.Proper := proper_of_leaf (by decide) (by decide) rfl
  have second : b.par.Proper := proper_of_leaf (by decide) (by decide) rfl
  exact (sorted_identity_iff Function.injective_id _ first second).mpr (fun _ => by decide)
    (by decide)

/-- A bound variable with its locally-free set and the same variable without. -/
theorem equal_terms_differ_in_bytes :
    let a := Sorted.new (.mk { exprs := [.eVar (.boundVar 0)], locallyFree := [0] })
    let b := Sorted.new (.mk { exprs := [.eVar (.boundVar 0)] })
    a.par.eq b.par = true ∧ a.encode id ≠ b.encode id := by
  intro a b
  refine ⟨by decide, fun same => ?_⟩
  have terms : a.par = b.par := to_proto_injective (proper_of_leaf (by decide) (by decide) rfl)
    (proper_of_leaf (by decide) (by decide) rfl) same
  exact absurd terms (by decide)

end RChain.Models
