import Mathlib.Data.List.Basic

/-!
# Containers

One layer of a syntax tree is a container of the subtrees below it: it has a shape and a list
of children. A change of the children keeps the shape, and a layer is known from its shape and
its children.
-/

/-- A type of layers: `map` changes the children, `children` lists them. -/
class Container (F : Type → Type) where
  map : ∀ {A B : Type}, (A → B) → F A → F B
  children : ∀ {A : Type}, F A → List A
  map_map : ∀ {A B C : Type} (f : A → B) (g : B → C) (x : F A), map g (map f x) = map (g ∘ f) x := by
    intros
    simp
  children_map : ∀ {A B : Type} (f : A → B) (x : F A), children (map f x) = (children x).map f := by
    intros
    simp
  ext : ∀ {A : Type} {x y : F A}, map (fun _ => ()) x = map (fun _ => ()) y →
      children x = children y → x = y := by
    intro _ x y _ _
    cases x
    cases y
    simp_all

namespace Container

open List

variable {A B C : Type} {F : Type → Type} [Container F]

/-- The layer without its children. -/
def shape (x : F A) : F Unit := map (fun _ => ()) x

theorem shape_map (f : A → B) (x : F A) : shape (map f x) = shape x := map_map f _ x

theorem children_length_of_shape {x y : F A} (same : shape x = shape y) :
    (children x).length = (children y).length := by
  have counted (z : F A) : (children z).length = (children (shape z)).length := by
    rw [shape, children_map, length_map]
  rw [counted x, counted y, same]

theorem map_fixed {f : A → A} {x : F A} (fixed : ∀ c ∈ children x, f c = c) : map f x = x := by
  apply ext
  · exact map_map f _ x
  · rw [children_map, map_congr_left fixed, map_id']

section Lists

/-- A list of layers, changed at all children. -/
def mapAll (f : A → B) (xs : List (F A)) : List (F B) := xs.map (map f)

def allChildren (xs : List (F A)) : List A := xs.flatMap children

theorem map_map_all (f : A → B) (g : B → C) (xs : List (F A)) :
    mapAll g (mapAll f xs) = mapAll (g ∘ f) xs := by
  rw [mapAll, mapAll, List.map_map]
  exact List.map_congr_left fun x _ => map_map f g x

theorem all_children_map (f : A → B) (xs : List (F A)) :
    allChildren (mapAll f xs) = (allChildren xs).map f := by
  rw [allChildren, mapAll, allChildren, flatMap_map, map_flatMap]
  exact congrArg (xs.flatMap ·) (funext fun x => children_map f x)

theorem all_children_length {xs ys : List (F A)}
    (same : mapAll (fun _ => ()) xs = mapAll (fun _ => ()) ys) :
    (allChildren xs).length = (allChildren ys).length := by
  have counted (zs : List (F A)) : (allChildren zs).length =
      (allChildren (mapAll (fun _ => ()) zs)).length := by
    rw [all_children_map, length_map]
  rw [counted xs, counted ys, same]

theorem ext_all {xs ys : List (F A)} (same : mapAll (fun _ => ()) xs = mapAll (fun _ => ()) ys)
    (below : allChildren xs = allChildren ys) : xs = ys := by
  induction xs generalizing ys with
  | nil => exact (map_eq_nil_iff.mp same.symm).symm
  | cons x _ ih =>
    cases ys with
    | nil => cases same
    | cons =>
      obtain ⟨head, tail⟩ := List.cons.inj same
      obtain ⟨first, others⟩ := append_inj below (children_length_of_shape head)
      rw [ext head first, ih tail others]

end Lists

end Container
