import Mathlib.Data.List.Nodup
import Mathlib.Data.Set.Insert

/-!
# Orders in which everything follows what it needs

Items carry a key, and name the keys of the items they need. A list respects the needs when every
item comes after the items it needs. Such a list can be rearranged so that a set of keys that is
closed under needs comes first.
-/

namespace Precedence

open List

variable {Item Key : Type*} (key : Item → Key) (needs : Item → List Key)

/-- Every item comes after what it needs; the keys of `done` are there from the start. -/
def Respects : Set Key → List Item → Prop
  | _, [] => True
  | done, x :: rest => (∀ k ∈ needs x, k ∈ done) ∧ Respects (insert (key x) done) rest

/-- An item and one that needs it, among the given ones. -/
def Supports (items : List Item) (x y : Item) : Prop :=
  x ∈ items ∧ y ∈ items ∧ key x ∈ needs y

/-- The second item needs the first, directly or not. -/
abbrev Beneath (items : List Item) : Item → Item → Prop :=
  Relation.TransGen (Supports key needs items)

/-- The keys of a list of items. -/
def keysOf (items : List Item) : Set Key := {k | ∃ x ∈ items, key x = k}

variable {key needs} {items : List Item} {x : Item} {left right : List Item}

theorem mem_keys_of (mem : x ∈ items) : key x ∈ keysOf key items :=
  ⟨x, mem, rfl⟩

theorem keys_of_cons : keysOf key (x :: items) = insert (key x) (keysOf key items) := by
  ext k
  rw [Set.mem_insert_iff]
  constructor
  · rintro ⟨y, mem, same⟩
    rcases mem_cons.mp mem with here | later
    · exact .inl (here ▸ same.symm)
    · exact .inr ⟨y, later, same⟩
  · rintro (same | ⟨y, later, same⟩)
    · exact ⟨x, mem_cons_self, same.symm⟩
    · exact ⟨y, mem_cons_of_mem x later, same⟩

theorem respects_append {done : Set Key} : Respects key needs done (left ++ right) ↔
      Respects key needs done left ∧ Respects key needs (done ∪ keysOf key left) right := by
  induction left generalizing done with
  | nil => simp [Respects, keysOf]
  | cons x _ ih =>
    rw [cons_append, Respects, Respects, ih, keys_of_cons, Set.insert_union,
      Set.union_insert, and_assoc]

theorem needs_before {y : Item} (respects : Respects key needs ∅ (left ++ y :: right)) {k : Key}
    (needed : k ∈ needs y) :
    k ∈ keysOf key left := by
  have here := (respects_append.mp respects).2.1 k needed
  rwa [Set.empty_union] at here

section Distinct

variable {items : List Item} (distinct : (items.map key).Nodup)

include distinct

variable {list : List Item} {x : Item} {left right : List Item} {y : Item}

theorem mem_of_needs (inside : ∀ z ∈ left, z ∈ items)
    (respects : Respects key needs ∅ (left ++ y :: right)) (supports : Supports key needs items x y) :
    x ∈ left := by
  obtain ⟨z, mem, same⟩ := needs_before respects supports.2.2
  exact inj_on_of_nodup_map distinct (inside z mem) supports.1 same ▸ mem

theorem down_closed (inside : ∀ z ∈ list, z ∈ items) (respects : Respects key needs ∅ list)
    (beneath : Beneath key needs items x y) (mem : y ∈ list) : x ∈ list := by
  have step {x y : Item} (supports : Supports key needs items x y) (mem : y ∈ list) : x ∈ list := by
    obtain ⟨_, _, split⟩ := append_of_mem mem
    rw [split] at respects
    have earlier := mem_of_needs distinct
      (fun z early => inside z (split ▸ mem_append_left _ early)) respects supports
    exact split ▸ mem_append_left _ earlier
  induction beneath using Relation.TransGen.head_induction_on with
  | single supports => exact step supports mem
  | head supports _ ih => exact step supports ih

theorem before_of_beneath (inside : ∀ z ∈ left, z ∈ items)
    (respects : Respects key needs ∅ (left ++ y :: right)) (beneath : Beneath key needs items x y) :
    x ∈ left := by
  have first := (respects_append.mp respects).1
  cases beneath with
  | single supports => exact mem_of_needs distinct inside respects supports
  | tail below supports =>
    exact down_closed distinct inside first below (mem_of_needs distinct inside respects supports)

theorem after_of_beneath (inside : ∀ z ∈ left, z ∈ items) (once : (left ++ x :: right).Nodup)
    (respects : Respects key needs ∅ (left ++ x :: right)) (beneath : Beneath key needs items x y)
    (mem : y ∈ left ++ x :: right) : y ∈ right := by
  have out : x ∉ left := fun early =>
    (nodup_append.mp once).2.2 x early x mem_cons_self rfl
  rcases mem_append.mp mem with early | late
  · exact absurd (down_closed distinct inside (respects_append.mp respects).1 beneath early) out
  · rcases mem_cons.mp late with here | later
    · subst here
      exact absurd (before_of_beneath distinct inside respects beneath) out
    · exact later

end Distinct

section Rearrangement

open Classical in
variable (key) in
/-- The items with these keys, in the order of the list. -/
noncomputable def having (keys : Set Key) (order : List Item) : List Item :=
  order.filter fun x => key x ∈ keys

variable {keys : Set Key} {order : List Item} {x : Item} {done : Set Key}

theorem mem_having : x ∈ having key keys order ↔ x ∈ order ∧ key x ∈ keys := by
  simp [having]

theorem having_cons_pos (inside : key x ∈ keys) (order : List Item) :
    having key keys (x :: order) = x :: having key keys order :=
  filter_cons_of_pos (by simpa using inside)

theorem having_cons_neg (outside : key x ∉ keys) (order : List Item) :
    having key keys (x :: order) = having key keys order :=
  filter_cons_of_neg (by simpa using outside)

theorem respects_having (closed : ∀ x ∈ order, key x ∈ keys → ∀ k ∈ needs x, k ∈ keys)
    (respects : Respects key needs done order) :
    Respects key needs (done ∩ keys) (having key keys order) := by
  induction order generalizing done with
  | nil => trivial
  | cons x _ ih =>
    have rest := ih (fun y mem => closed y (mem_cons_of_mem x mem)) respects.2
    by_cases inside : key x ∈ keys
    · rw [having_cons_pos inside]
      refine ⟨fun k needed => ⟨respects.1 k needed, closed x mem_cons_self inside k needed⟩, ?_⟩
      rwa [Set.insert_inter_of_mem inside] at rest
    · rw [having_cons_neg inside]
      rwa [Set.insert_inter_of_notMem inside] at rest

theorem respects_not_having (keys present : Set Key)
    (there : ∀ x ∈ order, key x ∈ keys → key x ∈ present)
    (respects : Respects key needs done order) :
    Respects key needs (done ∪ present) (having key keysᶜ order) := by
  induction order generalizing done with
  | nil => trivial
  | cons x _ ih =>
    have rest := ih (fun y mem => there y (mem_cons_of_mem x mem)) respects.2
    rw [Set.insert_union] at rest
    by_cases inside : key x ∈ keys
    · rw [having_cons_neg (by simpa using inside)]
      have known : key x ∈ done ∪ present := .inr (there x mem_cons_self inside)
      rwa [Set.insert_eq_of_mem known] at rest
    · rw [having_cons_pos inside]
      exact ⟨fun k needed => .inl (respects.1 k needed), rest⟩

theorem respects_first (closed : ∀ x ∈ order, key x ∈ keys → ∀ k ∈ needs x, k ∈ keys)
    (respects : Respects key needs ∅ order) :
    Respects key needs ∅ (having key keys order ++ having key keysᶜ order) := by
  have first := respects_having closed respects
  have second := respects_not_having keys (keysOf key (having key keys order))
    (fun x mem inside => mem_keys_of (mem_having.mpr ⟨mem, inside⟩)) respects
  rw [Set.empty_inter] at first
  exact respects_append.mpr ⟨first, second⟩

open Classical in
theorem having_perm (keys : Set Key) (order : List Item) :
    (having key keys order ++ having key keysᶜ order).Perm order := by
  have split := filter_append_perm (fun x => decide (key x ∈ keys)) order
  have second : having key keysᶜ order = order.filter fun x => !decide (key x ∈ keys) := by
    unfold having
    congr 1
    funext x
    simp
  rw [second]
  exact split

end Rearrangement

end Precedence
