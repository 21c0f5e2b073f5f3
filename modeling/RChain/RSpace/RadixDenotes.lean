import RChain.RSpace.RadixTree

/-!
# What a radix item stands for

An item stands for a finite map on keys of one length. A pointer in canonical form leads to
a node with at least two items, and the segment before it is the longest common one of its
keys. So an item is determined by its map, whatever store its nodes are in, as long as a
pointer is the hash of its node.
-/

namespace RChain.Radix

open BitCodec Sorted TupleSpace List

theorem common_prefix_eq {a b common left right : List Byte}
    (split : commonPrefix a b = (common, left, right)) :
    a = common ++ left ∧ b = common ++ right ∧
      ∀ first tail other otherTail, left = first :: tail → right = other :: otherTail →
        first ≠ other := by
  induction a generalizing b common left right with
  | nil =>
    cases split
    refine ⟨rfl, rfl, ?_⟩
    intro _ _ _ _ impossible
    cases impossible
  | cons x xs ih =>
    cases b with
    | nil =>
      cases split
      refine ⟨rfl, rfl, ?_⟩
      intro _ _ _ _ _ impossible
      cases impossible
    | cons y ys =>
      unfold commonPrefix at split
      by_cases same : x = y
      · rw [if_pos same] at split
        rcases rest : commonPrefix xs ys with ⟨_, _, _⟩
        rw [rest] at split
        cases split
        obtain ⟨leftEq, rightEq, apart⟩ := ih rest
        exact ⟨by rw [leftEq, cons_append], by rw [rightEq, same, cons_append], apart⟩
      · rw [if_neg same] at split
        cases split
        refine ⟨rfl, rfl, ?_⟩
        intro _ _ _ _ leftEq rightEq
        cases leftEq
        cases rightEq
        exact same

/-- A common front of two keys that part after `p` is a front of `p`. -/
theorem front_of_parting {p q left right : List Byte} {a b : Byte} (different : a ≠ b)
    (first : q <+: p ++ a :: left) (second : q <+: p ++ b :: right) : q <+: p := by
  induction p generalizing q with
  | nil =>
    cases q with
    | nil => exact prefix_refl []
    | cons =>
      rw [nil_append, cons_prefix_cons] at first second
      exact absurd (first.1.symm.trans second.1) different
  | cons x p ih =>
    cases q with
    | nil => exact nil_prefix
    | cons =>
      rw [cons_append, cons_prefix_cons] at first second
      exact cons_prefix_cons.mpr ⟨first.1, ih first.2 second.2⟩

abbrev Values (Hash : Type) := List Byte → Option Hash

/-- The item stands for the map on keys of this length. -/
inductive Denotes {Hash : Type} (nodes : Hash → Option (Node Hash)) :
    Nat → Item Hash → Values Hash → Prop
  | empty {m : Nat} {f : Values Hash} (nothing : ∀ k, k.length = m → f k = none) :
      Denotes nodes m .empty f
  | leaf {m : Nat} {segment : List Byte} {value : Hash} {f : Values Hash}
      (length : segment.length = m)
      (only : ∀ k, k.length = m → f k = if k = segment then some value else none) :
      Denotes nodes m (.leaf segment value) f
  | nodePtr {m rest : Nat} {segment : List Byte} {ptr : Hash} {node : Node Hash} {f : Values Hash}
      (length : m = segment.length + (rest + 1)) (found : nodes ptr = some node)
      (within : ∀ k, k.length = m → f k ≠ none → segment <+: k)
      (children : ∀ b, Denotes nodes rest (node b) fun k => f (segment ++ b :: k))
      (branching : ∃ a b, a ≠ b ∧ node a ≠ .empty ∧ node b ≠ .empty) :
      Denotes nodes m (.nodePtr segment ptr) f

/-- The node stands for the map on keys with one more byte than its items. -/
def NodeDenotes {Hash : Type} (nodes : Hash → Option (Node Hash)) (m : Nat) (node : Node Hash)
    (f : Values Hash) : Prop :=
  ∀ b, Denotes nodes m (node b) fun k => f (b :: k)

section Facts

variable {Hash : Type} {nodes others : Hash → Option (Node Hash)} {m : Nat} {item other : Item Hash}
  {f g : Values Hash}

theorem Denotes.mono (more : ∀ ptr node, nodes ptr = some node → others ptr = some node)
    (denotes : Denotes nodes m item f) : Denotes others m item f := by
  induction denotes with
  | empty nothing => exact .empty nothing
  | leaf length only => exact .leaf length only
  | nodePtr length found within _ branching ih =>
    exact .nodePtr length (more _ _ found) within ih branching

theorem Denotes.congr (denotes : Denotes nodes m item f) (same : ∀ k, k.length = m → f k = g k) :
    Denotes nodes m item g := by
  induction denotes generalizing g with
  | empty nothing => exact .empty fun k length => (same k length).symm.trans (nothing k length)
  | leaf length only => exact .leaf length fun k sized => (same k sized).symm.trans (only k sized)
  | nodePtr length found within _ branching ih =>
    refine .nodePtr length found ?_ (fun b => ih b ?_) branching
    · intro k sized _
      exact within k sized (by rwa [same k sized])
    · intro _ sized
      apply same
      rw [length, length_append, length_cons, sized]

theorem Denotes.nonempty (denotes : Denotes nodes m item f) (present : item ≠ .empty) :
    ∃ k, k.length = m ∧ f k ≠ none := by
  induction denotes with
  | empty => exact absurd rfl present
  | @leaf m segment value f length only =>
    refine ⟨segment, length, ?_⟩
    rw [only segment length, if_pos rfl]
    exact Option.some_ne_none value
  | nodePtr length _ _ _ branching ih =>
    obtain ⟨a, _, _, presentA, _⟩ := branching
    obtain ⟨_, sized, some⟩ := ih a presentA
    refine ⟨_, ?_, some⟩
    rw [length, length_append, length_cons, sized]

theorem denotes_empty (denotes : Denotes nodes m .empty f) (k : List Byte) (sized : k.length = m) :
    f k = none := by
  cases denotes with
  | empty nothing => exact nothing k sized

theorem Denotes.empty_of_none (denotes : Denotes nodes m item f)
    (nothing : ∀ k, k.length = m → f k = none) : item = .empty := by
  by_contra present
  obtain ⟨k, sized, some⟩ := denotes.nonempty present
  exact some (nothing k sized)

theorem pointer_keys {segment : List Byte} {ptr : Hash}
    (denotes : Denotes nodes m (.nodePtr segment ptr) f) :
    ∃ a b left right, a ≠ b ∧ (segment ++ a :: left).length = m ∧
      (segment ++ b :: right).length = m ∧ f (segment ++ a :: left) ≠ none ∧
      f (segment ++ b :: right) ≠ none := by
  cases denotes with
  | nodePtr length _ _ children branching =>
    obtain ⟨a, b, different, presentA, presentB⟩ := branching
    obtain ⟨left, leftSized, leftSome⟩ := (children a).nonempty presentA
    obtain ⟨right, rightSized, rightSome⟩ := (children b).nonempty presentB
    refine ⟨a, b, left, right, different, ?_, ?_, leftSome, rightSome⟩
    · rw [length, length_append, length_cons, leftSized]
    · rw [length, length_append, length_cons, rightSized]

theorem pointer_segment {segment front : List Byte} {ptr : Hash}
    (denotes : Denotes nodes m (.nodePtr segment ptr) f)
    (within : ∀ k, k.length = m → f k ≠ none → front <+: k) : front <+: segment := by
  obtain ⟨_, _, _, _, different, leftSized, rightSized, leftSome, rightSome⟩ :=
    pointer_keys denotes
  exact front_of_parting different (within _ leftSized leftSome) (within _ rightSized rightSome)

theorem leaf_not_pointer {segment front : List Byte} {value ptr : Hash}
    (leaf : Denotes nodes m (.leaf segment value) f)
    (pointer : Denotes others m (.nodePtr front ptr) f) : False := by
  obtain ⟨a, b, left, right, different, leftSized, rightSized, leftSome, rightSome⟩ :=
    pointer_keys pointer
  cases leaf with
  | leaf _ only =>
    have sameLeft : front ++ a :: left = segment := by
      by_contra other
      exact leftSome (by rw [only _ leftSized, if_neg other])
    have sameRight : front ++ b :: right = segment := by
      by_contra other
      exact rightSome (by rw [only _ rightSized, if_neg other])
    have both := append_cancel_left (sameLeft.trans sameRight.symm)
    exact different (List.cons.inj both).1

theorem Denotes.unique (hash : Node Hash → Hash)
    (hashed : ∀ ptr node, nodes ptr = some node → ptr = hash node)
    (otherHashed : ∀ ptr node, others ptr = some node → ptr = hash node)
    (denotes : Denotes nodes m item f) (same : Denotes others m other f) : item = other := by
  induction denotes generalizing other with
  | empty nothing => exact (same.empty_of_none nothing).symm
  | @leaf m segment value f length only =>
    cases other with
    | empty =>
      have nothing := denotes_empty same segment length
      rw [only segment length, if_pos rfl] at nothing
      cases nothing
    | leaf =>
      cases same with
      | leaf _ otherOnly =>
        have agree := (only segment length).symm.trans (otherOnly segment length)
        rw [if_pos rfl] at agree
        split_ifs at agree with here
        rw [here, Option.some.inj agree]
    | nodePtr =>
      have leaf : Denotes nodes m (.leaf segment value) f := .leaf length only
      exact (leaf_not_pointer leaf same).elim
  | @nodePtr m rest segment ptr node f length found within children branching ih =>
    have pointer : Denotes nodes m (.nodePtr segment ptr) f :=
      .nodePtr length found within children branching
    cases other with
    | empty =>
      obtain ⟨k, sized, some⟩ := pointer.nonempty (fun impossible => by cases impossible)
      exact absurd (denotes_empty same k sized) some
    | leaf => exact (leaf_not_pointer same pointer).elim
    | nodePtr otherSegment otherPtr =>
      have forth := pointer_segment same within
      cases same with
      | @nodePtr _ otherRest _ _ otherNode _ otherLength otherFound otherWithin otherChildren
          otherBranching =>
          have back := pointer_segment pointer otherWithin
          have segments : segment = otherSegment := forth.eq_of_length_le back.length_le
          subst segments
          have rests : rest = otherRest := by omega
          subst rests
          have slots : node = otherNode := funext fun b => ih b (otherChildren b)
          rw [hashed ptr node found, otherHashed otherPtr otherNode otherFound, slots]

theorem Denotes.functional (denotes : Denotes nodes m item f) (same : Denotes others m item g)
    (agree : ∀ ptr node other, nodes ptr = some node → others ptr = some other → node = other)
    (k : List Byte) (sized : k.length = m) : f k = g k := by
  induction denotes generalizing g k with
  | empty nothing => rw [nothing k sized, denotes_empty same k sized]
  | leaf _ only =>
    cases same with
    | leaf _ otherOnly => rw [only k sized, otherOnly k sized]
  | @nodePtr m rest segment ptr node f length found within children branching ih =>
    cases same with
    | @nodePtr _ otherRest _ _ otherNode _ otherLength otherFound otherWithin otherChildren _ =>
      cases agree _ _ _ found otherFound
      have rests : rest = otherRest := by omega
      subst rests
      by_cases front : segment <+: k
      · obtain ⟨tail, rfl⟩ := front
        rw [length_append, length] at sized
        obtain ⟨b, tail, rfl⟩ := exists_cons_of_length_pos (show 0 < tail.length by omega)
        rw [length_cons] at sized
        exact ih b (otherChildren b) tail (by omega)
      · have left : f k = none := by
          by_contra some
          exact front (within k sized some)
        have right : g k = none := by
          by_contra some
          exact front (otherWithin k sized some)
        rw [left, right]

end Facts

end RChain.Radix
