import RChain.Dag.MessageMap

/-!
# Seen sets and ancestors

A message caches the ids it has seen when it is created. In a state that is built message by message,
each over messages it already holds, the cache is the set of the ancestors along parents, and the
slice between two bounds is a difference of ancestor sets.
-/

namespace RChain.Dag

open Finset AList

open Relation (ReflTransGen)

variable {M S : Type} [LinearOrder M] [DecidableEq S]

/-- The states made by inserting messages into the empty one. A message may be created on any state,
over justifications that the state it is inserted into holds. -/
inductive Assembled : DagMessageState M S → Prop
  | empty : Assembled DagMessageState.empty
  | insertMsg {state : DagMessageState M S} (built : Assembled state) (origin : DagMessageState M S)
      (id : M) (height : Nat) (sender : S) (senderSeq : Nat) (finBondsMap : BondsMap S)
      (justifications : List (Message M S))
      (held : ∀ j ∈ justifications, state.msgMap.lookup j.id = some j) :
      Assembled (state.insertMsg
        (origin.createMessage id height sender senderSeq finBondsMap justifications))

def IsParent (msgMap : MsgMap M S) (child parent : M) : Prop :=
  ∃ x, msgMap.lookup child = some x ∧ parent ∈ x.parents

/-- The second id is that of an ancestor of the first, or the same. -/
abbrev Descends (msgMap : MsgMap M S) : M → M → Prop := ReflTransGen (IsParent msgMap)

structure SeesAncestors (msgMap : MsgMap M S) : Prop where
  named : ∀ id x, msgMap.lookup id = some x → x.id = id
  parents : ∀ id x, msgMap.lookup id = some x → ∀ p ∈ x.parents, p ∈ msgMap
  seen : ∀ id x, msgMap.lookup id = some x → ∀ i, i ∈ x.seen ↔ Descends msgMap id i

section Insert

variable {msgMap : MsgMap M S} (sees : SeesAncestors msgMap) {new : Message M S}
  (fresh : new.id ∉ msgMap)

include fresh in
omit [DecidableEq S] in
theorem lookup_insert_held {id : M} (held : id ∈ msgMap) :
    (msgMap.insert new.id new).lookup id = msgMap.lookup id :=
  lookup_insert_ne fun same => fresh (same ▸ held)

include sees fresh in
omit [DecidableEq S] in
/-- What is reached from a message held before does not change: nothing held names the new one. -/
theorem descends_insert {id : M} (held : id ∈ msgMap) (i : M) :
    Descends (msgMap.insert new.id new) id i ↔ Descends msgMap id i := by
  constructor
  · intro path
    induction path using ReflTransGen.head_induction_on with
    | refl => exact ReflTransGen.refl
    | head step _ ih =>
      obtain ⟨x, found, parent⟩ := step
      rw [lookup_insert_held fresh held] at found
      exact (ih (sees.parents _ x found _ parent)).head ⟨x, found, parent⟩
  · refine ReflTransGen.mono (fun child parent step => ?_) id i
    obtain ⟨x, found, listed⟩ := step
    have known : child ∈ msgMap := held_of_lookup found
    exact ⟨x, (lookup_insert_held fresh known).trans found, listed⟩

include sees fresh in
theorem sees_ancestors_insert {justifications : List (Message M S)}
    (held : ∀ j ∈ justifications, msgMap.lookup j.id = some j)
    (parents : new.parents = justifications.map (·.id))
    (seen : new.seen = insert new.id (justifications.toFinset.biUnion (·.seen))) :
    SeesAncestors (msgMap.insert new.id new) := by
  have known {id : M} {x : Message M S} (found : msgMap.lookup id = some x) : id ∈ msgMap :=
    held_of_lookup found
  have justified (p : M) (parent : p ∈ new.parents) :
      ∃ j ∈ justifications, j.id = p ∧ msgMap.lookup p = some j := by
    rw [parents, List.mem_map] at parent
    obtain ⟨j, listed, rfl⟩ := parent
    exact ⟨j, listed, rfl, held j listed⟩
  have cases_of {P : M → Message M S → Prop} (here : P new.id new)
      (before : ∀ id x, msgMap.lookup id = some x → P id x) :
      ∀ id x, (msgMap.insert new.id new).lookup id = some x → P id x := by
    intro id x found
    by_cases same : id = new.id
    · subst same
      rw [lookup_insert, Option.some.injEq] at found
      exact found ▸ here
    · rw [lookup_insert_ne same] at found
      exact before id x found
  refine ⟨cases_of rfl sees.named, cases_of ?_ ?_, cases_of ?_ ?_⟩
  · intro p parent
    obtain ⟨_, _, _, found⟩ := justified p parent
    exact (mem_insert msgMap).mpr (Or.inr (known found))
  · intro id x found p parent
    exact (mem_insert msgMap).mpr (Or.inr (sees.parents id x found p parent))
  · intro i
    have self : (msgMap.insert new.id new).lookup new.id = some new := lookup_insert _
    rw [seen, Finset.mem_insert, Finset.mem_biUnion, Descends, ReflTransGen.cases_head_iff]
    refine or_congr eq_comm ⟨?_, ?_⟩
    · rintro ⟨j, listed, inside⟩
      rw [List.mem_toFinset] at listed
      have found := held j listed
      refine ⟨j.id, ⟨new, self, by rw [parents]; exact List.mem_map_of_mem listed⟩, ?_⟩
      exact (descends_insert sees fresh (known found) i).mpr ((sees.seen j.id j found i).mp inside)
    · rintro ⟨p, ⟨_, found, parent⟩, path⟩
      rw [self, Option.some.injEq] at found
      obtain ⟨j, listed, _, inMap⟩ := justified p (found ▸ parent)
      have before := (descends_insert sees fresh (known inMap) i).mp path
      exact ⟨j, List.mem_toFinset.mpr listed, (sees.seen p j inMap i).mpr before⟩
  · intro id x found i
    rw [descends_insert sees fresh (known found)]
    exact sees.seen id x found i

end Insert

theorem built_sees {state : DagMessageState M S} (built : Assembled state) :
    SeesAncestors state.msgMap := by
  induction built with
  | empty => constructor <;> exact fun id x found => by cases found
  | insertMsg _ _ _ _ _ _ _ _ held ih =>
    unfold DagMessageState.insertMsg
    split_ifs with present
    · exact ih
    · exact sees_ancestors_insert ih present held rfl rfl

theorem mem_messages_at (msgMap : MsgMap M S) (ids : Finset M) (m : Message M S) :
    m ∈ messagesAt msgMap ids ↔ ∃ id ∈ ids, msgMap.lookup id = some m := by
  simp [messagesAt, msgAt]

theorem seen_sets_are_ancestor_sets {state : DagMessageState M S} (built : Assembled state) :
    (∀ id m, state.msgMap.lookup id = some m → ∀ i, i ∈ m.seen ↔ Descends state.msgMap m.id i) ∧
    ∀ upper lower : Finset (Message M S), (∀ m ∈ upper ∪ lower, state.msgMap.lookup m.id = some m) →
      ∀ m, m ∈ between state.msgMap upper lower ↔ state.msgMap.lookup m.id = some m ∧
        (∃ u ∈ upper, Descends state.msgMap u.id m.id) ∧
        ¬ ∃ l ∈ lower, Descends state.msgMap l.id m.id := by
  have sees := built_sees built
  constructor
  · intro id m found i
    rw [sees.named id m found]
    exact sees.seen id m found i
  · intro _ _ held m
    have below {bound : Finset (Message M S)}
        (inState : ∀ u ∈ bound, state.msgMap.lookup u.id = some u) :
        m ∈ messagesAt state.msgMap (bound.biUnion (·.seen)) ↔
          state.msgMap.lookup m.id = some m ∧ ∃ u ∈ bound, Descends state.msgMap u.id m.id := by
      simp only [mem_messages_at, mem_biUnion]
      constructor
      · rintro ⟨i, ⟨u, member, inside⟩, found⟩
        have here := sees.named i m found
        subst here
        exact ⟨found, u, member, (sees.seen u.id u (inState u member) _).mp inside⟩
      · rintro ⟨found, u, member, path⟩
        exact ⟨m.id, ⟨u, member, (sees.seen u.id u (inState u member) _).mpr path⟩, found⟩
    rw [between, mem_sdiff, below fun u member => held u (mem_union_left _ member),
      below fun l member => held l (mem_union_right _ member), and_assoc]
    exact and_congr_right fun found => and_congr_right fun _ => not_congr (and_iff_right found)

/-- A message over one other: it has seen both, and the slice above the other is the message. -/
theorem seen_sets_of_two_messages :
    let first := (DagMessageState.empty : DagMessageState Nat Nat).createMessage 1 0 0 0 ∅ []
    let start := DagMessageState.empty.insertMsg first
    let second := start.createMessage 2 1 0 1 ∅ [first]
    let state := start.insertMsg second
    second.seen = {2, 1} ∧ between state.msgMap {second} {first} = {second} ∧
      (∀ i, i ∈ second.seen ↔ Descends state.msgMap 2 i) ∧
      ¬ ∃ l ∈ ({first} : Finset (Message Nat Nat)), Descends state.msgMap l.id 2 := by
  intro first start second state
  have built : Assembled state := (Assembled.empty.insertMsg _ 1 0 0 0 ∅ [] (by simp)).insertMsg start 2 1 0 1
    ∅ [first] (by decide +kernel)
  have slice : between state.msgMap {second} {first} = {second} := by decide +kernel
  obtain ⟨seen, sliced⟩ := seen_sets_are_ancestor_sets built
  have inside := (sliced {second} {first} (by decide +kernel) second).mp
    (slice ▸ mem_singleton_self second)
  exact ⟨by decide +kernel, slice, seen 2 second (by decide +kernel), inside.2.2⟩

end RChain.Dag
