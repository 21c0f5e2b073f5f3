import RChain.Dag.MessageState
import RChain.Lib.Sorted

/-!
# The message map that merging reads

Source: `block-storage/src/dag/message_map.rs`.

A map is `Grounded` when what its messages name is in it and a parent has seen less than its child,
as for the message map of a node. What finalization and merging read of a grounded map does not
change when a message is added that nothing in it names.
-/

namespace RChain.Dag

open Sorted List Finset AList

section Definitions

variable {M S : Type} [LinearOrder M] [DecidableEq S]

/-- The slice of messages between two bounds, including the upper one. -/
def between (msgMap : MsgMap M S) (upperBound lowerBound : Finset (Message M S)) :
    Finset (Message M S) :=
  messagesAt msgMap (upperBound.biUnion (·.seen)) \ messagesAt msgMap (lowerBound.biUnion (·.seen))

/-- `Iterator::min_by_key`: of several minimal elements the first one is returned. -/
def minByKey {Item Key : Type} [LE Key] [DecidableLE Key] (key : Item → Key)
    (items : List Item) : Option Item :=
  items.foldl
    (fun best item =>
      match best with
      | none => some item
      | some current => if key current ≤ key item then some current else some item)
    none

/-- Lowest fringe for input messages. -/
def lowestFringe (msgMap : MsgMap M S) (msgs : List (Message M S)) : Finset (Message M S) :=
  match minByKey (fringeHeight msgMap) msgs with
  | some j => messagesAt msgMap j.fringe
  | none => ∅

/-- A message with empty parents, the first in the order of the ids. -/
def findWithEmptyParents (msgMap : MsgMap M S) : Option (Message M S) :=
  ((elements msgMap.keys.toFinset).filterMap msgMap.lookup).find? fun m => m.parents.isEmpty

/-- The highest fringe not required for merging. -/
def pruneFringe (msgMap : MsgMap M S) (finalFringe : Finset M)
    (childMap : AList fun _ : M => Finset M) : Finset (Message M S) :=
  lowestFringe msgMap
    ((elements (finalFringe.biUnion fun id => (childMap.lookup id).getD ∅)).filterMap
      (msgAt msgMap))

end Definitions

section Local

variable {M S : Type} [DecidableEq M]

structure Grounded (msgMap : MsgMap M S) : Prop where
  named : ∀ id x, msgMap.lookup id = some x → x.id = id
  parents : ∀ id x, msgMap.lookup id = some x → ∀ p ∈ x.parents, p ∈ msgMap
  fringe : ∀ id x, msgMap.lookup id = some x → ∀ f ∈ x.fringe, f ∈ msgMap
  seen : ∀ id x, msgMap.lookup id = some x → ∀ s ∈ x.seen, s ∈ msgMap
  sees : ∀ id x, msgMap.lookup id = some x → x.seen.Nonempty
  descends : ∀ id x, msgMap.lookup id = some x → ∀ p ∈ x.parents, ∀ y,
    msgMap.lookup p = some y → y.seen.card < x.seen.card

def Includes (msgMap larger : MsgMap M S) : Prop :=
  ∀ id x, msgMap.lookup id = some x → larger.lookup id = some x

def Carries (msgMap : MsgMap M S) (x : Message M S) : Prop := ∃ id, msgMap.lookup id = some x

theorem grounded_empty : Grounded (∅ : MsgMap M S) := by
  constructor <;> exact fun id x found => by cases found

variable {x : Message M S} {Item Key : Type} {key other : Item → Key} {ids : Finset M} {id : M}
  {finalized : Finset (Message M S)} {sender : S} {y : Message M S} {next : List (Message M S)}
  {layer : AList fun _ : S => Message M S} {m : Message M S} {s : S}
  {justifications : List (Message M S)} {bondsMap : BondsMap S}

theorem grounded_insert {msgMap : MsgMap M S} (grounded : Grounded msgMap) (fresh : x.id ∉ msgMap)
    (parents : ∀ p ∈ x.parents, p ∈ msgMap) (fringe : ∀ f ∈ x.fringe, f ∈ msgMap)
    (seen : ∀ s, s ∈ x.seen ↔ s = x.id ∨
      ∃ p ∈ x.parents, ∃ y, msgMap.lookup p = some y ∧ s ∈ y.seen) :
    Grounded (msgMap.insert x.id x) := by
  have cases_of {id : M} {y : Message M S} (found : (msgMap.insert x.id x).lookup id = some y) :
      id = x.id ∧ y = x ∨ msgMap.lookup id = some y := by
    by_cases here : id = x.id
    · subst here
      rw [lookup_insert] at found
      exact .inl ⟨rfl, (Option.some.inj found).symm⟩
    · rw [lookup_insert_ne here] at found
      exact .inr found
  have old {id : M} (held : id ∈ msgMap) : id ∈ msgMap.insert x.id x :=
    (mem_insert msgMap).mpr (.inr held)
  refine ⟨fun id y found => ?_, fun id y found p parent => ?_, fun id y found f mem => ?_,
    fun id y found s mem => ?_, fun id y found => ?_, fun id y found p parent z above => ?_⟩
  · rcases cases_of found with ⟨here, new⟩ | before
    · rw [here, new]
    · exact grounded.named id y before
  · rcases cases_of found with ⟨_, new⟩ | before
    · exact old (parents p (new ▸ parent))
    · exact old (grounded.parents id y before p parent)
  · rcases cases_of found with ⟨_, new⟩ | before
    · exact old (fringe f (new ▸ mem))
    · exact old (grounded.fringe id y before f mem)
  · rcases cases_of found with ⟨_, new⟩ | before
    · subst new
      rcases (seen s).mp mem with self | ⟨p, _, z, held, inside⟩
      · exact (mem_insert msgMap).mpr (.inl self)
      · exact old (grounded.seen p z held s inside)
    · exact old (grounded.seen id y before s mem)
  · rcases cases_of found with ⟨_, new⟩ | before
    · subst new
      exact ⟨y.id, (seen y.id).mpr (.inl rfl)⟩
    · exact grounded.sees id y before
  · have apart : p ≠ x.id → msgMap.lookup p = some z := fun different => by
      rw [lookup_insert_ne different] at above
      exact above
    rcases cases_of found with ⟨_, new⟩ | before
    · subst new
      have held := apart fun same => fresh (same ▸ parents p parent)
      refine Finset.card_lt_card (Finset.ssubset_iff_subset_ne.mpr
        ⟨fun s inside => ?_, fun same => ?_⟩)
      · exact (seen s).mpr (.inr ⟨p, parent, z, held, inside⟩)
      · have self : y.id ∈ z.seen := same ▸ (seen y.id).mpr (.inl rfl)
        exact fresh (grounded.seen p z held y.id self)
    · have known := grounded.parents id y before p parent
      exact grounded.descends id y before p parent z (apart fun same => fresh (same ▸ known))

theorem choice_congr {step other : Option Item → Item → Option Item} (all : List Item)
    (first : ∀ item, step none item = some item ∧ other none item = some item)
    (same : ∀ current ∈ all, ∀ item ∈ all, step (some current) item = other (some current) item ∧
      (step (some current) item = some item ∨ step (some current) item = some current)) :
    all.foldl step none = all.foldl other none ∧ ∀ c, all.foldl step none = some c → c ∈ all := by
  suffices general : ∀ items ⊆ all, ∀ best, (∀ c ∈ best, c ∈ all) →
      items.foldl step best = items.foldl other best ∧ ∀ c ∈ items.foldl step best, c ∈ all from
    general all (fun _ => id) none (by simp)
  intro items inside best start
  induction items generalizing best with
  | nil => exact ⟨rfl, start⟩
  | cons item _ ih =>
    have mem := inside mem_cons_self
    rw [foldl_cons, foldl_cons]
    cases best with
    | none =>
      rw [(first item).1, (first item).2]
      exact ih (fun _ later => inside (mem_cons_of_mem _ later)) _ (by simpa using mem)
    | some current =>
      obtain ⟨here, kept⟩ := same current (start current rfl) item mem
      rw [← here]
      refine ih (fun _ later => inside (mem_cons_of_mem _ later)) _ ?_
      rcases kept with new | old
      · simpa [new] using mem
      · simpa [old] using start current rfl

theorem max_by_key_congr [LE Key] [DecidableLE Key] (items : List Item)
    (same : ∀ item ∈ items, key item = other item) :
    maxByKey key items = maxByKey other items ∧ ∀ c, maxByKey key items = some c → c ∈ items := by
  refine choice_congr items (fun _ => ⟨rfl, rfl⟩) fun current inside item mem => ?_
  dsimp only
  rw [same current inside, same item mem]
  refine ⟨rfl, ?_⟩
  split_ifs
  · exact .inl rfl
  · exact .inr rfl

theorem min_by_key_congr [LE Key] [DecidableLE Key] (items : List Item)
    (same : ∀ item ∈ items, key item = other item) :
    minByKey key items = minByKey other items ∧ ∀ c, minByKey key items = some c → c ∈ items := by
  refine choice_congr items (fun _ => ⟨rfl, rfl⟩) fun current inside item mem => ?_
  dsimp only
  rw [same current inside, same item mem]
  refine ⟨rfl, ?_⟩
  split_ifs
  · exact .inr rfl
  · exact .inl rfl

variable {msgMap larger : MsgMap M S} (grounded : Grounded msgMap)
  (included : Includes msgMap larger)

theorem card_le_entries (held : ∀ id ∈ ids, id ∈ msgMap) : ids.card ≤ msgMap.entries.length :=
  calc ids.card ≤ msgMap.keys.toFinset.card :=
        card_le_card fun id mem =>
          mem_toFinset.mpr (mem_keys.mp (held id mem))
    _ ≤ msgMap.keys.length := toFinset_card_le _
    _ = msgMap.entries.length := length_map _

include included in
theorem mem_included (held : id ∈ msgMap) : id ∈ larger := by
  obtain ⟨x, found⟩ := Option.isSome_iff_exists.mp (lookup_isSome.mpr held)
  exact held_of_lookup (included id x found)

include included in
theorem msg_at_included (held : id ∈ msgMap) : msgAt larger id = msgAt msgMap id := by
  obtain ⟨x, found⟩ := Option.isSome_iff_exists.mp (lookup_isSome.mpr held)
  unfold msgAt
  rw [found, included id x found]

include included in
theorem filter_map_included {ids : List M} (held : ∀ id ∈ ids, id ∈ msgMap) :
    ids.filterMap (msgAt larger) = ids.filterMap (msgAt msgMap) :=
  filterMap_congr fun id mem => msg_at_included included (held id mem)

theorem carries_of_mem {ids : List M} (mem : x ∈ ids.filterMap (msgAt msgMap)) :
    Carries msgMap x := by
  obtain ⟨id, _, found⟩ := mem_filterMap.mp mem
  exact ⟨id, found⟩

variable [DecidableEq S]

include included in
theorem messages_at_included (held : ∀ id ∈ ids, id ∈ msgMap) :
    messagesAt larger ids = messagesAt msgMap ids := by
  unfold messagesAt
  exact biUnion_congr rfl fun id mem => by rw [msg_at_included included (held id mem)]

theorem carries_of_own_parent (mem : y ∈ ownParents msgMap finalized sender x) : Carries msgMap y :=
  carries_of_mem (mem_filter.mp mem).1

theorem carries_of_self_parent (fuel : Nat) (carried : ∀ y ∈ next, Carries msgMap y)
    (mem : x ∈ selfParentsLoop msgMap finalized sender fuel next) : Carries msgMap x := by
  induction fuel generalizing next with
  | zero => cases mem
  | succ _ ih =>
    unfold selfParentsLoop at mem
    split at mem
    · cases mem
    · rename_i last top
      rcases mem_cons.mp mem with same | later
      · exact same ▸ carried last (mem_of_getLast? top)
      · exact ih (fun y inside => carries_of_own_parent inside) later

omit [DecidableEq M] in
theorem layer_insert_cases (found : (layer.insert m.sender m).lookup s = some x) :
    layer.lookup s = some x ∨ x = m := by
  by_cases here : s = m.sender
  · subst here
    rw [lookup_insert] at found
    exact .inr (Option.some.inj found).symm
  · rw [lookup_insert_ne here] at found
    exact .inl found

omit [DecidableEq M] in
theorem raise_layer_cases (found : (raiseLayer layer m).lookup s = some x) :
    layer.lookup s = some x ∨ x = m := by
  unfold raiseLayer at found
  split at found
  · split_ifs at found
    · exact layer_insert_cases found
    · exact .inl found
  · exact .inl found

omit [DecidableEq M] in
theorem layer_among {good : Message M S → Prop}
    {step : AList (fun _ : S => Message M S) → Message M S → AList fun _ : S => Message M S}
    (chooses : ∀ layer m s x, (step layer m).lookup s = some x → layer.lookup s = some x ∨ x = m)
    (messages : List (Message M S)) (among : ∀ x ∈ messages, good x)
    (start : ∀ s x, layer.lookup s = some x → good x) :
    ∀ s x, (messages.foldl step layer).lookup s = some x → good x := by
  induction messages generalizing layer with
  | nil => exact start
  | cons m _ ih =>
    refine ih (fun x mem => among x (mem_cons_of_mem _ mem)) fun s x found => ?_
    rcases chooses layer m s x found with old | new
    · exact start s x old
    · exact new ▸ among m mem_cons_self

section

variable {good : Message M S → Prop} (held : ∀ x, Carries msgMap x → good x)
include held

theorem min_msg_among (here : good x) (prevFringe : Finset (Message M S)) :
    good (minMsg msgMap prevFringe x) := by
  rcases mem_cons.mp (getLast_mem (cons_ne_nil x
      (selfParents msgMap x prevFringe))) with same | chained
  · unfold minMsg
    rw [same]
    exact here
  · exact held _ (carries_of_self_parent _ (fun _ mem => carries_of_own_parent mem) chained)

/-- The messages of a next fringe are in the map or are justifications. -/
theorem next_fringe_among (among : ∀ j ∈ justifications, good j) {prevFringe next : Finset (Message M S)}
    (found : nextFringe msgMap justifications bondsMap prevFringe = some next) :
    ∀ x ∈ next, good x := by
  intro x mem
  unfold nextFringe at found
  dsimp only at found
  split_ifs at found
  cases found
  obtain ⟨entry, inside, same⟩ := mem_map.mp (mem_toFinset.mp mem)
  subst same
  have least : ∀ x ∈ justifications.map (minMsg msgMap prevFringe), good x := by
    intro _ listed
    obtain ⟨j, known, rfl⟩ := mem_map.mp listed
    exact min_msg_among held (among j known) prevFringe
  refine layer_among (fun _ _ _ _ => raise_layer_cases) _ (fun x listed => ?_)
    (layer_among (fun _ _ _ _ => layer_insert_cases) _ least ?_) entry.1 entry.2
    (mem_lookup_iff.mpr inside)
  · obtain ⟨_, _, parent⟩ := mem_flatMap.mp (mem_filter.mp listed).1
    exact held x (carries_of_mem parent)
  · intro _ _ nothing
    cases nothing

end

theorem carries_of_loop (carried : ∀ j ∈ justifications, Carries msgMap j) (fuel : Nat)
    {current fringe : Finset (Message M S)} {newFringe : Option (Finset (Message M S))}
    (start : ∀ f, newFringe = some f → ∀ x ∈ f, Carries msgMap x)
    (found : finalizationLoop msgMap justifications bondsMap fuel current newFringe = some fringe) :
    ∀ x ∈ fringe, Carries msgMap x := by
  induction fuel generalizing current newFringe with
  | zero => exact start fringe found
  | succ _ ih =>
    unfold finalizationLoop at found
    split at found
    · exact start fringe found
    · rename_i next stepped
      split_ifs at found
      · exact start fringe found
      · refine ih (fun f same => ?_) found
        cases same
        exact next_fringe_among (fun _ held => held) carried stepped

def LoopEnds (msgMap : MsgMap M S) (justifications : List (Message M S)) (bondsMap : BondsMap S) :
    Nat → Finset (Message M S) → Prop
  | 0, _ => False
  | fuel + 1, current =>
    ∀ next, nextFringe msgMap justifications bondsMap current = some next →
      next = current ∨ LoopEnds msgMap justifications bondsMap fuel next

include grounded included

section

variable (carried : Carries msgMap x)
include carried

theorem fringe_height_included : fringeHeight larger x = fringeHeight msgMap x := by
  obtain ⟨id, found⟩ := carried
  unfold fringeHeight
  rw [messages_at_included included (grounded.fringe id x found)]

omit carried in
theorem latest_fringe_included (carried : ∀ j ∈ justifications, Carries msgMap j) :
    latestFringe larger justifications = latestFringe msgMap justifications := by
  obtain ⟨same, inside⟩ := max_by_key_congr justifications fun j mem =>
    fringe_height_included grounded included (carried j mem)
  unfold latestFringe
  rw [← same]
  cases chosen : maxByKey (fringeHeight larger) justifications with
  | none => rfl
  | some j =>
    obtain ⟨id, found⟩ := carried j (inside j chosen)
    exact messages_at_included included (grounded.fringe id j found)

theorem own_parents_included (finalized : Finset (Message M S)) (sender : S) :
    ownParents larger finalized sender x = ownParents msgMap finalized sender x := by
  obtain ⟨id, found⟩ := carried
  unfold ownParents
  rw [filter_map_included included (grounded.parents id x found)]

omit included in
theorem own_parent_card_lt (mem : y ∈ ownParents msgMap finalized sender x) :
    y.seen.card < x.seen.card := by
  obtain ⟨id, found⟩ := carried
  obtain ⟨p, parent, held⟩ := mem_filterMap.mp (mem_filter.mp mem).1
  exact grounded.descends id x found p parent y held

omit included [DecidableEq S] in
theorem seen_card_pos : 0 < x.seen.card := by
  obtain ⟨id, found⟩ := carried
  exact card_pos.mpr (grounded.sees id x found)

omit carried in
theorem self_parents_loop_included (finalized : Finset (Message M S)) (sender : S)
    (fuel other : Nat) (carried : ∀ y ∈ next, Carries msgMap y)
    (enough : ∀ y ∈ next, y.seen.card ≤ fuel ∧ y.seen.card ≤ other) :
    selfParentsLoop larger finalized sender other next =
      selfParentsLoop msgMap finalized sender fuel next := by
  induction fuel generalizing other next with
  | zero =>
    have empty : next = [] := eq_nil_iff_forall_not_mem.mpr fun y mem => by
      have positive := seen_card_pos grounded (carried y mem)
      have none := (enough y mem).1
      omega
    subst empty
    cases other <;> rfl
  | succ _ ih =>
    cases top : next.getLast? with
    | none =>
      have empty : next = [] := getLast?_eq_none_iff.mp top
      subst empty
      cases other <;> rfl
    | some m =>
      have mem := mem_of_getLast? top
      have positive := seen_card_pos grounded (carried m mem)
      have bound := enough m mem
      cases other with
      | zero => omega
      | succ other =>
        rw [selfParentsLoop, selfParentsLoop, top]
        dsimp only
        rw [own_parents_included grounded included (carried m mem)]
        rw [ih other (fun y inside => carries_of_own_parent inside) fun y inside => ?_]
        have less := own_parent_card_lt grounded (carried m mem) inside
        omega

theorem self_parents_included (finalized : Finset (Message M S)) :
    selfParents larger x finalized = selfParents msgMap x finalized := by
  unfold selfParents
  rw [own_parents_included grounded included carried]
  refine self_parents_loop_included grounded included finalized x.sender _ _
    (fun y mem => carries_of_own_parent mem) fun y mem => ?_
  obtain ⟨id, found⟩ := carries_of_own_parent mem
  have seen := grounded.seen id y found
  exact ⟨card_le_entries seen,
    card_le_entries fun s inside => mem_included included (seen s inside)⟩

theorem min_msg_included (prevFringe : Finset (Message M S)) :
    minMsg larger prevFringe x = minMsg msgMap prevFringe x := by
  unfold minMsg
  simp only [self_parents_included grounded included carried]

end

theorem next_layer_included {minMsgs : List (Message M S)}
    (carried : ∀ x ∈ minMsgs, Carries msgMap x) :
    calculateNextLayer larger minMsgs = calculateNextLayer msgMap minMsgs := by
  have candidates : (minMsgs.flatMap fun x => x.parents.filterMap (msgAt larger)) =
      minMsgs.flatMap fun x => x.parents.filterMap (msgAt msgMap) := by
    refine flatMap_congr fun x mem => ?_
    obtain ⟨id, found⟩ := carried x mem
    exact filter_map_included included (grounded.parents id x found)
  unfold calculateNextLayer
  rw [candidates]

theorem see_min_msg_included {mv : Message M S} (carried : Carries msgMap mv)
    (nextLayerIds : List M) (finalized : Finset (Message M S)) (least : Message M S) :
    seeMinMsg larger nextLayerIds finalized mv least =
      seeMinMsg msgMap nextLayerIds finalized mv least := by
  obtain ⟨id, found⟩ := carried
  have parents : (mv.parents.filter fun p => p ∉ nextLayerIds).filterMap (msgAt larger) =
      (mv.parents.filter fun p => p ∉ nextLayerIds).filterMap (msgAt msgMap) :=
    filter_map_included included fun p mem =>
      grounded.parents id mv found p (mem_filter.mp mem).1
  unfold seeMinMsg
  dsimp only
  rw [parents]
  congr 2
  refine filter_congr fun p mem => ?_
  rw [self_parents_included grounded included (carries_of_mem mem)]

theorem support_map_included {parents : List (Message M S)}
    (carried : ∀ x ∈ parents, Carries msgMap x) (nextLayer : AList fun _ : S => Message M S)
    (finalized : Finset (Message M S)) :
    calculateNextFringeSupportMap larger parents nextLayer finalized =
      calculateNextFringeSupportMap msgMap parents nextLayer finalized := by
  unfold calculateNextFringeSupportMap
  refine foldl_ext _ _ _ fun result mv mem => ?_
  have seen : seenBy larger nextLayer finalized mv = seenBy msgMap nextLayer finalized mv := by
    unfold seenBy
    simp only [see_min_msg_included grounded included (carried mv mem)]
  dsimp only
  rw [seen]

variable (carried : ∀ j ∈ justifications, Carries msgMap j)
include carried

theorem next_fringe_included (bondsMap : BondsMap S) (prevFringe : Finset (Message M S)) :
    nextFringe larger justifications bondsMap prevFringe =
      nextFringe msgMap justifications bondsMap prevFringe := by
  have least : justifications.map (minMsg larger prevFringe) =
      justifications.map (minMsg msgMap prevFringe) :=
    map_congr_left fun j mem => min_msg_included grounded included (carried j mem) _
  have layer : calculateNextLayer larger (justifications.map (minMsg msgMap prevFringe)) =
      calculateNextLayer msgMap (justifications.map (minMsg msgMap prevFringe)) := by
    refine next_layer_included grounded included fun x mem => ?_
    obtain ⟨j, inside, same⟩ := mem_map.mp mem
    exact same ▸ min_msg_among (fun _ held => held) (carried j inside) prevFringe
  unfold nextFringe
  dsimp only
  rw [least, layer, support_map_included grounded included carried]

theorem finalization_loop_included
    (bondsMap : BondsMap S) (fuel more : Nat) (current : Finset (Message M S))
    (newFringe : Option (Finset (Message M S)))
    (ends : LoopEnds msgMap justifications bondsMap fuel current) :
    finalizationLoop larger justifications bondsMap (fuel + more) current newFringe =
      finalizationLoop msgMap justifications bondsMap fuel current newFringe := by
  induction fuel generalizing current newFringe with
  | zero => exact False.elim ends
  | succ _ ih =>
    rw [Nat.add_right_comm, finalizationLoop, finalizationLoop,
      next_fringe_included grounded included carried]
    cases found : nextFringe msgMap justifications bondsMap current with
    | none => rfl
    | some next =>
      dsimp only
      split_ifs with same
      · rfl
      · exact ih next (some next) ((ends next found).resolve_left same)

theorem finalization_included (bondsMap : BondsMap S)
    (ends : LoopEnds msgMap justifications bondsMap (msgMap.entries.length + 1)
      (latestFringe msgMap justifications)) :
    calculateFinalization larger justifications bondsMap =
      calculateFinalization msgMap justifications bondsMap := by
  have size : msgMap.entries.length ≤ larger.entries.length := by
    have bound : msgMap.keys.toFinset.card ≤ larger.entries.length :=
      card_le_entries fun id mem =>
        mem_included included (mem_keys.mpr (mem_toFinset.mp mem))
    rw [toFinset_card_of_nodup msgMap.keys_nodup] at bound
    exact (length_map _).symm.le.trans bound
  unfold calculateFinalization
  dsimp only
  rw [latest_fringe_included grounded included carried]
  obtain ⟨more, longer⟩ := Nat.exists_eq_add_of_le (Nat.add_le_add_right size 1)
  rw [longer, finalization_loop_included grounded included carried bondsMap _ more _ none ends]

end Local

section Merging

variable {M S : Type} [LinearOrder M] [DecidableEq S] {msgMap larger : MsgMap M S}
  (grounded : Grounded msgMap) (included : Includes msgMap larger)

include grounded included

theorem between_included {upper lower : Finset (Message M S)}
    (first : ∀ x ∈ upper, Carries msgMap x) (second : ∀ x ∈ lower, Carries msgMap x) :
    between larger upper lower = between msgMap upper lower := by
  have held {bound : Finset (Message M S)} (carried : ∀ x ∈ bound, Carries msgMap x) :
      ∀ id ∈ bound.biUnion (·.seen), id ∈ msgMap := by
    intro id mem
    obtain ⟨x, inside, seen⟩ := mem_biUnion.mp mem
    obtain ⟨key, found⟩ := carried x inside
    exact grounded.seen key x found id seen
  unfold between
  rw [messages_at_included included (held first), messages_at_included included (held second)]

theorem lowest_fringe_included {msgs : List (Message M S)}
    (carried : ∀ m ∈ msgs, Carries msgMap m) :
    lowestFringe larger msgs = lowestFringe msgMap msgs := by
  obtain ⟨same, inside⟩ := min_by_key_congr msgs fun m mem =>
    fringe_height_included grounded included (carried m mem)
  unfold lowestFringe
  rw [← same]
  cases chosen : minByKey (fringeHeight larger) msgs with
  | none => rfl
  | some j =>
    obtain ⟨id, found⟩ := carried j (inside j chosen)
    exact messages_at_included included (grounded.fringe id j found)

theorem prune_fringe_included {finalFringe : Finset M}
    {childMap other : AList fun _ : M => Finset M}
    (children : ∀ id ∈ finalFringe, other.lookup id = childMap.lookup id)
    (held : ∀ id ∈ finalFringe, ∀ child ∈ (childMap.lookup id).getD ∅, child ∈ msgMap) :
    pruneFringe larger finalFringe other = pruneFringe msgMap finalFringe childMap := by
  have same : (finalFringe.biUnion fun id => (other.lookup id).getD ∅) =
      finalFringe.biUnion fun id => (childMap.lookup id).getD ∅ :=
    biUnion_congr rfl fun id mem => by rw [children id mem]
  unfold pruneFringe
  rw [same, filter_map_included included fun child mem => ?_]
  · exact lowest_fringe_included grounded included fun m mem => carries_of_mem mem
  · obtain ⟨id, inside, among⟩ := mem_biUnion.mp (mem_elements.mp mem)
    exact held id inside child among

omit grounded included [DecidableEq S] in
theorem find_with_empty_parents_insert {id : M} {x : Message M S} (fresh : id ∉ msgMap)
    (cited : x.parents ≠ []) :
    findWithEmptyParents (msgMap.insert id x) = findWithEmptyParents msgMap := by
  have other {key : M} (different : key ≠ id) :
      (msgMap.insert id x).lookup key = msgMap.lookup key := lookup_insert_ne different
  have skipped : (((msgMap.insert id x).lookup id).any fun m => m.parents.isEmpty) = false := by
    rw [lookup_insert]
    simpa using cited
  have unknown : msgMap.lookup id = none := lookup_eq_none.mpr fresh
  have genesis : ((elements (msgMap.insert id x).keys.toFinset).filter fun key =>
        ((msgMap.insert id x).lookup key).any fun m => m.parents.isEmpty) =
      (elements msgMap.keys.toFinset).filter fun key =>
        (msgMap.lookup key).any fun m => m.parents.isEmpty := by
    refine filter_elements_congr fun key => ?_
    by_cases here : key = id
    · subst here
      rw [skipped, unknown]
      simp
    · rw [other here, mem_toFinset, mem_toFinset, ← AList.mem_keys, ← AList.mem_keys,
        AList.mem_insert]
      simp [here]
  unfold findWithEmptyParents
  rw [find?_filterMap, find?_filterMap, ← head?_filter, ← head?_filter, genesis]
  cases first : ((elements msgMap.keys.toFinset).filter fun key =>
      (msgMap.lookup key).any fun m => m.parents.isEmpty).head? with
  | none => rfl
  | some =>
    refine other fun same => ?_
    have mem := (mem_filter.mp (mem_of_head? first)).2
    rw [same, unknown] at mem
    cases mem

end Merging

end RChain.Dag
