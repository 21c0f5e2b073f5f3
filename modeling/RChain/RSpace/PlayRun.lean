import RChain.Lib.Runs
import RChain.RSpace.EventRefs
import RChain.RSpace.Matching
import RChain.RSpace.Replay

/-!
# What a run of the play space leaves behind

The invariants of a run of consumes and produces that replay depends on: every datum
carries the produce it came from, every continuation waits on the channels its consume
named, and no event that is still to come has happened. From them follows which of the
COMM events of a run can be formed before their time: none that needs a continuation or
a datum not there yet, and none that counts a produce that has not been repeated yet.
-/

namespace RChain.TupleSpace

open BitCodec Runs List Function

variable {C P A K Hash : Type} [DecidableEq C] [LinearOrder Hash]

def counted (counter : Hash → Nat) (persist : Bool) (produceRef : Produce Hash) : Hash → Nat :=
  if persist then counter else incrementCounter counter produceRef

def Operation.consumeHash (config : Config C P A K Hash) : Operation C P A K → Option Hash
  | .consume channels patterns continuation persist _ =>
    some (Consume.apply config channels patterns continuation persist).hash
  | .produce _ _ _ => none

/-- The hash of the produce of an operation, if it is persistent. -/
def Operation.persistentHash (config : Config C P A K Hash) : Operation C P A K → Option Hash
  | .consume _ _ _ _ _ => none
  | .produce channel data persist =>
    if persist then some (Produce.apply config channel data persist).hash else none

/-- Two operations have the same consume, or the same persistent produce. -/
def Repeats (config : Config C P A K Hash) (earlier later : Operation C P A K) : Prop :=
  (earlier.consumeHash config ≠ none ∧ earlier.consumeHash config = later.consumeHash config) ∨
    (earlier.persistentHash config ≠ none ∧
      earlier.persistentHash config = later.persistentHash config)

instance (config : Config C P A K Hash) (earlier later : Operation C P A K) :
    Decidable (Repeats config earlier later) :=
  inferInstanceAs (Decidable ((_ ∧ _) ∨ (_ ∧ _)))

/-- What holds of the rows before the operations of a run, for a relation between the hash of a
consume and the channels it names. -/
structure Ready (config : Config C P A K Hash) (named : Hash → List C → Prop)
    (space : Space C P A K Hash) (operations : List (Operation C P A K)) : Prop where
  sourced : ∀ channel, ∀ datum ∈ space.data channel,
    datum.source = Produce.apply config channel datum.a datum.persist
  known : ∀ channels, ∀ wc ∈ space.allContinuations channels,
    named wc.source.hash channels ∧ wc.patterns.length = channels.length
  joined : ∀ channel, ∀ join ∈ space.allJoins channel, channel ∈ join ∧ join.Nodup
  newConsumes : ∀ channels, ∀ wc ∈ space.allContinuations channels, ∀ operation ∈ operations,
    operation.consumeHash config ≠ some wc.source.hash
  newProduces : ∀ channel, ∀ datum ∈ space.data channel, ∀ operation ∈ operations,
    operation.persistentHash config ≠ some datum.source.hash
  unrepeated : operations.Pairwise fun earlier later => ¬ Repeats config earlier later
  listing : ∀ channels patterns continuation persist peeks,
    Operation.consume channels patterns continuation persist peeks ∈ operations →
      channels.Nodup ∧
        named (Consume.apply config channels patterns continuation persist).hash channels

/-- The error of a consume whose channels and patterns do not fit. -/
def refusal (channels : List C) (patterns : List P) : Option RSpaceError :=
  if channels = [] then some .channelsEmpty
  else if channels.length ≠ patterns.length then some .lengthMismatch
  else none

/-- What an operation of the play space does to the rows, the log and the counters. -/
inductive PlayStep (config : Config C P A K Hash) (space : Space C P A K Hash)
    (log : List (Event Hash)) (counter : Hash → Nat) :
    Operation C P A K → Except RSpaceError (ActionResult C P A K) →
      RSpace (Space C P A K Hash) Hash → Prop
  | refuse (channels : List C) (patterns : List P) (continuation : K) (persist : Bool)
      (peeks : IndexSet) (error : RSpaceError) (refused : refusal channels patterns = some error) :
      PlayStep config space log counter (.consume channels patterns continuation persist peeks)
        (.error error) ⟨space, log, counter⟩
  | wait (channels : List C) (patterns : List P) (continuation : K) (persist : Bool)
      (peeks : IndexSet) (accepted : refusal channels patterns = none)
      (unmatched : matchContinuation config.matcher channels
        (fun channel => some (sortedData (space.data channel))) patterns = none) :
      PlayStep config space log counter (.consume channels patterns continuation persist peeks)
        (.ok none)
        ⟨storeWaitingContinuation spaceStore channels ⟨patterns, continuation, persist, peeks,
            Consume.apply config channels patterns continuation persist⟩ space,
          Event.consume (Consume.apply config channels patterns continuation persist) :: log,
          counter⟩
  | take (channels : List C) (patterns : List P) (continuation : K) (persist : Bool)
      (peeks : IndexSet) (accepted : refusal channels patterns = none)
      (dataCandidates : List (ConsumeCandidate C A Hash))
      (matched : matchContinuation config.matcher channels
        (fun channel => some (sortedData (space.data channel))) patterns = some dataCandidates) :
      PlayStep config space log counter (.consume channels patterns continuation persist peeks)
        (.ok (wrapResult channels ⟨patterns, continuation, persist, peeks,
          Consume.apply config channels patterns continuation persist⟩ dataCandidates))
        ⟨storePersistentData spaceStore dataCandidates space,
          Event.comm (Comm.apply dataCandidates
              (Consume.apply config channels patterns continuation persist) peeks counter) ::
            Event.consume (Consume.apply config channels patterns continuation persist) :: log,
          counter⟩
  | store (channel : C) (data : A) (persist : Bool)
      (unmatched : produceCandidate config space channel
        ⟨data, persist, Produce.apply config channel data persist⟩ = none) :
      PlayStep config space log counter (.produce channel data persist) (.ok none)
        ⟨spaceStore.putDatum channel ⟨data, persist, Produce.apply config channel data persist⟩
            space,
          Event.produce (Produce.apply config channel data persist) :: log,
          counted counter persist (Produce.apply config channel data persist)⟩
  | fire (channel : C) (data : A) (persist : Bool) (pc : ProduceCandidate C P A K Hash)
      (selected : produceCandidate config space channel
        ⟨data, persist, Produce.apply config channel data persist⟩ = some pc) :
      PlayStep config space log counter (.produce channel data persist)
        (.ok (wrapResult pc.channels pc.continuation pc.dataCandidates))
        ⟨removeMatchedDatumAndJoin spaceStore pc.channels pc.dataCandidates
            (withoutMatched space pc),
          Event.comm (Comm.apply pc.dataCandidates pc.continuation.source pc.continuation.peeks
              (counted counter persist (Produce.apply config channel data persist))) ::
            Event.produce (Produce.apply config channel data persist) :: log,
          counted counter persist (Produce.apply config channel data persist)⟩

theorem consume_refused {State : Type} (config : Config C P A K Hash)
    (store : HotStore State C P A K Hash) {channels : List C} {patterns : List P}
    {error : RSpaceError} (refused : refusal channels patterns = some error) (continuation : K)
    (persist : Bool) (peeks : IndexSet) (space : RSpace State Hash) :
    consume config store channels patterns continuation persist peeks space =
      (.error error, space) := by
  unfold refusal at refused
  unfold consume
  split_ifs at refused ⊢
  · rw [Option.some.inj refused]
  · rw [Option.some.inj refused]

omit [DecidableEq C] in
theorem accepted_iff (channels : List C) (patterns : List P) :
    refusal channels patterns = none ↔ channels ≠ [] ∧ channels.length = patterns.length := by
  unfold refusal
  split_ifs with empty unequal
  · simp [empty]
  · simp [unequal]
  · simpa using ⟨empty, not_not.mp unequal⟩

theorem play_step (config : Config C P A K Hash) (space : Space C P A K Hash)
    (log : List (Event Hash)) (counter : Hash → Nat) (operation : Operation C P A K) :
    PlayStep config space log counter operation
      (perform config spaceStore ⟨space, log, counter⟩ operation).1
      (perform config spaceStore ⟨space, log, counter⟩ operation).2 := by
  cases operation with
  | consume channels patterns continuation persist peeks =>
    rw [perform]
    cases accepted : refusal channels patterns with
    | some error =>
      rw [consume_refused config spaceStore accepted]
      exact PlayStep.refuse channels patterns continuation persist peeks error accepted
    | none =>
      have fits := (accepted_iff channels patterns).mp accepted
      rw [consume_rows config space channels patterns continuation persist peeks log counter
        fits.1 fits.2]
      dsimp only
      cases matched : matchContinuation config.matcher channels
          (fun channel => some (sortedData (space.data channel))) patterns with
      | none => exact PlayStep.wait channels patterns continuation persist peeks accepted matched
      | some dataCandidates =>
        exact PlayStep.take channels patterns continuation persist peeks accepted
          dataCandidates matched
  | produce channel data persist =>
    rw [perform, produce_rows]
    dsimp only
    cases selected : produceCandidate config space channel
        ⟨data, persist, Produce.apply config channel data persist⟩ with
    | none => exact PlayStep.store channel data persist selected
    | some pc => exact PlayStep.fire channel data persist pc selected

variable {config : Config C P A K Hash} {space : Space C P A K Hash} {log : List (Event Hash)}
  {counter : Hash → Nat} {operation : Operation C P A K}
  {result : Except RSpaceError (ActionResult C P A K)} {next : RSpace (Space C P A K Hash) Hash}

section Step

variable {channel : C}

section

variable (step : PlayStep config space log counter operation result next)
include step

theorem step_continuations {channels : List C} {wc : WaitingContinuation P K Hash}
    (waiting : wc ∈ next.store.allContinuations channels) : wc ∈ space.allContinuations channels ∨
      ∃ patterns continuation persist peeks,
        operation = .consume channels patterns continuation persist peeks ∧
        channels.length = patterns.length ∧
        wc = ⟨patterns, continuation, persist, peeks,
          Consume.apply config channels patterns continuation persist⟩ := by
  cases step with
  | refuse | store => exact .inl waiting
  | wait listed patterns continuation persist peeks accepted =>
    rw [store_waiting_continuation_rows] at waiting
    by_cases same : channels = listed
    · subst same
      simp only [Space.allContinuations, update_self, mem_append, mem_cons] at waiting ⊢
      rcases waiting with installed | fresh | stored
      · exact .inl (.inl installed)
      · exact .inr ⟨patterns, continuation, persist, peeks, rfl,
          ((accepted_iff channels patterns).mp accepted).2, fresh⟩
      · exact .inl (.inr stored)
    · simp only [Space.allContinuations, update_of_ne same] at waiting
      exact .inl waiting
  | take =>
    rw [store_persistent_data_rows] at waiting
    exact .inl waiting
  | fire _ _ _ pc =>
    apply Or.inl
    rw [remove_matched_rows] at waiting
    simp only [Space.allContinuations, mem_append,
      (without_matched_joins space pc).2.2.1] at waiting ⊢
    exact waiting.imp_right fun stored => without_matched_subset space pc channels stored

theorem step_data {datum : Datum A Hash} (stored : datum ∈ next.store.data channel) :
    datum ∈ space.data channel ∨ ∃ data persist, operation = .produce channel data persist ∧
        datum = ⟨data, persist, Produce.apply config channel data persist⟩ := by
  cases step with
  | refuse => exact .inl stored
  | wait =>
    rw [store_waiting_continuation_rows] at stored
    exact .inl stored
  | take _ _ _ _ _ _ dataCandidates =>
    exact .inl (store_persistent_data_subset dataCandidates channel stored)
  | store produced data persist =>
    by_cases same : channel = produced
    · subst same
      simp only [spaceStore, update_self, mem_cons] at stored
      rcases stored with fresh | old
      · exact .inr ⟨data, persist, rfl, fresh⟩
      · exact .inl old
    · simp only [spaceStore, update_of_ne same] at stored
      exact .inl stored
  | fire _ _ _ pc =>
    have kept := (remove_matched_subset pc.channels pc.dataCandidates channel).1 stored
    rw [(without_matched_joins space pc).2.2.2.2] at kept
    exact .inl kept

theorem step_joins {join : List C} (joined : join ∈ next.store.allJoins channel) :
    join ∈ space.allJoins channel ∨ channel ∈ join ∧ ∃ patterns continuation persist peeks,
        operation = .consume join patterns continuation persist peeks := by
  cases step with
  | refuse | store => exact .inl joined
  | wait _ patterns continuation persist peeks =>
    rw [store_waiting_continuation_rows] at joined
    simp only [Space.allJoins, mem_append] at joined ⊢
    split_ifs at joined with mem
    · rw [mem_push_join] at joined
      rcases joined with installed | fresh | old
      · exact .inl (.inl installed)
      · subst fresh
        exact .inr ⟨mem, patterns, continuation, persist, peeks, rfl⟩
      · exact .inl (.inr old)
    · exact .inl joined
  | take =>
    rw [store_persistent_data_rows] at joined
    exact .inl joined
  | fire _ _ _ pc =>
    have rows := without_matched_joins space pc
    rw [Space.allJoins, remove_matched_rows, mem_append] at joined
    simp only [rows.2.1] at joined
    rw [Space.allJoins, mem_append]
    apply Or.inl
    apply joined.imp_right
    intro old
    have kept := (remove_matched_subset pc.channels pc.dataCandidates channel).2 old
    rwa [rows.1] at kept

omit step in
theorem counted_le (counter : Hash → Nat) (persist : Bool) (produceRef : Produce Hash)
    (hash : Hash) : counter hash ≤ counted counter persist produceRef hash := by
  unfold counted incrementCounter
  split_ifs
  · exact Nat.le_refl _
  · by_cases same : hash = produceRef.hash
    · subst same
      rw [update_self]
      omega
    · rw [update_of_ne same]

theorem step_counter (hash : Hash) : counter hash ≤ next.produceCounter hash := by
  cases step with
  | refuse | wait | take => exact Nat.le_refl _
  | store | fire => exact counted_le _ _ _ hash

theorem ready_step {named : Hash → List C → Prop} {operations : List (Operation C P A K)}
    (lawful : config.Lawful) (ready : Ready config named space (operation :: operations)) :
    Ready config named next.store operations := by
  have tail : ∀ other ∈ operations, other ∈ operation :: operations := fun other mem =>
    mem_cons_of_mem _ mem
  have repeats := pairwise_cons.mp ready.unrepeated
  constructor
  case sourced =>
    intro channel datum stored
    rcases step_data step stored with old | ⟨_, _, _, fresh⟩
    · exact ready.sourced channel datum old
    · rw [fresh]
  case known =>
    intro channels wc waiting
    rcases step_continuations step waiting with old | ⟨patterns, continuation, persist, peeks,
      performed, aligned, fresh⟩
    · exact ready.known channels wc old
    · subst fresh
      exact ⟨(ready.listing channels patterns continuation persist peeks
        (performed ▸ mem_cons_self)).2, aligned.symm⟩
  case joined =>
    intro channel join mem
    rcases step_joins step mem with old | ⟨listed, patterns, continuation, persist, peeks,
      performed⟩
    · exact ready.joined channel join old
    · exact ⟨listed, (ready.listing join patterns continuation persist peeks
        (performed ▸ mem_cons_self)).1⟩
  case newConsumes =>
    intro channels wc waiting other mem
    rcases step_continuations step waiting with old | ⟨_, _, _, _, performed, _, fresh⟩
    · exact ready.newConsumes channels wc old other (tail other mem)
    · intro same
      apply repeats.1 other mem
      subst performed
      subst fresh
      exact .inl ⟨Option.some_ne_none _, same.symm⟩
  case newProduces =>
    intro channel datum stored other mem
    rcases step_data step stored with old | ⟨_, persist, performed, fresh⟩
    · exact ready.newProduces channel datum old other (tail other mem)
    · intro same
      cases persist with
      | true =>
        apply repeats.1 other mem
        subst performed
        subst fresh
        exact .inr ⟨Option.some_ne_none _, same.symm⟩
      | false =>
        subst fresh
        cases other with
        | consume => exact absurd same (by nofun)
        | produce _ _ kept =>
          cases kept with
          | false => exact absurd same (by nofun)
          | true =>
            have equal := produce_hash_injective lawful (Option.some.inj same)
            exact absurd equal.2.2 (by decide)
  case unrepeated => exact repeats.2
  case listing =>
    intro channels patterns continuation persist peeks mem
    exact ready.listing channels patterns continuation persist peeks (tail _ mem)

end

end Step

section Comms

omit [DecidableEq C] in
theorem comm_apply_mem (dataCandidates : List (ConsumeCandidate C A Hash))
    (consumeRef : Consume Hash) (peeks : IndexSet) (counter : Hash → Nat) (hash : Hash) :
    hash ∈ (Comm.apply dataCandidates consumeRef peeks counter).produces.map (·.hash) ↔
      ∃ item ∈ dataCandidates, item.datum.source.hash = hash := by
  have perm := (sort_by_key_perm Produce.sortKey (dataCandidates.map (·.datum.source))).map (·.hash)
  rw [Comm.apply, perm.mem_iff, map_map, mem_map]
  rfl

omit [DecidableEq C] in
theorem comm_apply_repeated {dataCandidates : List (ConsumeCandidate C A Hash)}
    {consumeRef : Consume Hash} {peeks : IndexSet} {counter : Hash → Nat} {hash : Hash}
    (mem : hash ∈ (Comm.apply dataCandidates consumeRef peeks counter).produces.map (·.hash)) :
    (Comm.apply dataCandidates consumeRef peeks counter).repeated hash = counter hash := by
  simp only [Comm.apply, Comm.repeated] at mem ⊢
  rcases mem_map.mp mem with ⟨ref, listed, same⟩
  rw [find?_map]
  have found : ((sortByKey Produce.sortKey (dataCandidates.map (·.datum.source))).find?
      ((fun entry : Hash × Nat => decide (entry.1 = hash)) ∘
        fun p => (p.hash, counter p.hash))).isSome = true := by
    rw [find?_isSome]
    exact ⟨ref, listed, by simpa using same⟩
  rcases Option.isSome_iff_exists.mp found with ⟨_, first_found⟩
  rw [first_found]
  have accepted := find?_some first_found
  simp only [comp_apply, decide_eq_true_eq] at accepted
  simp [accepted]

/-- The data offered to the matcher carry the produces of their channels. -/
def SourcedData (config : Config C P A K Hash) (data : C → List (IndexedDatum A Hash)) : Prop :=
  ∀ channel, ∀ entry ∈ data channel,
    entry.1.source = Produce.apply config channel entry.1.a entry.1.persist

variable {channels : List C} {patterns : List P} {config : Config C P A K Hash}
  {space : Space C P A K Hash}

omit [DecidableEq C] in
theorem zip_pair_unique (distinct : channels.Nodup) {left right : C × P}
    (leftMember : left ∈ channels.zip patterns) (rightMember : right ∈ channels.zip patterns)
    (same : left.1 = right.1) : left = right := by
  have injective := inj_on_of_nodup_map (distinct.sublist (zip_fst_sublist channels patterns))
  exact injective leftMember rightMember same

omit [DecidableEq C] in
theorem exists_pair (aligned : patterns.length = channels.length) {channel : C}
    (mem : channel ∈ channels) :
    ∃ pattern, (channel, pattern) ∈ channels.zip patterns := by
  rcases getElem_of_mem mem with ⟨index, _, same⟩
  refine ⟨patterns[index], ?_⟩
  rw [← same]
  exact mem_iff_getElem.mpr ⟨index, by rw [length_zip]; omega, getElem_zip⟩

omit [LinearOrder Hash] in
theorem source_on_channel (lawful : config.Lawful) (distinct : channels.Nodup)
    {data : C → List (IndexedDatum A Hash)} (sourced : SourcedData config data)
    {items : List (ConsumeCandidate C A Hash)}
    (matched : matchContinuation config.matcher channels (fun c => some (data c)) patterns =
      some items) {pair : C × P} (mem : pair ∈ channels.zip patterns)
    {item : ConsumeCandidate C A Hash}
    (selected : selectDatum config.matcher pair.1 pair.2 (data pair.1) = some item) (value : A)
    (persist : Bool) :
    (∃ other ∈ items, other.datum.source.hash = (Produce.apply config pair.1 value persist).hash) ↔
      item.datum.source.hash = (Produce.apply config pair.1 value persist).hash := by
  constructor
  · rintro ⟨other, listed, same⟩
    rcases selected_of_mem distinct patterns data matched listed with ⟨origin, present, chosen⟩
    rcases exists_of_findSome?_eq_some chosen with ⟨entry, stored, accepted⟩
    rcases Option.map_eq_some_iff.mp accepted with ⟨_, _, made⟩
    have written : other.datum.source = Produce.apply config origin.1 entry.1.a entry.1.persist := by
      rw [← made]
      exact sourced origin.1 entry stored
    rw [written] at same
    have pairs := zip_pair_unique distinct present mem (produce_hash_injective lawful same).1
    subst pairs
    rw [selected] at chosen
    rw [Option.some.inj chosen, written]
    exact same
  · intro same
    rcases selected_of_pair distinct patterns data matched mem with ⟨other, listed, chosen⟩
    rw [selected] at chosen
    rw [Option.some.inj chosen] at same
    exact ⟨other, listed, same⟩

omit [LinearOrder Hash] in
theorem mem_indexed {data : List (Datum A Hash)} {entry : IndexedDatum A Hash}
    (mem : entry ∈ indexed data) : entry.1 ∈ data := by
  rcases mem_map.mp mem with ⟨_, listed, same⟩
  rw [← same]
  exact fst_mem_of_mem_zipIdx listed

theorem sorted_data_perm (data : List (Datum A Hash)) : (sortedData data).Perm (indexed data) :=
  sort_by_key_perm _ _

section

variable (sourced : ∀ channel, ∀ datum ∈ space.data channel,
  datum.source = Produce.apply config channel datum.a datum.persist)
include sourced

omit [DecidableEq C] in
theorem stored_sourced :
    SourcedData config fun channel => sortedData (space.data channel) := by
  intro channel entry mem
  exact sourced channel entry.1 (mem_indexed ((sorted_data_perm _).mem_iff.mp mem))

theorem offered_sourced {produced : C} {datum : Datum A Hash}
    (origin : datum.source = Produce.apply config produced datum.a datum.persist) :
    SourcedData config fun channel => withProduced produced datum channel (space.data channel) := by
  intro channel entry mem
  simp only [withProduced] at mem
  split_ifs at mem with same
  · subst same
    rcases mem_cons.mp mem with flight | stored
    · rw [flight, origin]
    · exact stored_sourced sourced channel entry stored
  · exact stored_sourced sourced channel entry mem

end

/-- Before a produce, no continuation that its joins show is complete already. -/
def Settled (config : Config C P A K Hash) (space : Space C P A K Hash) :
    Operation C P A K → Prop
  | .produce channel _ _ => ∀ join ∈ space.allJoins channel,
      ∀ wc ∈ space.allContinuations join, matchContinuation config.matcher join
        (fun c => some (sortedData (space.data c))) wc.patterns = none
  | .consume _ _ _ _ _ => True

instance (config : Config C P A K Hash) (space : Space C P A K Hash) :
    (operation : Operation C P A K) → Decidable (Settled config space operation)
  | .produce channel _ _ =>
    decidable_of_iff (∀ join ∈ space.allJoins channel, ∀ wc ∈ space.allContinuations join,
      (matchContinuation config.matcher join
        (fun c => some (sortedData (space.data c))) wc.patterns).isNone = true)
      (by simp only [Option.isNone_iff_eq_none, Settled])
  | .consume _ _ _ _ _ => isTrue trivial

section Fire

variable {channel : C} {data : A} {persist : Bool} {pc : ProduceCandidate C P A K Hash}
  {datum : Datum A Hash} {pattern : P}

section

variable (selected : produceCandidate config space channel datum = some pc)

include selected

theorem candidate_waiting : pc.continuation ∈ space.allContinuations pc.channels :=
  mem_of_getElem? (candidate_found config space selected).2.1

section

variable (distinct : pc.channels.Nodup)
  (settled : Settled config space (.produce channel data persist))
  (mem : (channel, pattern) ∈ pc.channels.zip pc.continuation.patterns)
include distinct settled mem

theorem flight_selected :
    ∃ item, candidateAt config.matcher channel pattern (datum, -1) = some item := by
  rcases candidate_found config space selected with ⟨joined, _, matched⟩
  by_contra missing
  have rejected : candidateAt config.matcher channel pattern (datum, -1) = none :=
    Option.eq_none_iff_forall_ne_some.mpr fun item same => missing ⟨item, same⟩
  have complete := match_some_of_select distinct pc.continuation.patterns
    (fun c => withProduced channel datum c (space.data c)) matched
    (fun c => sortedData (space.data c)) ?_
  · rw [settled pc.channels joined pc.continuation (candidate_waiting selected)] at complete
    exact absurd complete (by nofun)
  · intro _ listed _ _ chosen
    unfold withProduced at chosen
    split_ifs at chosen with same
    · have pairs := zip_pair_unique distinct listed mem same
      subst pairs
      rw [selectDatum, findSome?_cons, rejected] at chosen
      exact chosen
    · exact chosen

theorem flight_source :
    ∃ item ∈ pc.dataCandidates, item.datum.source = datum.source ∧
      selectDatum config.matcher channel pattern
        (withProduced channel datum channel (space.data channel)) = some item ∧
      candidateAt config.matcher channel pattern (datum, -1) = some item := by
  rcases flight_selected selected distinct settled mem with ⟨item, accepted⟩
  rcases selected_of_pair distinct pc.continuation.patterns
    (fun c => withProduced channel datum c (space.data c))
    (candidate_found config space selected).2.2 mem with ⟨other, listed, found⟩
  have same : other = item := by
    rw [withProduced, if_pos rfl, selectDatum, findSome?_cons, accepted] at found
    exact (Option.some.inj found).symm
  subst same
  refine ⟨other, listed, ?_, found, accepted⟩
  rcases Option.map_eq_some_iff.mp accepted with ⟨_, _, shape⟩
  rw [← shape]

end

end

end Fire

end Comms

section Later

/-- Why a COMM of a run can not be formed before the run, from these rows and counters: its
consume comes later, or it needs a produce that comes later. -/
def LaterComm (config : Config C P A K Hash) (named : Hash → List C → Prop)
    (space : Space C P A K Hash) (counter : Hash → Nat) (operations : List (Operation C P A K))
    (comm : Comm Hash) : Prop :=
  (∃ operation ∈ operations, operation.consumeHash config = some comm.consume.hash) ∨
    (∃ channels, ∃ wc ∈ space.allContinuations channels, wc.source.hash = comm.consume.hash) ∧
    ∃ channel data persist, Operation.produce channel data persist ∈ operations ∧
      (∃ channels, named comm.consume.hash channels ∧ channel ∈ channels) ∧
      (∀ value kept, (Produce.apply config channel value kept).hash ∈ comm.produces.map (·.hash) →
        (Produce.apply config channel data persist).hash =
          (Produce.apply config channel value kept).hash) ∧
      (persist = false →
        counter (Produce.apply config channel data persist).hash <
          comm.repeated (Produce.apply config channel data persist).hash)

variable {named : Hash → List C → Prop} {operations : List (Operation C P A K)} {comm : Comm Hash}

theorem later_of_step (lawful : config.Lawful)
    (ready : Ready config named space (operation :: operations))
    (settled : Settled config space operation)
    (step : PlayStep config space [] counter operation result next)
    (logged : comm ∈ commsOf next.eventLog) :
    LaterComm config named space counter (operation :: operations) comm := by
  cases step with
  | refuse | wait | store => exact absurd logged not_mem_nil
  | take =>
    have same := mem_singleton.mp logged
    subst same
    exact .inl ⟨_, mem_cons_self, rfl⟩
  | fire channel data persist pc selected =>
    have same := mem_singleton.mp logged
    subst same
    have waiting := candidate_waiting selected
    have found := candidate_found config space selected
    have join := ready.joined channel pc.channels found.1
    have known := ready.known pc.channels pc.continuation waiting
    rcases exists_pair known.2 join.1 with ⟨_, paired⟩
    rcases flight_source selected join.2 settled paired with ⟨item, listed, source, chosen, _⟩
    have mem : (Produce.apply config channel data persist).hash ∈
        (Comm.apply pc.dataCandidates pc.continuation.source pc.continuation.peeks
          (counted counter persist (Produce.apply config channel data persist))).produces.map
            (·.hash) :=
      (comm_apply_mem _ _ _ _ _).mpr ⟨item, listed, by rw [source]⟩
    refine .inr ⟨⟨pc.channels, pc.continuation, waiting, rfl⟩, channel, data, persist,
      mem_cons_self, ⟨pc.channels, known.1, join.1⟩, ?_, ?_⟩
    · intro value kept present
      rw [comm_apply_mem] at present
      have on_channel := (source_on_channel lawful join.2 (offered_sourced ready.sourced rfl)
        found.2.2 paired chosen value kept).mp present
      rw [source] at on_channel
      exact on_channel
    · intro plain
      subst plain
      rw [comm_apply_repeated mem, counted, if_neg Bool.false_ne_true, incrementCounter, update_self]
      exact Nat.lt_succ_self _

theorem later_comm_step (step : PlayStep config space log counter operation result next)
    (later : LaterComm config named next.store next.produceCounter operations comm) :
    LaterComm config named space counter (operation :: operations) comm := by
  rcases later with ⟨other, mem, same⟩ | ⟨⟨channels, wc, waiting, hash⟩, channel, data, persist,
    mem, place, only, repeated⟩
  · exact .inl ⟨other, mem_cons_of_mem _ mem, same⟩
  · rcases step_continuations step waiting with old | ⟨_, _, _, _, performed, _, fresh⟩
    · refine .inr ⟨⟨channels, wc, old, hash⟩, channel, data, persist,
        mem_cons_of_mem _ mem, place, only, ?_⟩
      intro plain
      exact Nat.lt_of_le_of_lt (step_counter step _) (repeated plain)
    · subst performed
      subst fresh
      exact .inl ⟨_, mem_cons_self, congrArg some hash⟩

end Later

end RChain.TupleSpace
