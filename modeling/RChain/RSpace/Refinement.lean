import RChain.RSpace.Play

/-!
# The operations on rows

A consume, a produce or an install reaches the store through the trait only. Two
stores that correspond under a map of states therefore give corresponding spaces and
equal results, and everything about the in-memory store can be read off the rows it
shows. The second half computes the operations on rows.
-/

namespace RChain.TupleSpace

open List Function

variable {State Other C P A K Hash : Type} [DecidableEq C]

def RSpace.map (map : State → Other) (space : RSpace State Hash) : RSpace Other Hash where
  store := map space.store
  eventLog := space.eventLog
  produceCounter := space.produceCounter

section Morphism

variable {source : HotStore State C P A K Hash} {target : HotStore Other C P A K Hash}
  {map : State → Other} (config : Config C P A K Hash)

section

variable (morphism : StoreMorphism source target map)

include morphism

theorem fetch_data_morphism (prepare : C → List (Datum A Hash) → List (IndexedDatum A Hash))
    (channels : List C) (state : State) :
    fetchData target prepare channels (map state) = ((fetchData source prepare channels state).1,
        map (fetchData source prepare channels state).2) := by
  unfold fetchData
  generalize (fun _ => none : C → Option (List (IndexedDatum A Hash))) = found
  induction channels generalizing state found with
  | nil => rfl
  | cons _ _ ih =>
    simp only [foldl_cons, morphism.getData]
    exact ih _ _

omit [DecidableEq C] in
theorem store_waiting_continuation_morphism (channels : List C) (wc : WaitingContinuation P K Hash)
    (state : State) :
    storeWaitingContinuation target channels wc (map state) =
      map (storeWaitingContinuation source channels wc state) := by
  rw [storeWaitingContinuation, morphism.putContinuation]
  exact foldl_hom map fun state channel => morphism.putJoin channel channels state

omit [DecidableEq C] in
theorem store_persistent_data_morphism (dataCandidates : List (ConsumeCandidate C A Hash))
    (state : State) :
    storePersistentData target dataCandidates (map state) =
      map (storePersistentData source dataCandidates state) := by
  refine foldl_hom map fun state _ => ?_
  split_ifs
  · rfl
  · exact morphism.removeDatum _ _ state

omit [DecidableEq C] in
theorem remove_matched_morphism (channels : List C)
    (dataCandidates : List (ConsumeCandidate C A Hash)) (state : State) :
    removeMatchedDatumAndJoin target channels dataCandidates (map state) =
      map (removeMatchedDatumAndJoin source channels dataCandidates state) := by
  refine foldl_hom map fun state _ => ?_
  split_ifs
  · rw [morphism.removeDatum, morphism.removeJoin]
  · exact morphism.removeJoin _ channels state

variable [LinearOrder Hash]

theorem search_joins_morphism
    (select : List (WaitingContinuation P K Hash × Nat) → List (WaitingContinuation P K Hash × Nat))
    (prepare : C → List (Datum A Hash) → List (IndexedDatum A Hash)) (grouped : List (List C))
    (state : State) :
    searchJoins config target select prepare grouped (map state) =
      ((searchJoins config source select prepare grouped state).1,
        map (searchJoins config source select prepare grouped state).2) := by
  induction grouped generalizing state with
  | nil => rfl
  | cons channels _ ih =>
    simp only [searchJoins, morphism.getContinuations, fetch_data_morphism morphism]
    cases extractFirstMatch config.matcher channels
        (select (source.getContinuations channels state).1.zipIdx)
        (fetchData source prepare channels (source.getContinuations channels state).2).1 with
    | some => rfl
    | none => exact ih _

section

variable (space : RSpace State Hash)
include space

theorem consume_morphism (channels : List C) (patterns : List P) (continuation : K) (persist : Bool)
    (peeks : IndexSet) :
    consume config target channels patterns continuation persist peeks (space.map map) =
      ((consume config source channels patterns continuation persist peeks space).1,
        (consume config source channels patterns continuation persist peeks space).2.map map) := by
  unfold consume
  split_ifs
  · rfl
  · rfl
  · simp only [lockedConsume, RSpace.map, RSpace.logConsume, RSpace.logComm,
      fetch_data_morphism morphism]
    cases matchContinuation config.matcher channels
        (fetchData source (fun _ => sortedData) channels space.store).1 patterns with
    | none => simp only [store_waiting_continuation_morphism morphism]
    | some => simp only [store_persistent_data_morphism morphism]

theorem produce_morphism (channel : C) (data : A) (persist : Bool) :
    produce config target channel data persist (space.map map) =
      ((produce config source channel data persist space).1,
        (produce config source channel data persist space).2.map map) := by
  simp only [produce, lockedProduce, RSpace.map, RSpace.logProduce, morphism.getJoins,
    extractProduceCandidate, search_joins_morphism config morphism]
  generalize searchJoins config source id _ _ _ = extracted
  cases extracted with
  | mk found searched =>
    cases found with
    | none => simp only [morphism.putDatum]
    | some =>
      simp only [processMatchFound, RSpace.logComm, morphism.removeContinuation, ← apply_ite map,
        remove_matched_morphism morphism]

theorem install_morphism (channels : List C) (patterns : List P) (continuation : K) :
    install config target channels patterns continuation (space.map map) =
      ((install config source channels patterns continuation space).1,
        (install config source channels patterns continuation space).2.map map) := by
  have joins : ∀ (join list : List C) (start : State),
      list.foldl (fun next channel => target.installJoin channel join next) (map start) =
        map (list.foldl (fun next channel => source.installJoin channel join next) start) :=
    fun join _ _ => foldl_hom map fun next channel => morphism.installJoin channel join next
  unfold install
  split_ifs
  · rfl
  · simp only [lockedInstall, RSpace.map, morphism.getContinuations, fetch_data_morphism morphism]
    split_ifs
    · rfl
    · cases matchContinuation config.matcher channels (fetchData source (fun _ => indexed) channels
            (source.getContinuations channels space.store).2).1 patterns with
      | some => rfl
      | none => simp only [morphism.installContinuation, joins]

theorem perform_morphism (operation : Operation C P A K) :
    perform config target (space.map map) operation = ((perform config source space operation).1,
        (perform config source space operation).2.map map) := by
  cases operation with
  | consume channels patterns continuation persist peeks =>
    exact consume_morphism config morphism space channels patterns continuation persist peeks
  | produce channel data persist => exact produce_morphism config morphism space channel data persist

theorem after_call_morphism (call : Call C P A K) :
    afterCall config target (space.map map) call = (afterCall config source space call).map map := by
  cases call with
  | operation operation =>
    exact congrArg Prod.snd (perform_morphism config morphism space operation)
  | install channels patterns continuation =>
    exact congrArg Prod.snd (install_morphism config morphism space channels patterns continuation)

end

end

end Morphism

section Rows

variable (config : Config C P A K Hash) (space : Space C P A K Hash)

section

variable (prepare : C → List (Datum A Hash) → List (IndexedDatum A Hash))
include prepare

theorem fetch_data_rows (channels : List C) :
    (fetchData spaceStore prepare channels space).2 = space ∧
      ∀ channel ∈ channels, (fetchData spaceStore prepare channels space).1 channel =
        some (prepare channel (space.data channel)) := by
  unfold fetchData
  suffices general : ∀ found : C → Option (List (IndexedDatum A Hash)),
      let rows := channels.foldl (fun acc channel =>
        let (data, next) := spaceStore.getData channel acc.2
        (update acc.1 channel (some (prepare channel data)), next)) (found, space)
      rows.2 = space ∧ ∀ channel, rows.1 channel =
        if channel ∈ channels then some (prepare channel (space.data channel))
        else found channel by
    refine ⟨(general _).1, ?_⟩
    intro _ mem
    rw [(general _).2, if_pos mem]
  intro found
  induction channels generalizing found with
  | nil => simp
  | cons head _ ih =>
    rcases ih (update found head (some (prepare head (space.data head)))) with
      ⟨state, rows⟩
    refine ⟨state, ?_⟩
    intro channel
    simp only [foldl_cons]
    refine (rows channel).trans ?_
    by_cases same : channel = head
    · subst same
      simp
    · simp [same]

theorem match_fetched_rows (channels : List C) (patterns : List P) :
    matchContinuation config.matcher channels (fetchData spaceStore prepare channels space).1
        patterns =
      matchContinuation config.matcher channels
        (fun channel => some (prepare channel (space.data channel))) patterns :=
  match_continuation_congr _ _ _ _ _ (fetch_data_rows space prepare channels).2

variable [LinearOrder Hash]

def searchJoin
    (select : List (WaitingContinuation P K Hash × Nat) → List (WaitingContinuation P K Hash × Nat))
    (prepare : C → List (Datum A Hash) → List (IndexedDatum A Hash)) (channels : List C) :
    Option (ProduceCandidate C P A K Hash) :=
  extractFirstMatch config.matcher channels (select (space.allContinuations channels).zipIdx)
    fun c => some (prepare c (space.data c))

/-- The candidate a produce on `channel` selects: that of the first join, in order, that has
one. -/
def produceCandidate (channel : C) (datum : Datum A Hash) :
    Option (ProduceCandidate C P A K Hash) :=
  (space.allJoins channel).findSome?
    (searchJoin config space id (withProduced channel datum))

theorem search_joins_rows
    (select : List (WaitingContinuation P K Hash × Nat) → List (WaitingContinuation P K Hash × Nat))
    (grouped : List (List C)) :
    searchJoins config spaceStore select prepare grouped space =
      (grouped.findSome? (searchJoin config space select prepare), space) := by
  induction grouped with
  | nil => rfl
  | cons channels grouped ih =>
    have rows := fetch_data_rows space prepare channels
    have same : extractFirstMatch config.matcher channels
        (select (spaceStore.getContinuations channels space).1.zipIdx)
        (fetchData spaceStore prepare channels (spaceStore.getContinuations channels space).2).1 =
        searchJoin config space select prepare channels := by
      unfold searchJoin extractFirstMatch
      apply congrArg (fun search => findSome? search _)
      funext candidate
      exact congrArg (Option.map _)
        (match_continuation_congr config.matcher channels candidate.1.patterns _ _ rows.2)
    simp only [searchJoins, findSome?_cons, same]
    cases searchJoin config space select prepare channels with
    | some pc => exact congrArg (Prod.mk (some pc)) rows.1
    | none =>
      refine Eq.trans ?_ ih
      exact congrArg (searchJoins config spaceStore select prepare grouped) rows.1

end

/-- A selected candidate is a continuation that a join of the channel shows at its index, with
the data its patterns match. -/
theorem candidate_found [LinearOrder Hash] {channel : C} {datum : Datum A Hash}
    {pc : ProduceCandidate C P A K Hash}
    (selected : produceCandidate config space channel datum = some pc) :
    pc.channels ∈ space.allJoins channel ∧
      (space.allContinuations pc.channels)[pc.continuationIndex]? = some pc.continuation ∧
      matchContinuation config.matcher pc.channels
        (fun c => some (withProduced channel datum c (space.data c))) pc.continuation.patterns =
          some pc.dataCandidates := by
  rcases exists_of_findSome?_eq_some selected with ⟨_, joined, found⟩
  rcases exists_of_findSome?_eq_some found with ⟨⟨_, _⟩, listed, matched⟩
  rcases Option.map_eq_some_iff.mp matched with ⟨_, complete, same⟩
  subst same
  have mem := (sort_by_key_perm _ _).mem_iff.mp listed
  exact ⟨joined, mem_zipIdx_iff_getElem?.mp mem, complete⟩

section Fields

variable {space} (channels : List C)
  (dataCandidates : List (ConsumeCandidate C A Hash))

theorem mem_push_join (row : List (List C)) (join other : List C) :
    other ∈ pushJoin row join ↔ other = join ∨ other ∈ row := by
  unfold pushJoin
  split_ifs with present
  · constructor
    · exact .inr
    · rintro (rfl | mem)
      · exact present
      · exact mem
  · exact mem_cons

theorem push_join_twice (row : List (List C)) (join : List C) :
    pushJoin (pushJoin row join) join = pushJoin row join := by
  by_cases present : join ∈ row
  · simp [pushJoin, present]
  · simp [pushJoin, present]

theorem store_waiting_continuation_rows (wc : WaitingContinuation P K Hash) :
    storeWaitingContinuation spaceStore channels wc space =
      { space with
        continuations :=
          update space.continuations channels (wc :: space.continuations channels)
        joins := fun channel =>
          if channel ∈ channels then pushJoin (space.joins channel) channels
          else space.joins channel } := by
  have general : ∀ (list : List C) (start : Space C P A K Hash),
      list.foldl (fun next channel => spaceStore.putJoin channel channels next) start =
        { start with
          joins := fun channel =>
            if channel ∈ list then pushJoin (start.joins channel) channels
            else start.joins channel } := by
    intro list start
    induction list generalizing start with
    | nil => simp
    | cons head _ ih =>
      rw [foldl_cons, ih]
      simp only [spaceStore, Space.mk.injEq, true_and, and_true]
      funext channel
      by_cases same : channel = head
      · subst same
        simp [push_join_twice]
      · simp [same]
  exact general channels _

theorem store_persistent_data_rows :
    storePersistentData spaceStore dataCandidates space =
      { space with data := (storePersistentData spaceStore dataCandidates space).data } := by
  refine store_persistent_keeps
    (fun next : Space C P A K Hash => next = { space with data := next.data })
    (fun channel index next same => ?_) dataCandidates rfl
  rw [same]
  rfl

theorem remove_matched_rows :
    removeMatchedDatumAndJoin spaceStore channels dataCandidates space =
      { space with
        data := (removeMatchedDatumAndJoin spaceStore channels dataCandidates space).data
        joins := (removeMatchedDatumAndJoin spaceStore channels dataCandidates space).joins } := by
  refine remove_matched_keeps
    (fun next : Space C P A K Hash => next = { space with data := next.data, joins := next.joins })
    (fun channel index next same => ?_) (fun channel next same => ?_) dataCandidates rfl
  · rw [same]
    rfl
  · rw [same]
    rfl

theorem mem_remove_matched_joins (channel : C) {join : List C} (other : join ≠ channels) :
    join ∈ (removeMatchedDatumAndJoin spaceStore channels dataCandidates space).joins channel ↔
      join ∈ space.joins channel := by
  refine remove_matched_keeps
    (fun next : Space C P A K Hash => join ∈ next.joins channel ↔ join ∈ space.joins channel)
    (fun _ _ _ kept => kept) (fun place next kept => ?_) dataCandidates Iff.rfl
  rw [← kept]
  by_cases same : channel = place
  · subst same
    simp only [spaceStore, update_self]
    exact mem_erase_of_ne other
  · simp only [spaceStore, update_of_ne same]

theorem install_joins_rows (join list : List C) :
    list.foldl (fun next channel => spaceStore.installJoin channel join next) space =
      { space with
        installedJoins := fun channel =>
          if channel ∈ list then pushJoin (space.installedJoins channel) join
          else space.installedJoins channel } := by
  induction list generalizing space with
  | nil => simp
  | cons head _ ih =>
    rw [foldl_cons, ih]
    simp only [spaceStore, Space.mk.injEq, true_and]
    funext channel
    by_cases same : channel = head
    · subst same
      simp [push_join_twice]
    · simp [same]

/-- The rows after the matched continuation was taken out, if it is not kept. -/
def withoutMatched (space : Space C P A K Hash) (pc : ProduceCandidate C P A K Hash) :
    Space C P A K Hash :=
  if pc.continuation.persist then space
  else spaceStore.removeContinuation pc.channels pc.continuationIndex space

theorem without_matched_joins (space : Space C P A K Hash) (pc : ProduceCandidate C P A K Hash) :
    (withoutMatched space pc).joins = space.joins ∧
      (withoutMatched space pc).installedJoins = space.installedJoins ∧
      (withoutMatched space pc).installedContinuations = space.installedContinuations ∧
      (∀ other, other ≠ pc.channels →
        (withoutMatched space pc).continuations other = space.continuations other) ∧
      (withoutMatched space pc).data = space.data := by
  unfold withoutMatched
  split_ifs
  · exact ⟨rfl, rfl, rfl, fun _ _ => rfl, rfl⟩
  · simp only [spaceStore]
    split_ifs
    · exact ⟨rfl, rfl, rfl, fun _ _ => rfl, rfl⟩
    · refine ⟨rfl, rfl, rfl, ?_, rfl⟩
      intro _ different
      simp only [update_of_ne different]

theorem remove_datum_subset (channel place : C) (index : Int) (space : Space C P A K Hash) :
    (spaceStore.removeDatum place index space).data channel ⊆ space.data channel := by
  by_cases same : channel = place
  · subst same
    simp only [spaceStore, update_self, removeAt]
    split_ifs
    · exact (eraseIdx_sublist _ _).subset
    · exact List.Subset.refl _
  · simp only [spaceStore, update_of_ne same]
    exact List.Subset.refl _

theorem store_persistent_data_subset (channel : C) :
    (storePersistentData spaceStore dataCandidates space).data channel ⊆ space.data channel :=
  store_persistent_keeps (fun next : Space C P A K Hash => next.data channel ⊆ space.data channel)
    (fun place index next kept => List.Subset.trans (remove_datum_subset channel place index next) kept)
    dataCandidates (List.Subset.refl _)

theorem remove_matched_subset (channel : C) :
    (removeMatchedDatumAndJoin spaceStore channels dataCandidates space).data channel ⊆
        space.data channel ∧
      (removeMatchedDatumAndJoin spaceStore channels dataCandidates space).joins channel ⊆
        space.joins channel := by
  refine remove_matched_keeps (fun next : Space C P A K Hash =>
      next.data channel ⊆ space.data channel ∧ next.joins channel ⊆ space.joins channel)
    (fun place index next kept =>
      ⟨List.Subset.trans (remove_datum_subset channel place index next) kept.1, kept.2⟩)
    (fun place next kept => ⟨kept.1, List.Subset.trans ?_ kept.2⟩) dataCandidates
    ⟨List.Subset.refl _, List.Subset.refl _⟩
  by_cases same : channel = place
  · subst same
    simp only [spaceStore, update_self]
    exact erase_subset
  · simp only [spaceStore, update_of_ne same]
    exact List.Subset.refl _

theorem without_matched_subset (space : Space C P A K Hash) (pc : ProduceCandidate C P A K Hash)
    (channels : List C) :
    (withoutMatched space pc).continuations channels ⊆ space.continuations channels := by
  unfold withoutMatched
  split_ifs
  · exact List.Subset.refl _
  · simp only [spaceStore]
    split_ifs
    · exact List.Subset.refl _
    · by_cases same : channels = pc.channels
      · subst same
        simp only [update_self]
        exact (eraseIdx_sublist _ _).subset
      · simp only [update_of_ne same]
        exact List.Subset.refl _

end Fields

variable [LinearOrder Hash]

theorem consume_rows (channels : List C) (patterns : List P) (continuation : K) (persist : Bool)
    (peeks : IndexSet) (log : List (Event Hash)) (counter : Hash → Nat)
    (nonempty : channels ≠ []) (aligned : channels.length = patterns.length) :
    consume config spaceStore channels patterns continuation persist peeks ⟨space, log, counter⟩ =
      let consumeRef := Consume.apply config channels patterns continuation persist
      let wk : WaitingContinuation P K Hash := ⟨patterns, continuation, persist, peeks, consumeRef⟩
      match matchContinuation config.matcher channels
          (fun channel => some (sortedData (space.data channel))) patterns with
      | none =>
        (.ok none, ⟨storeWaitingContinuation spaceStore channels wk space,
          Event.consume consumeRef :: log, counter⟩)
      | some dataCandidates =>
        (.ok (wrapResult channels wk dataCandidates),
          ⟨storePersistentData spaceStore dataCandidates space,
            Event.comm (Comm.apply dataCandidates consumeRef peeks counter) ::
              Event.consume consumeRef :: log, counter⟩) := by
  simp only [consume, if_neg nonempty, aligned, ne_eq, not_true_eq_false, if_false, lockedConsume,
    RSpace.logConsume, RSpace.logComm, match_fetched_rows,
    (fetch_data_rows space (fun _ => sortedData) channels).1]
  cases matchContinuation config.matcher channels
      (fun channel => some (sortedData (space.data channel))) patterns with
  | none | some => rfl

theorem produce_rows (channel : C) (data : A) (persist : Bool) (log : List (Event Hash))
    (counter : Hash → Nat) :
    produce config spaceStore channel data persist ⟨space, log, counter⟩ =
      let produceRef := Produce.apply config channel data persist
      let datum : Datum A Hash := ⟨data, persist, produceRef⟩
      let logged : RSpace (Space C P A K Hash) Hash :=
        RSpace.logProduce ⟨space, log, counter⟩ produceRef persist
      match produceCandidate config space channel datum with
      | none => (.ok none, { logged with store := spaceStore.putDatum channel datum space })
      | some pc =>
        (.ok (processMatchFound spaceStore pc logged).1, (processMatchFound spaceStore pc logged).2) := by
  have candidate : extractProduceCandidate config spaceStore channel
      ⟨data, persist, Produce.apply config channel data persist⟩ (space.allJoins channel) space =
        (produceCandidate config space channel
          ⟨data, persist, Produce.apply config channel data persist⟩, space) :=
    search_joins_rows config space _ _ _
  have joins : spaceStore.getJoins channel space = (space.allJoins channel, space) := rfl
  simp only [produce, lockedProduce, joins, candidate]
  cases produceCandidate config space channel
      ⟨data, persist, Produce.apply config channel data persist⟩ with
  | none | some => rfl

theorem install_rows (channels : List C) (patterns : List P) (continuation : K)
    (log : List (Event Hash)) (counter : Hash → Nat) :
    let consumeRef := Consume.apply config channels patterns continuation true
    let wc : WaitingContinuation P K Hash :=
      ⟨patterns, continuation, true, IndexSet.empty, consumeRef⟩
    (install config spaceStore channels patterns continuation ⟨space, log, counter⟩).2 =
        ⟨space, log, counter⟩ ∨
      (install config spaceStore channels patterns continuation ⟨space, log, counter⟩).2 =
        ⟨{ space with
            installedContinuations :=
              update space.installedContinuations channels (some wc)
            installedJoins := fun channel =>
              if channel ∈ channels then pushJoin (space.installedJoins channel) channels
              else space.installedJoins channel }, log, counter⟩ := by
  intro _ _
  have fetched := (fetch_data_rows space (fun _ => indexed) channels).1
  have read : spaceStore.getContinuations channels space =
      (space.allContinuations channels, space) := rfl
  simp only [install, lockedInstall, read]
  split_ifs
  · exact .inl rfl
  · exact .inl rfl
  · cases matchContinuation config.matcher channels
        (fetchData spaceStore (fun _ => indexed) channels space).1 patterns with
    | some => exact .inl (by rw [fetched])
    | none =>
      apply Or.inr
      simp only [fetched, install_joins_rows]
      rfl

end Rows

end RChain.TupleSpace
