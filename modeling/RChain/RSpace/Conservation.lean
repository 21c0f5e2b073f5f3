import RChain.RSpace.RowAgreement

/-!
# What a match takes

A match reports the data it used. Of these it removes one stored copy for each that is not
persistent, whatever order the indices come in; everything else stays where it was.
-/

namespace RChain.TupleSpace

variable {C P A K Hash : Type} [DecidableEq C] [LinearOrder Hash] {config : Config C P A K Hash}

/-- Whatever is installed is persistent. -/
def InstalledPersist (space : Space C P A K Hash) : Prop :=
  ∀ channels wk, space.installedContinuations channels = some wk → wk.persist = true

omit [LinearOrder Hash] in
theorem fire_installed (space : Space C P A K Hash) (pc : ProduceCandidate C P A K Hash) :
    (removeMatchedDatumAndJoin spaceStore pc.channels pc.dataCandidates
      (withoutMatched space pc)).installedContinuations = space.installedContinuations := by
  rw [remove_matched_rows]
  exact (without_matched_joins space pc).2.2.1

theorem call_installed_persist {space : RSpace (Space C P A K Hash) Hash}
    (installed : InstalledPersist space.store) (call : Call C P A K) :
    InstalledPersist (afterCall config spaceStore space call).store := by
  cases call with
  | operation operation =>
    suffices same : (perform config spaceStore space operation).2.store.installedContinuations =
        space.store.installedContinuations by
      intro channels wk found
      exact installed channels wk (same ▸ found)
    cases operation with
    | consume channels patterns continuation persist peeks =>
      by_cases nonempty : channels = []
      · simp [perform, consume, nonempty]
      by_cases aligned : channels.length = patterns.length
      · simp only [perform, consume_rows config space.store channels patterns continuation persist
          peeks space.eventLog space.produceCounter nonempty aligned]
        split
        · rw [store_waiting_continuation_rows]
        · rw [store_persistent_data_rows]
      · simp [perform, consume, nonempty, aligned]
    | produce channel data persist =>
      simp only [perform, produce_rows config space.store channel data persist space.eventLog
        space.produceCounter]
      split
      · rfl
      · exact fire_installed space.store _
  | install channels patterns continuation =>
    rcases install_rows config space.store channels patterns continuation space.eventLog
      space.produceCounter with same | same
    · rw [afterCall, same]
      exact installed
    · rw [afterCall, same]
      intro other wk found
      by_cases here : other = channels
      · subst here
        simp only [Function.update_self, Option.some.injEq] at found
        rw [← found]
      · simp only [Function.update_of_ne here] at found
        exact installed other wk found

theorem run_installed_persist (config : Config C P A K Hash) (reader : HistoryReader C P A K Hash)
    (calls : List (Call C P A K)) :
    InstalledPersist (view reader
      (calls.foldl (afterCall config (inMemHotStore reader)) RSpace.fresh).store) := by
  suffices general : ∀ space : RSpace (HotStoreState C P A K Hash) Hash,
      InstalledPersist (view reader space.store) → InstalledPersist (view reader
        (calls.foldl (afterCall config (inMemHotStore reader)) space).store) from
    general _ fun _ _ found => by cases found
  induction calls with
  | nil => exact fun _ installed => installed
  | cons call _ ih =>
    intro space installed
    apply ih
    have same := after_call_morphism config (view_morphism reader) space call
    have stepped : InstalledPersist (afterCall config spaceStore
        (space.map (view reader)) call).store := call_installed_persist installed call
    rwa [same] at stepped

/-- One stored copy of each matched datum that is not persistent is gone, and no other datum. -/
def DataTaken (items : List (ConsumeCandidate C A Hash)) (before after : Space C P A K Hash) : Prop :=
  ∀ channel, (before.data channel).Perm (storedOn channel items ++ after.data channel)

/-- The candidate is the datum at its index in the row of its channel. -/
def ConsumeCandidate.Stored (before : Space C P A K Hash) (item : ConsumeCandidate C A Hash) : Prop :=
  0 ≤ item.datumIndex ∧
    (before.data item.channel)[item.datumIndex.toNat]? = some item.entry.1

/-- A consume reports data of the rows only; a produce also the datum that it sends, and that once
unless it is persistent. -/
def Placed (config : Config C P A K Hash) (before : Space C P A K Hash)
    (items : List (ConsumeCandidate C A Hash)) : Operation C P A K → Prop
  | .consume .. => ∀ item ∈ items, item.Stored before
  | .produce channel data persist =>
    (∀ item ∈ items, item.Stored before ∨ item.channel = channel ∧
      item.entry = (⟨data, persist, Produce.apply config channel data persist⟩, -1)) ∧
    (persist = false → (items.filter fun item => item.datumIndex < 0).length ≤ 1)

/-- A produce takes the continuation it reports once, unless it is persistent; a consume takes none,
as its own was never stored. -/
def ContinuationTaken (result : ContResult C P K) (before after : Space C P A K Hash) :
    Operation C P A K → Prop
  | .consume .. => after.allContinuations = before.allContinuations
  | .produce .. => ∃ wk ∈ before.allContinuations result.channels,
      wk.continuation = result.continuation ∧ wk.patterns = result.patterns ∧
      wk.persist = result.persistent ∧
      (∀ other, other ≠ result.channels →
        after.allContinuations other = before.allContinuations other) ∧
      if wk.persist then
        after.allContinuations result.channels = before.allContinuations result.channels
      else (before.allContinuations result.channels).Perm
        (wk :: after.allContinuations result.channels)

theorem fire_takes {space : Space C P A K Hash} (installed : InstalledPersist space) {channel : C}
    {datum : Datum A Hash} {pc : ProduceCandidate C P A K Hash}
    (selected : produceCandidate config space channel datum = some pc) :
    let after := removeMatchedDatumAndJoin spaceStore pc.channels pc.dataCandidates
      (withoutMatched space pc)
    DataTaken pc.dataCandidates space after ∧ (∀ other, other ≠ pc.channels →
        after.allContinuations other = space.allContinuations other) ∧
      if pc.continuation.persist then
        after.allContinuations pc.channels = space.allContinuations pc.channels
      else (space.allContinuations pc.channels).Perm
        (pc.continuation :: after.allContinuations pc.channels) := by
  intro after
  obtain ⟨_, waiting, matched⟩ := candidate_found config space selected
  obtain ⟨_, _, _, others, data⟩ := without_matched_joins space pc
  have rows : after.continuations = (withoutMatched space pc).continuations := by
    simp only [after]
    rw [remove_matched_rows]
  have fixed : after.installedContinuations = space.installedContinuations :=
    fire_installed space pc
  refine ⟨fun c => ?_, fun other different => ?_, ?_⟩
  · simp only [after]
    rw [remove_matched_data_row, data]
    exact row_without_perm matched (produced_indexes channel datum c (space.data c))
  · rw [Space.allContinuations, Space.allContinuations, rows, fixed, others other different]
  · rw [Space.allContinuations, Space.allContinuations, rows, fixed]
    split_ifs with kept
    · rw [withoutMatched, if_pos kept]
    · have split := without_matched_row (fun wk => installed pc.channels wk) waiting
        (by simpa using kept)
      exact (split.append_left _).trans List.perm_middle

omit [DecidableEq C] in
/-- A candidate among stored data is stored. -/
theorem stored_of_sorted {space : Space C P A K Hash} {item : ConsumeCandidate C A Hash}
    (listed : item.entry ∈ sortedData (space.data item.channel)) : item.Stored space :=
  ⟨sorted_nonneg listed, (sorted_indexes _).stored item.entry listed (sorted_nonneg listed)⟩

theorem consume_placed {space : Space C P A K Hash} {channels : List C} {patterns : List P}
    {items : List (ConsumeCandidate C A Hash)}
    (matched : matchContinuation config.matcher channels
      (fun c => some (sortedData (space.data c))) patterns = some items) :
    ∀ item ∈ items, item.Stored space := fun item mem => stored_of_sorted
  ((extract_taken _ _ items ((collect_eq_some_iff _ _).mp matched) _ _ rfl).2 item mem rfl)

theorem produce_placed {space : Space C P A K Hash} {channel : C} {data : A} {persist : Bool}
    {channels : List C} {patterns : List P} {items : List (ConsumeCandidate C A Hash)}
    (matched : matchContinuation config.matcher channels (fun c => some (withProduced channel
      ⟨data, persist, Produce.apply config channel data persist⟩ c (space.data c))) patterns =
        some items) :
    Placed config space items (.produce channel data persist) := by
  have extracted := (collect_eq_some_iff _ _).mp matched
  have placed : ∀ item ∈ items, item.Stored space ∨ item.channel = channel ∧
      item.entry = (⟨data, persist, Produce.apply config channel data persist⟩, -1) := by
    intro item mem
    have listed := (extract_taken _ _ items extracted item.channel _ rfl).2 item mem rfl
    unfold withProduced at listed
    split_ifs at listed with here
    · rcases List.mem_cons.mp listed with sent | stored
      · exact Or.inr ⟨here, sent⟩
      · exact Or.inl (stored_of_sorted stored)
    · exact Or.inl (stored_of_sorted listed)
  refine ⟨placed, fun plain => ?_⟩
  -- what is in flight is taken on the channel, where one datum of negative index is offered
  obtain ⟨rest, split⟩ := (extract_taken _ _ items extracted channel _ rfl).1
  have flying : items.filter (fun item => item.datumIndex < 0) =
      (takenOn channel items).filter fun item => item.datumIndex < 0 := by
    rw [takenOn, List.filter_filter]
    refine List.filter_congr fun item mem => ?_
    rcases placed item mem with stored | ⟨here, sent⟩
    · have away : ¬ item.datumIndex < 0 := not_lt.mpr stored.1
      simp [away]
    · have kept : item.datum.persist = persist := congrArg (fun entry => entry.1.persist) sent
      simp [here, kept, plain]
  have offered : ((withProduced channel ⟨data, persist, Produce.apply config channel data persist⟩
      channel (space.data channel)).filter fun entry => entry.2 < 0).length = 1 := by
    have none : (sortedData (space.data channel)).filter (fun entry => entry.2 < 0) = [] :=
      List.filter_eq_nil_iff.mpr fun entry mem => by simpa using sorted_nonneg mem
    rw [withProduced, if_pos rfl, List.filter_cons_of_pos rfl, none]
    rfl
  have counted := (split.filter fun entry => entry.2 < 0).length_eq
  rw [offered, List.filter_append, List.length_append, List.filter_map, List.length_map] at counted
  rw [flying]
  exact (Nat.le_add_right _ _).trans counted.ge

/-- The results a match reports. -/
def reported (items : List (ConsumeCandidate C A Hash)) : List (Result C A) :=
  items.map fun item => ⟨item.channel, item.datum.a, item.removedDatum, item.datum.persist⟩

theorem perform_takes {space : Space C P A K Hash} (installed : InstalledPersist space)
    (log : List (Event Hash)) (counter : Hash → Nat) (operation : Operation C P A K)
    {result : ContResult C P K × List (Result C A)}
    (fired : (perform config spaceStore ⟨space, log, counter⟩ operation).1 = .ok (some result)) :
    let after := (perform config spaceStore ⟨space, log, counter⟩ operation).2.store
    ∃ items, result.2 = reported items ∧ Placed config space items operation ∧
      DataTaken items space after ∧ ContinuationTaken result.1 space after operation := by
  cases operation with
  | consume channels patterns continuation persist peeks =>
    by_cases nonempty : channels = []
    · simp [perform, consume, nonempty] at fired
    by_cases aligned : channels.length = patterns.length
    · simp only [perform, consume_rows config space channels patterns continuation persist peeks
        log counter nonempty aligned] at fired ⊢
      split at fired
      · cases fired
      · rename_i items matched
        cases fired
        refine ⟨items, rfl, consume_placed matched, fun channel => ?_, ?_⟩
        · rw [store_persistent_data_row]
          exact row_without_perm matched (sorted_indexes (space.data channel))
        · rw [ContinuationTaken, store_persistent_data_rows]
          rfl
    · simp [perform, consume, nonempty, aligned] at fired
  | produce channel data persist =>
    simp only [perform, produce_rows config space channel data persist log counter] at fired ⊢
    split at fired
    · cases fired
    · rename_i pc selected
      cases fired
      obtain ⟨_, waiting, matched⟩ := candidate_found config space selected
      obtain ⟨taken, others, own⟩ := fire_takes installed selected
      exact ⟨pc.dataCandidates, rfl, produce_placed matched, taken, pc.continuation,
        List.mem_of_getElem? waiting, rfl, rfl, rfl, others, own⟩

/-- Data conservation, for every match after any calls over any history. -/
theorem match_conserves (config : Config C P A K Hash) (reader : HistoryReader C P A K Hash)
    (calls : List (Call C P A K)) (operation : Operation C P A K)
    (result : ContResult C P K × List (Result C A)) :
    let space := calls.foldl (afterCall config (inMemHotStore reader)) RSpace.fresh
    let step := perform config (inMemHotStore reader) space operation
    step.1 = .ok (some result) → ∃ items, result.2 = reported items ∧
        Placed config (view reader space.store) items operation ∧
        DataTaken items (view reader space.store) (view reader step.2.store) ∧
        ContinuationTaken result.1 (view reader space.store) (view reader step.2.store) operation := by
  intro space step fired
  have same := perform_morphism config (view_morphism reader) space operation
  have result_same : (perform config spaceStore (space.map (view reader)) operation).1 =
      .ok (some result) := (congrArg Prod.fst same).trans fired
  have rows := perform_takes (run_installed_persist config reader calls) _ _ operation result_same
  have after : (perform config spaceStore (space.map (view reader)) operation).2.store =
      view reader step.2.store := congrArg (fun outcome => outcome.2.store) same
  rw [← after]
  exact rows

/-- Two equal data on channel 1. -/
def twiceCalls : List (Call Nat Nat Nat Nat) :=
  [.operation (.produce 1 5 false), .operation (.produce 1 5 false)]

/-- A join that reads channel 1 twice. -/
def waitingCalls : List (Call Nat Nat Nat Nat) :=
  twiceCalls ++ [.operation (.consume [1, 1, 2] [0, 0, 0] 7 false IndexSet.empty)]

def sampleAfter (calls : List (Call Nat Nat Nat Nat)) :
    RSpace (HotStoreState Nat Nat Nat Nat (List BitCodec.Byte)) (List BitCodec.Byte) :=
  calls.foldl (afterCall naturalConfig (inMemHotStore HistoryReader.empty)) RSpace.fresh

def sampleStep (calls : List (Call Nat Nat Nat Nat)) (operation : Operation Nat Nat Nat Nat) :
    Except RSpaceError (ActionResult Nat Nat Nat Nat) ×
      RSpace (HotStoreState Nat Nat Nat Nat (List BitCodec.Byte)) (List BitCodec.Byte) :=
  perform naturalConfig (inMemHotStore HistoryReader.empty) (sampleAfter calls) operation

/-- A consume takes both data, and so does a produce that completes the join. -/
theorem match_conserves_twice :
    (view HistoryReader.empty (sampleStep twiceCalls
      (.consume [1, 1] [0, 0] 7 false IndexSet.empty)).2.store).data 1 = [] ∧
    (view HistoryReader.empty (sampleStep waitingCalls (.produce 2 6 false)).2.store).data 1 = [] ∧
    (∃ result items, (sampleStep twiceCalls (.consume [1, 1] [0, 0] 7 false IndexSet.empty)).1 =
        .ok (some result) ∧ result.2 = reported items ∧
      (∀ item ∈ items, item.Stored (view HistoryReader.empty (sampleAfter twiceCalls).store)) ∧
      DataTaken items (view HistoryReader.empty (sampleAfter twiceCalls).store)
        (view HistoryReader.empty (sampleStep twiceCalls
          (.consume [1, 1] [0, 0] 7 false IndexSet.empty)).2.store)) ∧
    ∃ result items, (sampleStep waitingCalls (.produce 2 6 false)).1 = .ok (some result) ∧
      result.2 = reported items ∧ (items.filter fun item => item.datumIndex < 0).length ≤ 1 ∧
      DataTaken items (view HistoryReader.empty (sampleAfter waitingCalls).store)
        (view HistoryReader.empty (sampleStep waitingCalls (.produce 2 6 false)).2.store) := by
  have taken : (sampleStep twiceCalls
      (.consume [1, 1] [0, 0] 7 false IndexSet.empty)).1.toOption.join.isSome = true := by
    decide +kernel
  have completed : (sampleStep waitingCalls (.produce 2 6 false)).1.toOption.join.isSome = true := by
    decide +kernel
  have fired (step : Except RSpaceError (ActionResult Nat Nat Nat Nat))
      (some_ : step.toOption.join.isSome = true) : ∃ result, step = .ok (some result) := by
    rcases step with _ | _ | result
    · cases some_
    · cases some_
    · exact ⟨result, rfl⟩
  obtain ⟨consumed, consumedResult⟩ := fired _ taken
  obtain ⟨produced, producedResult⟩ := fired _ completed
  refine ⟨by decide +kernel, by decide +kernel, ⟨consumed, ?_⟩, produced, ?_⟩
  · obtain ⟨items, results, placed, rows, _⟩ := match_conserves naturalConfig HistoryReader.empty
      twiceCalls (.consume [1, 1] [0, 0] 7 false IndexSet.empty) consumed consumedResult
    exact ⟨items, consumedResult, results, placed, rows⟩
  · obtain ⟨items, results, placed, rows, _⟩ := match_conserves naturalConfig HistoryReader.empty
      waitingCalls (.produce 2 6 false) produced producedResult
    exact ⟨items, producedResult, results, placed.2 rfl, rows⟩

section Delivery

open List Runs

variable [DecidableEq A] (channel : C) (a : A)

/-- A copy of `a` that is there for one match only. -/
def Datum.isCopy (datum : Datum A Hash) : Bool := datum.a = a && !datum.persist

def sent : Operation C P A K → Nat
  | .produce place data persist => if channel = place ∧ data = a ∧ persist = false then 1 else 0
  | .consume .. => 0

/-- The copies that an operation reports as taken. -/
def delivered : Except RSpaceError (ActionResult C P A K) → Nat
  | .ok (some result) => result.2.countP fun taken =>
      taken.channel = channel && !taken.persistent && taken.removedDatum = a
  | _ => 0

def inFlight (offered : List (IndexedDatum A Hash)) : Nat :=
  (offered.filter fun entry => !decide (0 ≤ entry.2)).countP (·.1.isCopy a)

omit [DecidableEq C] in
theorem in_flight_sorted (row : List (Datum A Hash)) : inFlight a (sortedData row) = 0 := by
  rw [inFlight, filter_eq_nil_iff.mpr fun entry mem => by simpa using sorted_nonneg mem, countP_nil]

omit [LinearOrder Hash] in
/-- What a match reports is gone from the store or was in flight. -/
theorem match_delivers {channels : List C} {patterns : List P}
    {offered : C → List (IndexedDatum A Hash)} {items : List (ConsumeCandidate C A Hash)}
    (matched : matchContinuation config.matcher channels (fun c => some (offered c)) patterns =
      some items) {row left : List (Datum A Hash)} (indexes : Indexes row (offered channel))
    (removed : left = rowWithout row (takenOn channel (removalOrder items)))
    (result : ContResult C P K) :
    left.countP (·.isCopy a) + delivered channel a (.ok (some (result, reported items))) ≤
      row.countP (·.isCopy a) + inFlight a (offered channel) := by
  obtain ⟨rest, split⟩ :=
    (extract_taken _ _ items ((collect_eq_some_iff _ _).mp matched) channel _ rfl).1
  have reports : delivered channel a (.ok (some (result, reported items))) =
      (takenOn channel items).countP fun item => item.entry.1.isCopy a := by
    rw [reported, delivered, countP_map, takenOn, countP_filter]
    refine countP_congr fun item _ => ?_
    simp only [Function.comp_apply, ConsumeCandidate.entry, Datum.isCopy, Bool.and_eq_true]
    tauto
  have stored := (row_without_perm matched indexes).countP_eq (·.isCopy a)
  rw [countP_append, ← removed, storedOn, countP_map] at stored
  rw [reports, countP_eq_countP_filter_add (takenOn channel items) _ fun item => 0 ≤ item.datumIndex,
    stored, inFlight, (split.filter _).countP_eq, filter_append, countP_append, filter_map,
    countP_map, Nat.add_left_comm, ← Nat.add_assoc]
  exact Nat.add_le_add_left (Nat.le_add_right _ _) _

theorem perform_delivers (config : Config C P A K Hash)
    (space : RSpace (Space C P A K Hash) Hash) (operation : Operation C P A K) :
    ((perform config spaceStore space operation).2.store.data channel).countP (·.isCopy a) +
        delivered channel a (perform config spaceStore space operation).1 ≤
      (space.store.data channel).countP (·.isCopy a) + sent channel a operation := by
  obtain ⟨space, log, counter⟩ := space
  cases operation with
  | consume channels patterns continuation persist peeks =>
    by_cases nonempty : channels = []
    · simp [perform, consume, nonempty, delivered]
    by_cases aligned : channels.length = patterns.length
    · simp only [perform, consume_rows config space channels patterns continuation persist peeks
        log counter nonempty aligned]
      split
      · rw [store_waiting_continuation_rows]
        exact Nat.le_add_right _ _
      · rename_i items matched
        refine (match_delivers channel a matched (sorted_indexes (space.data channel))
          (store_persistent_data_row items space channel) _).trans ?_
        rw [in_flight_sorted]
        exact Nat.le_refl _
    · simp [perform, consume, nonempty, aligned, delivered]
  | produce place data persist =>
    simp only [perform, produce_rows config space place data persist log counter]
    split
    · by_cases here : channel = place
      · subst here
        simp [delivered, sent, spaceStore, countP_cons, Datum.isCopy]
      · simp [delivered, spaceStore, Function.update_of_ne here]
    · rename_i pc selected
      have rows := remove_matched_data_row pc.channels pc.dataCandidates (withoutMatched space pc)
        channel
      rw [(without_matched_joins space pc).2.2.2.2] at rows
      refine (match_delivers channel a (candidate_found config space selected).2.2
        (produced_indexes place _ channel (space.data channel)) rows _).trans
        (Nat.add_le_add_left ?_ _)
      rw [withProduced]
      split_ifs with here
      · rw [inFlight, filter_cons_of_pos rfl, countP_cons, ← inFlight, in_flight_sorted]
        simp [sent, here, Datum.isCopy]
      · rw [in_flight_sorted]
        exact Nat.zero_le _

/-- No run of operations delivers a datum twice, or one that was not sent: what it leaves stored
and what it delivers is no more than what was stored before and what it sends. -/
theorem delivered_at_most_once (config : Config C P A K Hash) (reader : HistoryReader C P A K Hash)
    (space : RSpace (HotStoreState C P A K Hash) Hash) (operations : List (Operation C P A K)) :
    let run := runAll (perform config (inMemHotStore reader)) operations space
    ((view reader run.2.store).data channel).countP (·.isCopy a) +
        (run.1.map (delivered channel a)).sum ≤
      ((view reader space.store).data channel).countP (·.isCopy a) +
        (operations.map (sent channel a)).sum := by
  induction operations generalizing space with
  | nil => exact Nat.le_refl _
  | cons operation operations ih =>
    have stepped := perform_delivers channel a config (space.map (view reader)) operation
    rw [perform_morphism config (view_morphism reader)] at stepped
    have rest := ih (perform config (inMemHotStore reader) space operation).2
    simp only [runAll, map_cons, sum_cons]
    dsimp only [RSpace.map] at stepped rest
    omega

end Delivery

end RChain.TupleSpace
