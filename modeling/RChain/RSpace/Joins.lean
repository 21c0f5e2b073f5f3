import RChain.Lib.Runs
import RChain.RSpace.Refinement

/-!
# The join invariant

A produce finds continuations through the joins of its channel, so every list of
channels under which a continuation waits has to be among the joins of each of its
channels. A matched produce removes the join of the matched channels whatever else
still waits there, which breaks this for a persistent continuation and for a second
continuation on the same channels. `KeepsJoins` is the exact condition on a call under
which nothing is left behind.
-/

namespace RChain.TupleSpace

open Runs List Option

variable {C P A K Hash : Type} [DecidableEq C] [LinearOrder Hash]

/-- Every channel list with a waiting or installed continuation is a join of its channels. -/
def JoinsCover (space : Space C P A K Hash) : Prop :=
  ∀ channels, ∀ wc ∈ space.allContinuations channels, ∀ channel ∈ channels,
    channels ∈ space.allJoins channel

/-- The datum being produced completes the data of a continuation with these patterns. -/
def Completes (config : Config C P A K Hash) (space : Space C P A K Hash) (channels : List C)
    (patterns : List P) (channel : C) (datum : Datum A Hash) : Prop :=
  matchContinuation config.matcher channels
    (fun c => some (withProduced channel datum c (space.data c))) patterns ≠ none

instance (config : Config C P A K Hash) (space : Space C P A K Hash) (channels : List C)
    (patterns : List P) (channel : C) (datum : Datum A Hash) :
    Decidable (Completes config space channels patterns channel datum) :=
  decidable_of_iff ((matchContinuation config.matcher channels
    (fun c => some (withProduced channel datum c (space.data c))) patterns).isSome = true)
    Option.isSome_iff_ne_none

/-- A call that matches a produce leaves no continuation without its join: either the joins of
the matched channels are installed, or the matched continuation is the only one waiting there
and is not kept. -/
def KeepsJoins (config : Config C P A K Hash) (space : Space C P A K Hash) :
    Call C P A K → Prop
  | .operation (.produce channel data persist) =>
    ∀ pc ∈ produceCandidate config space channel
        ⟨data, persist, Produce.apply config channel data persist⟩,
      (space.installedContinuations pc.channels).isSome ∨
        pc.continuation.persist = false ∧ (space.continuations pc.channels).length ≤ 1
  | _ => True

instance decidableKeepsJoins (config : Config C P A K Hash) (space : Space C P A K Hash) :
    (call : Call C P A K) → Decidable (KeepsJoins config space call)
  | .operation (.produce channel data persist) =>
    inferInstanceAs (Decidable (∀ pc ∈ produceCandidate config space channel
        ⟨data, persist, Produce.apply config channel data persist⟩,
      (space.installedContinuations pc.channels).isSome ∨
        pc.continuation.persist = false ∧ (space.continuations pc.channels).length ≤ 1))
  | .operation (.consume _ _ _ _ _) => isTrue trivial
  | .install _ _ _ => isTrue trivial

/-- The invariant behind `JoinsCover`: the join of an installed continuation is installed too. -/
structure JoinInvariant (space : Space C P A K Hash) : Prop where
  stored : ∀ channels, space.continuations channels ≠ [] → ∀ channel ∈ channels,
    channels ∈ space.allJoins channel
  installed : ∀ channels, (space.installedContinuations channels).isSome →
    ∀ channel ∈ channels, channels ∈ space.installedJoins channel

omit [DecidableEq C] [LinearOrder Hash] in
theorem joins_cover_of_invariant {space : Space C P A K Hash} (invariant : JoinInvariant space) :
    JoinsCover space := by
  intro channels wc waiting channel mem
  rw [Space.allContinuations, mem_append] at waiting
  rcases waiting with installed | stored
  · apply mem_append_left
    apply invariant.installed channels _ channel mem
    rw [isSome_iff_exists]
    exact ⟨wc, mem_toList.mp installed⟩
  · exact invariant.stored channels (ne_nil_of_mem stored) channel mem

section Steps

variable {config : Config C P A K Hash} {space : Space C P A K Hash}

theorem without_matched_empty {channel : C} {datum : Datum A Hash}
    {pc : ProduceCandidate C P A K Hash}
    (selected : produceCandidate config space channel datum = some pc)
    (plain : space.installedContinuations pc.channels = none)
    (consumed : pc.continuation.persist = false)
    (alone : (space.continuations pc.channels).length ≤ 1) :
    (withoutMatched space pc).continuations pc.channels = [] := by
  have position := (candidate_found config space selected).2.1
  simp only [Space.allContinuations, plain, toList_none, nil_append] at position
  have bound := (List.getElem?_eq_some_iff.mp position).1
  have shape : (withoutMatched space pc).continuations pc.channels =
      (space.continuations pc.channels).eraseIdx pc.continuationIndex := by
    simp [withoutMatched, consumed, spaceStore, plain, storedIndex]
  rw [shape]
  apply eq_nil_of_length_eq_zero
  rw [length_eraseIdx_of_lt bound]
  omega

section

variable (invariant : JoinInvariant space)
include invariant

omit [LinearOrder Hash] in
theorem store_waiting_keeps_invariant (channels : List C)
    (wc : WaitingContinuation P K Hash) :
    JoinInvariant (storeWaitingContinuation spaceStore channels wc space) := by
  rw [store_waiting_continuation_rows]
  constructor
  · intro other waiting channel mem
    simp only [Space.allJoins, mem_append]
    by_cases same : other = channels
    · subst same
      rw [if_pos mem, mem_push_join]
      exact .inr (Or.inl rfl)
    · have stored : space.continuations other ≠ [] := by
        simpa only [Function.update_of_ne same] using waiting
      have covered := invariant.stored other stored channel mem
      rw [Space.allJoins, mem_append] at covered
      rcases covered with installed | joined
      · exact .inl installed
      · split_ifs
        · rw [mem_push_join]
          exact .inr (Or.inr joined)
        · exact .inr joined
  · exact invariant.installed

theorem consume_keeps_invariant (channels : List C)
    (patterns : List P) (continuation : K) (persist : Bool) (peeks : IndexSet)
    (log : List (Event Hash)) (counter : Hash → Nat) :
    JoinInvariant (consume config spaceStore channels patterns continuation persist peeks
      ⟨space, log, counter⟩).2.store := by
  by_cases nonempty : channels = []
  · simpa only [consume, if_pos nonempty] using invariant
  by_cases aligned : channels.length = patterns.length
  · rw [consume_rows config space channels patterns continuation persist peeks log counter
      nonempty aligned]
    dsimp only
    cases matchContinuation config.matcher channels
        (fun channel => some (sortedData (space.data channel))) patterns with
    | none => exact store_waiting_keeps_invariant invariant channels _
    | some =>
      dsimp only
      rw [store_persistent_data_rows]
      exact ⟨invariant.stored, invariant.installed⟩
  · simpa only [consume, if_neg nonempty, ne_eq, aligned, not_false_eq_true, if_true]
      using invariant

theorem produce_keeps_invariant (channel : C) (data : A)
    (persist : Bool) (log : List (Event Hash)) (counter : Hash → Nat)
    (keeps : KeepsJoins config space (.operation (.produce channel data persist))) :
    JoinInvariant (produce config spaceStore channel data persist
      ⟨space, log, counter⟩).2.store := by
  rw [produce_rows]
  dsimp only
  cases selected : produceCandidate config space channel
      ⟨data, persist, Produce.apply config channel data persist⟩ with
  | none => exact ⟨invariant.stored, invariant.installed⟩
  | some pc =>
    have kept := keeps pc selected
    have rows := without_matched_joins space pc
    change JoinInvariant (removeMatchedDatumAndJoin spaceStore pc.channels pc.dataCandidates
      (withoutMatched space pc))
    rw [remove_matched_rows]
    constructor
    · intro other waiting c mem
      simp only [Space.allJoins, mem_append, rows.2.1]
      by_cases same : other = pc.channels
      · subst same
        rcases kept with installed | ⟨consumed, alone⟩
        · exact .inl (invariant.installed pc.channels installed c mem)
        · cases plain : space.installedContinuations pc.channels with
          | some => exact .inl (invariant.installed pc.channels (by rw [plain]; rfl) c mem)
          | none => exact absurd (without_matched_empty selected plain consumed alone) waiting
      · rw [mem_remove_matched_joins _ _ _ same, rows.1, ← mem_append]
        apply invariant.stored other _ c mem
        rwa [← rows.2.2.2.1 other same]
    · intro other installed c mem
      simp only [rows.2.2.1] at installed
      simp only [rows.2.1]
      exact invariant.installed other installed c mem

theorem install_keeps_invariant (channels : List C)
    (patterns : List P) (continuation : K) (log : List (Event Hash)) (counter : Hash → Nat) :
    JoinInvariant (install config spaceStore channels patterns continuation
      ⟨space, log, counter⟩).2.store := by
  rcases install_rows config space channels patterns continuation log counter with same | rows
  · rw [same]
    exact invariant
  · rw [rows]
    constructor
    · intro other waiting channel mem
      have covered := invariant.stored other waiting channel mem
      simp only [Space.allJoins, mem_append] at covered ⊢
      split_ifs
      · rw [mem_push_join]
        exact covered.imp_left Or.inr
      · exact covered
    · intro other installed channel mem
      by_cases same : other = channels
      · subst same
        simp only [if_pos mem, mem_push_join]
        exact .inl trivial
      · simp only [Function.update_of_ne same] at installed
        have covered := invariant.installed other installed channel mem
        dsimp only
        split_ifs
        · rw [mem_push_join]
          exact .inr covered
        · exact covered

end

theorem call_keeps_invariant (state : RSpace (Space C P A K Hash) Hash) (call : Call C P A K)
    (invariant : JoinInvariant state.store) (keeps : KeepsJoins config state.store call) :
    JoinInvariant (afterCall config spaceStore state call).store := by
  cases call with
  | install channels patterns continuation =>
    exact install_keeps_invariant invariant channels patterns continuation _ _
  | operation operation =>
    cases operation with
    | consume channels patterns continuation persist peeks =>
      exact consume_keeps_invariant invariant channels patterns continuation persist peeks _ _
    | produce channel data persist =>
      exact produce_keeps_invariant invariant channel data persist _ _ keeps

theorem candidate_of_completes (cover : JoinsCover space) {channels : List C}
    {wc : WaitingContinuation P K Hash} (waiting : wc ∈ space.allContinuations channels)
    {channel : C} (mem : channel ∈ channels) (datum : Datum A Hash)
    (completes : Completes config space channels wc.patterns channel datum) :
    ∃ pc, produceCandidate config space channel datum = some pc := by
  rw [← isSome_iff_exists, produceCandidate, findSome?_isSome_iff]
  refine ⟨channels, cover channels wc waiting channel mem, ?_⟩
  rcases getElem?_of_mem waiting with ⟨index, position⟩
  rw [searchJoin, extractFirstMatch, findSome?_isSome_iff]
  refine ⟨(wc, index), ?_, ?_⟩
  · rw [(sort_by_key_perm _ _).mem_iff]
    exact mem_zipIdx_iff_getElem?.mpr position
  · rw [isSome_map, isSome_iff_ne_none]
    exact completes

end Steps

section Runs

variable (config : Config C P A K Hash)

/-- The space after a sequence of calls on an empty tuple space. -/
def runCalls (calls : List (Call C P A K)) : RSpace (HotStoreState C P A K Hash) Hash :=
  calls.foldl (afterCall config (inMemHotStore HistoryReader.empty)) RSpace.fresh

/-- The rows after a sequence of calls on an empty tuple space. -/
def rowsAfter (calls : List (Call C P A K)) : Space C P A K Hash :=
  view HistoryReader.empty (runCalls config calls).store

omit [LinearOrder Hash] in
theorem fresh_join_invariant :
    JoinInvariant (view HistoryReader.empty (HotStoreState.empty : HotStoreState C P A K Hash)) where
  stored := fun _ waiting => absurd rfl waiting
  installed := fun _ installed => absurd installed Bool.false_ne_true

theorem guarded_join_invariant (calls : List (Call C P A K))
    (guarded : Guarded (afterCall config (inMemHotStore HistoryReader.empty))
      (fun state call => KeepsJoins config (view HistoryReader.empty state.store) call)
      calls RSpace.fresh) :
    JoinInvariant (rowsAfter config calls) := by
  apply guarded_invariant (fun state => JoinInvariant (view HistoryReader.empty state.store)) _
    calls RSpace.fresh fresh_join_invariant guarded
  intro state call invariant keeps
  have same := after_call_morphism config (view_morphism HistoryReader.empty) state call
  have stepped : JoinInvariant (afterCall config spaceStore
      (state.map (view HistoryReader.empty)) call).store :=
    call_keeps_invariant _ call invariant keeps
  rwa [same] at stepped

/-- While no matched produce leaves a continuation behind, every continuation stays covered by
the joins of its channels, and every produce whose datum completes one fires. -/
theorem continuations_stay_found (calls : List (Call C P A K))
    (guarded : Guarded (afterCall config (inMemHotStore HistoryReader.empty))
      (fun state call => KeepsJoins config (view HistoryReader.empty state.store) call)
      calls RSpace.fresh) :
    JoinsCover (rowsAfter config calls) ∧
      ∀ channels, ∀ wc ∈ (rowsAfter config calls).allContinuations channels,
        ∀ channel ∈ channels, ∀ data persist,
          Completes config (rowsAfter config calls) channels wc.patterns channel
            ⟨data, persist, Produce.apply config channel data persist⟩ →
          ∃ result, (produce config (inMemHotStore HistoryReader.empty) channel data persist
            (runCalls config calls)).1 = .ok (some result) := by
  have cover := joins_cover_of_invariant (guarded_join_invariant config calls guarded)
  refine ⟨cover, ?_⟩
  intro _ _ waiting channel member data persist completes
  rcases candidate_of_completes cover waiting member _ completes with ⟨_, selected⟩
  have same := produce_morphism config (view_morphism HistoryReader.empty)
    (runCalls config calls) channel data persist
  have rows := produce_rows config (rowsAfter config calls) channel data persist
    (runCalls config calls).eventLog (runCalls config calls).produceCounter
  simp only [selected] at rows
  exact ⟨_, (congrArg Prod.fst same).symm.trans (congrArg Prod.fst rows)⟩

/-- A join of two channels and an installed continuation are matched; a persistent
continuation is left waiting. -/
def matchedCalls : List (Call Nat Nat Nat Nat) :=
  [.operation (.consume [1, 2] [0, 0] 7 false IndexSet.empty), .operation (.produce 1 5 false),
    .operation (.produce 2 6 false), .install [3] [0] 8, .operation (.produce 3 4 false),
    .operation (.consume [1] [0] 9 true IndexSet.empty)]

theorem continuations_stay_found_matched_calls :
    Guarded (afterCall naturalConfig (inMemHotStore HistoryReader.empty))
        (fun state call => KeepsJoins naturalConfig (view HistoryReader.empty state.store) call)
        matchedCalls RSpace.fresh ∧
      JoinsCover (rowsAfter naturalConfig matchedCalls) ∧
      ∃ result, (produce naturalConfig (inMemHotStore HistoryReader.empty) 1 5 false
        (runCalls naturalConfig matchedCalls)).1 = .ok (some result) := by
  have guarded : Guarded (afterCall naturalConfig (inMemHotStore HistoryReader.empty))
      (fun state call => KeepsJoins naturalConfig (view HistoryReader.empty state.store) call)
      matchedCalls RSpace.fresh := by
    decide +kernel
  have found := continuations_stay_found naturalConfig matchedCalls guarded
  refine ⟨guarded, found.1, ?_⟩
  exact found.2 [1] ⟨[0], 9, true, IndexSet.empty, Consume.apply naturalConfig [1] [0] 9 true⟩
    (by decide +kernel) 1 (by decide) 5 false (by decide +kernel)

/-- A persistent consume, then a produce that matches it. -/
def persistentMatched : List (Call Nat Nat Nat Nat) :=
  [.operation (.consume [1] [0] 9 true IndexSet.empty), .operation (.produce 1 5 false)]

/-- The persistent continuation still waits, but its join is gone and the next produce that
completes it finds nothing. -/
theorem persistent_continuation_lost : ¬ JoinsCover (rowsAfter naturalConfig persistentMatched) ∧
      (rowsAfter naturalConfig persistentMatched).allContinuations [1] =
        [⟨[0], 9, true, IndexSet.empty, Consume.apply naturalConfig [1] [0] 9 true⟩] ∧
      Completes naturalConfig (rowsAfter naturalConfig persistentMatched) [1] [0] 1
        ⟨6, false, Produce.apply naturalConfig 1 6 false⟩ ∧
      (produce naturalConfig (inMemHotStore HistoryReader.empty) 1 6 false
        (runCalls naturalConfig persistentMatched)).1.toOption = some none := by
  have waiting : (rowsAfter naturalConfig persistentMatched).allContinuations [1] =
      [⟨[0], 9, true, IndexSet.empty, Consume.apply naturalConfig [1] [0] 9 true⟩] := by
    decide +kernel
  refine ⟨?_, waiting, by decide +kernel, by decide +kernel⟩
  intro cover
  have covered := cover [1] _ (by rw [waiting]; exact mem_singleton_self _) 1 (by decide)
  revert covered
  decide +kernel

end Runs

end RChain.TupleSpace
