import RChain.RSpace.RowOrder

/-!
# Spaces that agree up to the order of their rows

Two spaces agree if their rows have the same items, where continuations are compared
under channel lists in encoding order. An operation that keeps to such lists and that
finds at most one join to fire returns the same result on both and leaves them in
agreement.
-/

namespace RChain.TupleSpace

open List Function

variable {C P A K Hash : Type} [DecidableEq C] [LinearOrder Hash]

/-- The rows of two spaces have the same items. -/
structure Agrees (config : Config C P A K Hash) (left right : Space C P A K Hash) : Prop where
  data : ∀ channel, (left.data channel).Perm (right.data channel)
  continuations : ∀ channels, channelOrder config channels = channels →
    (left.continuations channels).Perm (right.continuations channels)
  joins : ∀ channel, (left.joins channel).Perm (right.joins channel)

/-- The rows of two spaces have the same items; those of continuations, on some joins. -/
structure AgreesOn (scope : List C → Prop) (left right : Space C P A K Hash) : Prop where
  data : ∀ channel, (left.data channel).Perm (right.data channel)
  continuations : ∀ channels, scope channels →
    (left.continuations channels).Perm (right.continuations channels)
  joins : ∀ channel, (left.joins channel).Perm (right.joins channel)

omit [DecidableEq C] [LinearOrder Hash] in
theorem agrees_iff_on {config : Config C P A K Hash} {left right : Space C P A K Hash} :
    Agrees config left right ↔
      AgreesOn (fun channels => channelOrder config channels = channels) left right :=
  ⟨fun h => ⟨h.data, h.continuations, h.joins⟩, fun h => ⟨h.data, h.continuations, h.joins⟩⟩

/-- The same persistent continuations are installed in two spaces. -/
structure SameInstalled (left right : Space C P A K Hash) : Prop where
  continuations : ∀ channels,
    left.installedContinuations channels = right.installedContinuations channels
  joins : ∀ channel, left.installedJoins channel = right.installedJoins channel
  persistent : ∀ channels wk, left.installedContinuations channels = some wk → wk.persist = true

def Sourced (config : Config C P A K Hash) (space : Space C P A K Hash) : Prop :=
  ∀ channel, ∀ datum ∈ space.data channel,
    datum.source = Produce.apply config channel datum.a datum.persist

/-- The continuations of one consume on a join are equal. -/
def SingleOn (space : Space C P A K Hash) (channels : List C) : Prop :=
  ∀ wc ∈ space.allContinuations channels, ∀ other ∈ space.allContinuations channels,
    wc.source.hash = other.source.hash → wc = other

/-- No continuation is installed. -/
structure Uninstalled (space : Space C P A K Hash) : Prop where
  continuations : ∀ channels, space.installedContinuations channels = none
  joins : ∀ channel, space.installedJoins channel = []

/-- Data carry their produce, joins are in encoding order, and continuations of one consume are
equal. -/
structure Tidy (config : Config C P A K Hash) (space : Space C P A K Hash) : Prop where
  sourced : ∀ channel, ∀ datum ∈ space.data channel,
    datum.source = Produce.apply config channel datum.a datum.persist
  ordered : ∀ channel, ∀ join ∈ space.joins channel, channelOrder config join = join
  single : ∀ channels, ∀ wc ∈ space.continuations channels, ∀ other ∈ space.continuations channels,
    wc.source.hash = other.source.hash → wc = other

section Shapes

theorem stance_nonneg (index : Int) : 0 ≤ stance index ↔ 0 ≤ index := by
  unfold stance
  split_ifs with stored
  · exact iff_of_true (Int.le_refl 0) stored
  · exact iff_of_false (by decide) stored

omit [LinearOrder Hash] in
theorem stored_on_shapes (channel : C) (items : List (ConsumeCandidate C A Hash)) :
    storedOn channel (shapes items) = storedOn channel items := by
  unfold storedOn takenOn shapes
  rw [filter_map, filter_map, map_map]
  have stored : ((fun item : ConsumeCandidate C A Hash => decide (0 ≤ item.datumIndex)) ∘
      ConsumeCandidate.relabel stance) = fun item => decide (0 ≤ item.datumIndex) := by
    funext item
    exact decide_eq_decide.mpr (stance_nonneg item.datumIndex)
  rw [stored]
  rfl

omit [DecidableEq C] [LinearOrder Hash] in
theorem wrap_result_shapes (channels : List C) (wk : WaitingContinuation P K Hash)
    (items : List (ConsumeCandidate C A Hash)) :
    wrapResult channels wk (shapes items) = wrapResult channels wk items := by
  simp only [wrapResult, shapes, map_map]
  rfl

omit [LinearOrder Hash] in
theorem remove_matched_joins_shapes (channels : List C) (items : List (ConsumeCandidate C A Hash))
    (space : Space C P A K Hash) (channel : C) :
    (removeMatchedDatumAndJoin spaceStore channels items space).joins channel = (shapes items).foldl
        (fun row item => if item.channel = channel then row.erase channels else row)
        (space.joins channel) := by
  have commutes : RightCommutative fun (row : List (List C)) (item : ConsumeCandidate C A Hash) =>
      if item.channel = channel then row.erase channels else row := by
    constructor
    intro _ _ _
    split_ifs
    · rfl
    · rfl
    · rfl
    · rfl
  rw [remove_matched_joins_row, removalOrder, (sort_by_key_perm _ items).foldl_eq, shapes,
    foldl_map]
  rfl

theorem erase_fold_perm {Item Step : Type} [BEq Item] [LawfulBEq Item] (steps : List Step)
    (erases : Step → Bool) (item : Item) {left right : List Item} (perm : left.Perm right) :
    (steps.foldl (fun row step => if erases step then row.erase item else row) left).Perm
      (steps.foldl (fun row step => if erases step then row.erase item else row) right) := by
  induction steps generalizing left right with
  | nil => exact perm
  | cons _ _ ih =>
    rw [foldl_cons, foldl_cons]
    apply ih
    split_ifs
    · exact perm.erase item
    · exact perm

omit [LinearOrder Hash] in
theorem row_without_agrees {matcher : P → A → Option A} {channels : List C} {patterns : List P}
    {leftOffered rightOffered : C → List (IndexedDatum A Hash)}
    {leftItems rightItems : List (ConsumeCandidate C A Hash)}
    (leftMatched : matchContinuation matcher channels (fun c => some (leftOffered c)) patterns =
      some leftItems)
    (rightMatched : matchContinuation matcher channels (fun c => some (rightOffered c)) patterns =
      some rightItems)
    (same : shapes leftItems = shapes rightItems) {channel : C}
    {leftRow rightRow : List (Datum A Hash)} (perm : leftRow.Perm rightRow)
    (leftIndexes : Indexes leftRow (leftOffered channel))
    (rightIndexes : Indexes rightRow (rightOffered channel)) :
    (rowWithout leftRow (takenOn channel (removalOrder leftItems))).Perm
      (rowWithout rightRow (takenOn channel (removalOrder rightItems))) := by
  have left := row_without_perm leftMatched leftIndexes
  have right := row_without_perm rightMatched rightIndexes
  rw [← stored_on_shapes, same, stored_on_shapes] at left
  exact (perm_append_left_iff _).mp (left.symm.trans (perm.trans right))

end Shapes

omit [DecidableEq C] in
theorem comm_shapes (items : List (ConsumeCandidate C A Hash)) (consumeRef : Consume Hash)
    (peeks : IndexSet) (counter : Hash → Nat) :
    Comm.apply (shapes items) consumeRef peeks counter =
      Comm.apply items consumeRef peeks counter := by
  simp only [Comm.apply, shapes, map_map]
  rfl

section Search

variable {config : Config C P A K Hash} {left right : Space C P A K Hash} {scope : List C → Prop}
  {Item Result : Type}

theorem find_some_perm (search : Item → Option Result) {first second : List Item}
    (perm : first.Perm second)
    (unique : first.Pairwise fun item other => search item = none ∨ search other = none) :
    first.findSome? search = second.findSome? search := by
  induction perm with
  | nil => rfl
  | cons _ _ ih => rw [findSome?_cons, findSome?_cons, ih (pairwise_cons.mp unique).2]
  | swap item =>
    have either := (pairwise_cons.mp unique).1 item mem_cons_self
    simp only [findSome?_cons]
    rcases either with silent | silent
    · rw [silent]
    · rw [silent]
  | trans permFirst _ ihFirst ihSecond =>
    rw [ihFirst unique]
    exact ihSecond ((permFirst.pairwise_iff fun either => either.symm).mp unique)

theorem find_some_congr {search other : Item → Option Result} {items : List Item}
    (same : ∀ item ∈ items, search item = other item) :
    items.findSome? search = items.findSome? other := by
  induction items with
  | nil => rfl
  | cons item _ ih =>
    rw [findSome?_cons, findSome?_cons, same item mem_cons_self,
      ih fun next mem => same next (mem_cons_of_mem _ mem)]

theorem find_some_eq_bind (search : Item → Option Result) (items : List Item) :
    items.findSome? search = (items.find? fun item => (search item).isSome).bind search := by
  induction items with
  | nil => rfl
  | cons item _ ih =>
    rw [findSome?_cons, find?_cons]
    cases found : search item with
    | none => exact ih
    | some => exact found.symm

section Sorted

variable {Key : Type} [LinearOrder Key] (key : Item → Key) (accepts : Item → Bool) (items : List Item)

/-- The item is accepted and no accepted item has a smaller key. -/
def isLeast (item : Item) : Bool :=
  accepts item && items.all fun other => !accepts other || key item ≤ key other

variable {key accepts items}

theorem is_least_iff {item : Item} : isLeast key accepts items item = true ↔
    accepts item = true ∧ ∀ other ∈ items, accepts other = true → key item ≤ key other := by
  simp only [isLeast, Bool.and_eq_true, all_eq_true, Bool.or_eq_true, Bool.not_eq_true',
    decide_eq_true_eq, or_iff_not_imp_left, Bool.not_eq_false]

/-- A stable sort does not change the order of the least items. -/
theorem filter_least_sorted : (sortByKey key items).filter (isLeast key accepts items) =
    items.filter (isLeast key accepts items) := by
  have ordered : (items.filter (isLeast key accepts items)).Pairwise fun left right =>
      key left ≤ key right := by
    refine pairwise_of_forall_mem_list fun left mem right among => ?_
    exact (is_least_iff.mp (mem_filter.mp mem).2).2 right (mem_filter.mp among).1
      (is_least_iff.mp (mem_filter.mp among).2).1
  have kept := (sublist_insertionSort ordered filter_sublist).filter (isLeast key accepts items)
  simp only [filter_filter, Bool.and_self] at kept
  exact (kept.eq_of_length ((sort_by_key_perm key items).filter _).length_eq.symm).symm

/-- In a sorted list the first accepted item is a least one. -/
theorem find_sorted_least : (sortByKey key items).find? accepts =
    (sortByKey key items).find? (isLeast key accepts items) := by
  have sorted := sort_by_key_perm key items
  cases found : (sortByKey key items).find? accepts with
  | none =>
    refine (find?_eq_none.mpr fun item mem least => ?_).symm
    exact find?_eq_none.mp found item mem (is_least_iff.mp least).1
  | some item =>
    obtain ⟨here, before, after, split, passed⟩ := find?_eq_some_iff_append.mp found
    refine (find?_eq_some_iff_append.mpr ⟨?_, before, after, split, fun other mem => ?_⟩).symm
    · refine is_least_iff.mpr ⟨here, fun other listed accepted => ?_⟩
      have ordered := sort_by_key_sorted key items
      rw [split, pairwise_append, pairwise_cons] at ordered
      rw [← sorted.mem_iff, split, mem_append, mem_cons] at listed
      rcases listed with earlier | rfl | later
      · exact absurd accepted (by simpa using passed other earlier)
      · exact le_refl _
      · exact ordered.2.1.1 other later
    · have refused := passed other mem
      rw [isLeast, Bool.not_and, refused, Bool.true_or]

theorem find_sort_by_key : (sortByKey key items).find? accepts =
    items.find? (isLeast key accepts items) := by
  rw [find_sorted_least, ← head?_filter, filter_least_sorted, head?_filter]

end Sorted

section

variable (lawful : config.Lawful) (sourced : Sourced config left)
  (agrees : AgreesOn scope left right)
include lawful sourced agrees

omit agrees [DecidableEq C] [LinearOrder Hash] in
theorem sourced_ties (channel : C) : ∀ datum ∈ left.data channel, ∀ other ∈ left.data channel,
      datum.source.hash = other.source.hash → datum = other := by
  intro datum mem other otherMember same
  have source := sourced channel datum mem
  have otherSource := sourced channel other otherMember
  rw [source, otherSource] at same
  have parts := produce_hash_injective lawful same
  cases datum
  cases other
  simp only [Datum.mk.injEq] at source otherSource parts ⊢
  refine ⟨parts.2.1, parts.2.2, ?_⟩
  rw [source, otherSource, parts.2.1, parts.2.2]

omit [DecidableEq C] in
theorem sorted_agrees (channel : C) : (sortedData (left.data channel)).map (Prod.map id stance) =
      (sortedData (right.data channel)).map (Prod.map id stance) := by
  rw [sorted_stance, sorted_stance,
    sort_eq_of_perm _ (agrees.data channel) (sourced_ties lawful sourced channel)]

/-- A produce candidate without the places of its continuation and its data. -/
def ProduceCandidate.shape (pc : ProduceCandidate C P A K Hash) : ProduceCandidate C P A K Hash :=
  { pc with continuationIndex := 0, dataCandidates := shapes pc.dataCandidates }

omit lawful sourced agrees

variable (config) in
/-- The data that complete a continuation of a join together with the datum being produced. -/
def completion (space : Space C P A K Hash) (produced : C) (datum : Datum A Hash)
    (channels : List C) (wc : WaitingContinuation P K Hash) :
    Option (List (ConsumeCandidate C A Hash)) :=
  (matchContinuation config.matcher channels
    (fun c => some (withProduced produced datum c (space.data c))) wc.patterns).map shapes

variable (config) in
/-- A produce completes the continuation, and none on the join with a smaller hash. -/
def preferred (space : Space C P A K Hash) (produced : C) (datum : Datum A Hash)
    (channels : List C) : WaitingContinuation P K Hash → Bool :=
  isLeast (fun wc => wc.source.hash)
    (fun wc => (completion config space produced datum channels wc).isSome)
    (space.allContinuations channels)

theorem search_join_sorted (space : Space C P A K Hash) (produced : C) (datum : Datum A Hash)
    (channels : List C) :
    (searchJoin config space id (withProduced produced datum) channels).map
        ProduceCandidate.shape =
      (sortByKey (fun wc => wc.source.hash) (space.allContinuations channels)).findSome? fun wc =>
        (completion config space produced datum channels wc).map fun data =>
          { channels := channels, continuation := wc, continuationIndex := 0,
            dataCandidates := data } := by
  have sorted : sortByKey (fun wc => wc.source.hash) (space.allContinuations channels) =
      (sortByKey (fun candidate : WaitingContinuation P K Hash × Nat => candidate.1.source.hash)
        (space.allContinuations channels).zipIdx).map Prod.fst := by
    rw [← map_sort_by_key (fun wc : WaitingContinuation P K Hash => wc.source.hash) Prod.fst,
      zipIdx_map_fst]
  rw [searchJoin, extractFirstMatch, sorted, findSome?_map, map_findSome?, id_eq]
  apply congrArg (fun search => findSome? search _)
  funext candidate
  simp only [comp_apply, completion, Option.map_map]
  rfl

theorem search_join_shape (space : Space C P A K Hash) (produced : C) (datum : Datum A Hash)
    (channels : List C) :
    (searchJoin config space id (withProduced produced datum) channels).map
        ProduceCandidate.shape =
      ((space.allContinuations channels).find? (preferred config space produced datum channels)).bind
        fun wc => (completion config space produced datum channels wc).map fun data =>
          { channels := channels, continuation := wc, continuationIndex := 0,
            dataCandidates := data } := by
  rw [search_join_sorted, find_some_eq_bind]
  simp only [Option.isSome_map]
  rw [find_sort_by_key]
  rfl

theorem search_join_some (space : Space C P A K Hash) (produced : C) (datum : Datum A Hash)
    (channels : List C) :
    (searchJoin config space id (withProduced produced datum) channels).isSome =
      (space.allContinuations channels).any fun wc =>
        (completion config space produced datum channels wc).isSome := by
  rw [← Option.isSome_map, search_join_sorted, isSome_findSome?, (sort_by_key_perm _ _).any_eq]
  simp only [Option.isSome_map]

include lawful sourced agrees

theorem completion_agrees (produced : C) (datum : Datum A Hash) (channels : List C) :
    (completion config left produced datum channels : WaitingContinuation P K Hash → _) =
      completion config right produced datum channels := by
  funext wc
  rw [completion, match_shapes channels wc.patterns, completion]
  intro channel
  unfold withProduced
  split_ifs
  · rw [map_cons, map_cons, sorted_agrees lawful sourced agrees]
  · exact sorted_agrees lawful sourced agrees channel

omit lawful sourced [DecidableEq C] [LinearOrder Hash] in
theorem all_continuations_perm (installed : SameInstalled left right) {channels : List C}
    (inScope : scope channels) :
    (left.allContinuations channels).Perm (right.allContinuations channels) := by
  rw [Space.allContinuations, Space.allContinuations, installed.continuations]
  exact (agrees.continuations channels inScope).append_left _

theorem preferred_agrees (installed : SameInstalled left right) (produced : C)
    (datum : Datum A Hash) {channels : List C} (inScope : scope channels) :
    (preferred config left produced datum channels : WaitingContinuation P K Hash → Bool) =
      preferred config right produced datum channels := by
  funext wc
  simp only [preferred, isLeast, completion_agrees lawful sourced agrees]
  rw [(all_continuations_perm agrees installed inScope).all_eq]

omit lawful sourced agrees

theorem find_perm {accepts : Item → Bool} {first second : List Item} (perm : first.Perm second)
    (unique : ∀ item ∈ first, ∀ other ∈ first, accepts item = true → accepts other = true →
      item = other) : first.find? accepts = second.find? accepts := by
  cases found : first.find? accepts with
  | none =>
    refine (find?_eq_none.mpr fun item mem => ?_).symm
    exact find?_eq_none.mp found item (perm.mem_iff.mpr mem)
  | some item =>
    have here := mem_of_find?_eq_some found
    cases again : second.find? accepts with
    | none =>
      exact absurd (find?_some found) (find?_eq_none.mp again item (perm.mem_iff.mp here))
    | some other =>
      rw [unique item here other (perm.mem_iff.mpr (mem_of_find?_eq_some again)) (find?_some found)
        (find?_some again)]

variable (config) in
/-- The stored continuations that a produce may take on a join are equal, unless an installed one
goes before them. -/
def UntiedOn (space : Space C P A K Hash) (produced : C) (datum : Datum A Hash)
    (channels : List C) : Prop :=
  ∀ wc ∈ space.continuations channels, ∀ other ∈ space.continuations channels,
    preferred config space produced datum channels wc = true →
    preferred config space produced datum channels other = true →
    (∀ installed, space.installedContinuations channels = some installed →
      preferred config space produced datum channels installed = false) → wc = other

theorem untied_of_single {space : Space C P A K Hash} {channels : List C}
    (single : SingleOn space channels) (produced : C) (datum : Datum A Hash) :
    UntiedOn config space produced datum channels := by
  intro wc mem other among first second _
  have listed (wc : WaitingContinuation P K Hash) (mem : wc ∈ space.continuations channels) :
      wc ∈ space.allContinuations channels := mem_append_right _ mem
  rw [preferred, is_least_iff] at first second
  exact single wc (listed wc mem) other (listed other among)
    (le_antisymm (first.2 other (listed other among) second.1)
      (second.2 wc (listed wc mem) first.1))

include lawful sourced agrees

theorem search_join_agrees (installed : SameInstalled left right) (produced : C)
    (datum : Datum A Hash) {channels : List C} (inScope : scope channels)
    (untied : UntiedOn config left produced datum channels) :
    (searchJoin config left id (withProduced produced datum) channels).map ProduceCandidate.shape =
      (searchJoin config right id (withProduced produced datum) channels).map
        ProduceCandidate.shape := by
  have rows : (left.allContinuations channels).find?
        (preferred config left produced datum channels) =
      (right.allContinuations channels).find? (preferred config left produced datum channels) := by
    rw [Space.allContinuations, Space.allContinuations, ← installed.continuations, find?_append,
      find?_append]
    cases before : (left.installedContinuations channels).toList.find?
        (preferred config left produced datum channels) with
    | some => rfl
    | none =>
      refine find_perm (agrees.continuations channels inScope) fun wc mem other among first second =>
        untied wc mem other among first second fun wk found => ?_
      rw [found] at before
      simpa using find?_eq_none.mp before wk
  rw [search_join_shape left, search_join_shape right, rows,
    completion_agrees lawful sourced agrees, preferred_agrees lawful sourced agrees installed
      produced datum inScope]

/-- What makes a produce select the same in two spaces. -/
structure SearchesAlike (config : Config C P A K Hash) (scope : List C → Prop)
    (left right : Space C P A K Hash) (channel : C) (datum : Datum A Hash) : Prop where
  joins : (left.allJoins channel).findSome?
      (searchJoin config left id (withProduced channel datum)) =
    (right.allJoins channel).findSome? (searchJoin config left id (withProduced channel datum))
  inScope : ∀ join ∈ right.allJoins channel, scope join
  single : ∀ join ∈ right.allJoins channel, SingleOn left join

theorem produce_candidate_agrees (installed : SameInstalled left right) (channel : C)
    (datum : Datum A Hash) (alike : SearchesAlike config scope left right channel datum) :
    (produceCandidate config left channel datum).map ProduceCandidate.shape =
      (produceCandidate config right channel datum).map ProduceCandidate.shape := by
  rw [produceCandidate, produceCandidate, alike.joins, map_findSome?, map_findSome?]
  apply find_some_congr
  intro join mem
  exact search_join_agrees lawful sourced agrees installed channel datum
    (alike.inScope join mem) (untied_of_single (alike.single join mem) channel datum)

end

/-- At most one join of the channel has a continuation that the datum completes. -/
def OneJoinFires (config : Config C P A K Hash) (space : Space C P A K Hash) (channel : C)
    (datum : Datum A Hash) : Prop :=
  (space.joins channel).Pairwise fun join other =>
    searchJoin config space id (withProduced channel datum) join = none ∨
      searchJoin config space id (withProduced channel datum) other = none

end Search

section Operations

variable {config : Config C P A K Hash} {left right : Space C P A K Hash} {scope : List C → Prop}

/-- The condition on an operation: a consume lists its channels in encoding order and is not the
same consume, with other peeks or patterns, as a continuation already waiting there; a produce
completes continuations of at most one join. -/
def Steady (config : Config C P A K Hash) (space : Space C P A K Hash) :
    Operation C P A K → Prop
  | .consume channels patterns continuation persist peeks =>
    channelOrder config channels = channels ∧
      ∀ wc ∈ space.continuations channels,
        wc.source.hash = (Consume.apply config channels patterns continuation persist).hash →
          wc = ⟨patterns, continuation, persist, peeks,
            Consume.apply config channels patterns continuation persist⟩
  | .produce channel data persist =>
    OneJoinFires config space channel
      ⟨data, persist, Produce.apply config channel data persist⟩

omit [LinearOrder Hash] in
theorem wait_agrees (agrees : AgreesOn scope left right) (channels : List C)
    (wc : WaitingContinuation P K Hash) :
    AgreesOn scope (storeWaitingContinuation spaceStore channels wc left)
      (storeWaitingContinuation spaceStore channels wc right) := by
  rw [store_waiting_continuation_rows, store_waiting_continuation_rows]
  refine ⟨agrees.data, ?_, ?_⟩
  · intro other ordered
    by_cases same : other = channels
    · subst same
      simp only [update_self]
      exact (agrees.continuations other ordered).cons wc
    · simp only [update_of_ne same]
      exact agrees.continuations other ordered
  · intro channel
    have row := agrees.joins channel
    dsimp only
    split_ifs with listed
    · unfold pushJoin
      by_cases present : channels ∈ left.joins channel
      · rw [if_pos present, if_pos (row.mem_iff.mp present)]
        exact row
      · rw [if_neg present, if_neg fun mem => present (row.mem_iff.mpr mem)]
        exact row.cons channels
    · exact row

theorem take_agrees (agrees : AgreesOn scope left right) {channels : List C} {patterns : List P}
    {leftItems rightItems : List (ConsumeCandidate C A Hash)}
    (leftMatched : matchContinuation config.matcher channels
      (fun c => some (sortedData (left.data c))) patterns = some leftItems)
    (rightMatched : matchContinuation config.matcher channels
      (fun c => some (sortedData (right.data c))) patterns = some rightItems)
    (same : shapes leftItems = shapes rightItems) :
    AgreesOn scope (storePersistentData spaceStore leftItems left)
      (storePersistentData spaceStore rightItems right) := by
  have continuations : ∀ (items : List (ConsumeCandidate C A Hash)) (space : Space C P A K Hash),
      (storePersistentData spaceStore items space).continuations = space.continuations := by
    intro _ _
    rw [store_persistent_data_rows]
  have joins : ∀ (items : List (ConsumeCandidate C A Hash)) (space : Space C P A K Hash),
      (storePersistentData spaceStore items space).joins = space.joins := by
    intro _ _
    rw [store_persistent_data_rows]
  refine ⟨?_, ?_, ?_⟩
  · intro channel
    rw [store_persistent_data_row, store_persistent_data_row]
    exact row_without_agrees leftMatched rightMatched same (agrees.data channel)
      (sorted_indexes _) (sorted_indexes _)
  · rw [continuations, continuations]
    exact agrees.continuations
  · rw [joins, joins]
    exact agrees.joins

omit [LinearOrder Hash] in
theorem without_matched_row {space : Space C P A K Hash} {pc : ProduceCandidate C P A K Hash}
    (persistent : ∀ wk, space.installedContinuations pc.channels = some wk → wk.persist = true)
    (waiting : (space.allContinuations pc.channels)[pc.continuationIndex]? = some pc.continuation)
    (taken : pc.continuation.persist = false) :
    (space.continuations pc.channels).Perm
      (pc.continuation :: (withoutMatched space pc).continuations pc.channels) := by
  have stored (index : Nat)
      (found : (space.continuations pc.channels)[index]? = some pc.continuation) :
      (space.continuations pc.channels).Perm
        (pc.continuation :: (space.continuations pc.channels).eraseIdx index) := by
    rcases List.getElem?_eq_some_iff.mp found with ⟨bound, here⟩
    have split := getElem_cons_eraseIdx_perm bound
    rw [here] at split
    exact split.symm
  unfold Space.allContinuations at waiting
  simp only [withoutMatched, taken, Bool.false_eq_true, if_false, spaceStore]
  cases installed : space.installedContinuations pc.channels with
  | none =>
    rw [installed] at waiting
    simpa [storedIndex] using stored _ waiting
  | some =>
    rw [installed] at waiting
    cases index : pc.continuationIndex with
    | zero =>
      -- an installed continuation stays, whatever is stored
      rw [index] at waiting
      cases waiting
      rw [persistent _ installed] at taken
      cases taken
    | succ below =>
      rw [index] at waiting
      simpa [storedIndex] using stored below waiting

theorem fire_agrees (agrees : AgreesOn scope left right) (installed : SameInstalled left right)
    {channel : C} {datum : Datum A Hash}
    {leftPc rightPc : ProduceCandidate C P A K Hash}
    (leftSelected : produceCandidate config left channel datum = some leftPc)
    (rightSelected : produceCandidate config right channel datum = some rightPc)
    (same : leftPc.shape = rightPc.shape) :
    AgreesOn scope (removeMatchedDatumAndJoin spaceStore leftPc.channels leftPc.dataCandidates
        (withoutMatched left leftPc))
      (removeMatchedDatumAndJoin spaceStore rightPc.channels rightPc.dataCandidates
        (withoutMatched right rightPc)) := by
  rcases leftPc with ⟨channels, wc, leftIndex, leftItems⟩
  rcases rightPc with ⟨_, _, rightIndex, rightItems⟩
  simp only [ProduceCandidate.shape, ProduceCandidate.mk.injEq, true_and] at same
  rcases same with ⟨sameChannels, sameWc, sameItems⟩
  subst sameChannels
  subst sameWc
  rcases candidate_found config left leftSelected with ⟨_, leftWaiting, leftMatched⟩
  rcases candidate_found config right rightSelected with ⟨_, rightWaiting, rightMatched⟩
  have leftRows := without_matched_joins left ⟨channels, wc, leftIndex, leftItems⟩
  have rightRows := without_matched_joins right ⟨channels, wc, rightIndex, rightItems⟩
  have continuations : ∀ (items : List (ConsumeCandidate C A Hash)) (space : Space C P A K Hash),
      (removeMatchedDatumAndJoin spaceStore channels items space).continuations =
        space.continuations := by
    intro _ _
    rw [remove_matched_rows]
  refine ⟨?_, ?_, ?_⟩
  · intro other
    rw [remove_matched_data_row, remove_matched_data_row, leftRows.2.2.2.2, rightRows.2.2.2.2]
    exact row_without_agrees leftMatched rightMatched sameItems (agrees.data other)
      (produced_indexes channel datum other _) (produced_indexes channel datum other _)
  · intro other ordered
    rw [continuations, continuations]
    by_cases listed : other = channels
    · subst listed
      have row := agrees.continuations other ordered
      cases kept : wc.persist with
      | true =>
        simp only [withoutMatched, kept, if_true]
        exact row
      | false =>
        have leftSplit := without_matched_row (installed.persistent _) leftWaiting kept
        have rightSplit := without_matched_row (fun wk found => installed.persistent _ wk
          ((installed.continuations _).trans found)) rightWaiting kept
        exact List.Perm.cons_inv (leftSplit.symm.trans (row.trans rightSplit))
    · rw [leftRows.2.2.2.1 other listed, rightRows.2.2.2.1 other listed]
      exact agrees.continuations other ordered
  · intro other
    rw [remove_matched_joins_shapes, remove_matched_joins_shapes, leftRows.1, rightRows.1,
      sameItems]
    have erased := erase_fold_perm (shapes rightItems)
      (fun item => decide (item.channel = other)) channels (agrees.joins other)
    simpa only [decide_eq_true_eq] using erased

/-- An operation that searches two spaces alike has one result on them, logs the same and keeps
them in agreement. -/
theorem perform_agrees_on (lawful : config.Lawful) (sourced : Sourced config left)
    (agrees : AgreesOn scope left right) (installed : SameInstalled left right)
    (operation : Operation C P A K)
    (alike : ∀ channel data persist, operation = .produce channel data persist →
      let datum : Datum A Hash := ⟨data, persist, Produce.apply config channel data persist⟩
      (produceCandidate config left channel datum).map ProduceCandidate.shape =
        (produceCandidate config right channel datum).map ProduceCandidate.shape)
    (leftLog rightLog : List (Event Hash)) (leftCounter rightCounter : Hash → Nat) :
    (perform config spaceStore ⟨left, leftLog, leftCounter⟩ operation).1 =
        (perform config spaceStore ⟨right, rightLog, rightCounter⟩ operation).1 ∧
      AgreesOn scope (perform config spaceStore ⟨left, leftLog, leftCounter⟩ operation).2.store
        (perform config spaceStore ⟨right, rightLog, rightCounter⟩ operation).2.store ∧
      (leftLog = rightLog → leftCounter = rightCounter →
        (perform config spaceStore ⟨left, leftLog, leftCounter⟩ operation).2.eventLog =
          (perform config spaceStore ⟨right, rightLog, rightCounter⟩ operation).2.eventLog) := by
  cases operation with
  | consume channels patterns continuation persist peeks =>
    rw [perform, perform]
    cases accepted : refusal channels patterns with
    | some =>
      rw [consume_refused config spaceStore accepted, consume_refused config spaceStore accepted]
      exact ⟨rfl, agrees, fun logs _ => logs⟩
    | none =>
      have fits := (accepted_iff channels patterns).mp accepted
      have shape : (matchContinuation config.matcher channels
          (fun c => some (sortedData (left.data c))) patterns).map shapes = _ :=
        match_shapes channels patterns (sorted_agrees lawful sourced agrees)
      rw [consume_rows config left channels patterns continuation persist peeks _ _ fits.1 fits.2,
        consume_rows config right channels patterns continuation persist peeks _ _ fits.1 fits.2]
      dsimp only
      cases leftMatched : matchContinuation config.matcher channels
          (fun c => some (sortedData (left.data c))) patterns with
      | none =>
        rw [leftMatched] at shape
        have rightMatched := Option.map_eq_none_iff.mp shape.symm
        rw [rightMatched]
        exact ⟨rfl, wait_agrees agrees channels _, fun logs _ => by rw [logs]⟩
      | some leftItems =>
        rw [leftMatched] at shape
        rcases Option.map_eq_some_iff.mp shape.symm with ⟨_, rightMatched, same⟩
        rw [rightMatched]
        refine ⟨?_, take_agrees agrees leftMatched rightMatched same.symm, ?_⟩
        · dsimp only
          rw [← wrap_result_shapes, ← same, wrap_result_shapes]
        · intro logs counters
          dsimp only
          rw [← comm_shapes leftItems, ← same, comm_shapes, logs, counters]
  | produce channel data persist =>
    have shape := alike channel data persist rfl
    rw [perform, perform, produce_rows, produce_rows]
    dsimp only at shape ⊢
    cases leftSelected : produceCandidate config left channel
        ⟨data, persist, Produce.apply config channel data persist⟩ with
    | none =>
      rw [leftSelected] at shape
      rw [Option.map_eq_none_iff.mp shape.symm]
      refine ⟨rfl, ⟨?_, agrees.continuations, agrees.joins⟩, fun logs _ => ?_⟩
      · intro other
        by_cases same : other = channel
        · subst same
          simp only [spaceStore, update_self]
          exact (agrees.data other).cons _
        · simp only [spaceStore, update_of_ne same]
          exact agrees.data other
      · simp only [RSpace.logProduce, logs]
    | some leftPc =>
      rw [leftSelected] at shape
      rcases Option.map_eq_some_iff.mp shape.symm with ⟨rightPc, rightSelected, same⟩
      rw [rightSelected]
      refine ⟨?_, fire_agrees agrees installed leftSelected rightSelected same.symm, ?_⟩
      · have wrapped : ∀ pc : ProduceCandidate C P A K Hash,
            wrapResult pc.channels pc.continuation pc.dataCandidates =
              wrapResult pc.shape.channels pc.shape.continuation pc.shape.dataCandidates :=
          fun pc => (wrap_result_shapes pc.channels pc.continuation pc.dataCandidates).symm
        simp only [processMatchFound]
        rw [wrapped leftPc, wrapped rightPc, same]
      · intro logs counters
        have logged : ∀ (pc : ProduceCandidate C P A K Hash) (counter : Hash → Nat),
            Comm.apply pc.dataCandidates pc.continuation.source pc.continuation.peeks counter =
              Comm.apply pc.shape.dataCandidates pc.shape.continuation.source
                pc.shape.continuation.peeks counter :=
          fun pc counter => (comm_shapes pc.dataCandidates _ _ counter).symm
        simp only [processMatchFound, RSpace.logComm, RSpace.logProduce, logged leftPc,
          logged rightPc, same, logs, counters]

theorem perform_agrees (lawful : config.Lawful) (tidy : Tidy config left)
    (agrees : Agrees config left right) (leftPlain : Uninstalled left)
    (rightPlain : Uninstalled right) (operation : Operation C P A K)
    (steady : Steady config left operation) (leftLog rightLog : List (Event Hash))
    (leftCounter rightCounter : Hash → Nat) :
    (perform config spaceStore ⟨left, leftLog, leftCounter⟩ operation).1 =
        (perform config spaceStore ⟨right, rightLog, rightCounter⟩ operation).1 ∧
      Agrees config (perform config spaceStore ⟨left, leftLog, leftCounter⟩ operation).2.store
        (perform config spaceStore ⟨right, rightLog, rightCounter⟩ operation).2.store := by
  have joins : ∀ space : Space C P A K Hash, Uninstalled space → ∀ channel,
      space.allJoins channel = space.joins channel := by
    intro _ plain _
    rw [Space.allJoins, plain.joins, nil_append]
  have installed : SameInstalled left right := by
    refine ⟨fun channels => ?_, fun channel => ?_, fun channels wk found => ?_⟩
    · rw [leftPlain.continuations, rightPlain.continuations]
    · rw [leftPlain.joins, rightPlain.joins]
    · rw [leftPlain.continuations] at found
      cases found
  have step := perform_agrees_on lawful tidy.sourced (agrees_iff_on.mp agrees) installed operation
    (fun channel data persist here => ?_) leftLog rightLog leftCounter rightCounter
  · exact ⟨step.1, agrees_iff_on.mpr step.2.1⟩
  · subst here
    rw [Steady] at steady
    refine produce_candidate_agrees lawful tidy.sourced (agrees_iff_on.mp agrees) installed channel
      _ ?_
    have ordered : ∀ join ∈ right.allJoins channel, join ∈ left.joins channel := by
      intro _ mem
      rw [joins right rightPlain] at mem
      exact (agrees.joins channel).mem_iff.mpr mem
    refine ⟨?_, fun join mem => tidy.ordered channel join (ordered join mem), ?_⟩
    · rw [joins left leftPlain, joins right rightPlain]
      exact find_some_perm _ (agrees.joins channel) steady
    · intro join _
      rw [SingleOn, Space.allContinuations, leftPlain.continuations]
      exact tidy.single join

variable {log : List (Event Hash)} {counter : Hash → Nat} {operation : Operation C P A K}
  {result : Except RSpaceError (ActionResult C P A K)} {next : RSpace (Space C P A K Hash) Hash}

theorem uninstalled_step (plain : Uninstalled left)
    (step : PlayStep config left log counter operation result next) : Uninstalled next.store := by
  cases step with
  | refuse => exact plain
  | wait =>
    rw [store_waiting_continuation_rows]
    exact ⟨plain.continuations, plain.joins⟩
  | take =>
    rw [store_persistent_data_rows]
    exact ⟨plain.continuations, plain.joins⟩
  | store => exact ⟨plain.continuations, plain.joins⟩
  | fire _ _ _ pc =>
    have rows := without_matched_joins left pc
    rw [remove_matched_rows]
    constructor
    · dsimp only
      rw [rows.2.2.1]
      exact plain.continuations
    · dsimp only
      rw [rows.2.1]
      exact plain.joins

theorem tidy_step (tidy : Tidy config left) (plain : Uninstalled left)
    (steady : Steady config left operation)
    (step : PlayStep config left log counter operation result next) : Tidy config next.store := by
  have installed := uninstalled_step plain step
  have shown : ∀ {space : Space C P A K Hash}, Uninstalled space → ∀ channels,
      space.allContinuations channels = space.continuations channels := by
    intro _ uninstalled _
    rw [Space.allContinuations, uninstalled.continuations]
    rfl
  have joined : ∀ {space : Space C P A K Hash}, Uninstalled space → ∀ channel,
      space.allJoins channel = space.joins channel := by
    intro _ uninstalled _
    rw [Space.allJoins, uninstalled.joins]
    rfl
  refine ⟨?_, ?_, ?_⟩
  · intro channel datum stored
    rcases step_data step stored with old | ⟨_, _, _, fresh⟩
    · exact tidy.sourced channel datum old
    · rw [fresh]
  · intro channel join mem
    rw [← joined installed] at mem
    rcases step_joins step mem with old | ⟨_, _, _, _, _, performed⟩
    · rw [joined plain] at old
      exact tidy.ordered channel join old
    · subst performed
      exact steady.1
  · intro channels wc mem other otherMember same
    rw [← shown installed] at mem otherMember
    rcases step_continuations step mem with old | ⟨patterns, continuation, persist, peeks,
      performed, _, fresh⟩
    · rcases step_continuations step otherMember with otherOld | ⟨_, _, _,
        _, performed, _, otherFresh⟩
      · rw [shown plain] at old otherOld
        exact tidy.single channels wc old other otherOld same
      · subst performed
        subst otherFresh
        rw [shown plain] at old
        exact steady.2 wc old same
    · rcases step_continuations step otherMember with otherOld | ⟨_, _,
        _, _, otherPerformed, _, otherFresh⟩
      · subst performed
        subst fresh
        rw [shown plain] at otherOld
        exact (steady.2 other otherOld same.symm).symm
      · rw [performed] at otherPerformed
        cases otherPerformed
        rw [fresh, otherFresh]

end Operations

end RChain.TupleSpace
