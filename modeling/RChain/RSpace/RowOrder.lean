import RChain.RSpace.Serializers
import RChain.RSpace.PlayRun

/-!
# The order of a row does not matter

Data and continuations are tried in the order of their hashes, so what an operation
selects depends on a row as a multiset, as long as equal hashes belong to equal items.
What it removes is found by index, and the indices it hands out are those of the
selected items. Hence two spaces whose rows agree up to order give the same results and
stay in agreement.
-/

namespace RChain.TupleSpace

open List Function

variable {C P A K Hash : Type} [DecidableEq C]

section Removal

theorem remove_entries_perm {Item : Type} (entries : List (Item × Int)) (row : List Item)
    (descending : entries.Pairwise fun left right => right.2 < left.2)
    (valid : ∀ entry ∈ entries, 0 ≤ entry.2 → row[entry.2.toNat]? = some entry.1) :
    row.Perm ((entries.filter fun entry => 0 ≤ entry.2).map Prod.fst ++
      entries.foldl (fun row entry => removeAt row entry.2) row) := by
  induction entries generalizing row with
  | nil => exact List.Perm.refl row
  | cons entry entries ih =>
    rw [pairwise_cons] at descending
    have tail : ∀ other ∈ entries, 0 ≤ other.2 → row[other.2.toNat]? = some other.1 :=
      fun other mem => valid other (mem_cons_of_mem _ mem)
    rw [foldl_cons]
    by_cases stored : 0 ≤ entry.2
    · have present := valid entry mem_cons_self stored
      rcases List.getElem?_eq_some_iff.mp present with ⟨bound, same⟩
      have removed : removeAt row entry.2 = row.eraseIdx entry.2.toNat := if_pos ⟨stored, bound⟩
      rw [removed, filter_cons_of_pos (by simpa using stored), map_cons, cons_append]
      have shorter := ih (row.eraseIdx entry.2.toNat) descending.2 (by
        intro other mem positive
        have below := descending.1 other mem
        rw [getElem?_eraseIdx_of_lt (by omega)]
        exact tail other mem positive)
      have split := (getElem_cons_eraseIdx_perm bound).symm
      rw [same] at split
      exact split.trans (shorter.cons entry.1)
    · have unchanged : removeAt row entry.2 = row := if_neg fun both => stored both.1
      rw [unchanged, filter_cons_of_neg (by simpa using stored)]
      exact ih row descending.2 tail

/-- The stored datum a candidate stands for, with its index. -/
def ConsumeCandidate.entry (item : ConsumeCandidate C A Hash) : IndexedDatum A Hash :=
  (⟨item.removedDatum, item.datum.persist, item.datum.source⟩, item.datumIndex)

def takenOn (channel : C) (items : List (ConsumeCandidate C A Hash)) :
    List (ConsumeCandidate C A Hash) :=
  items.filter fun item => item.channel = channel && !item.datum.persist

variable {channel : C} {item : ConsumeCandidate C A Hash}

variable (items : List (ConsumeCandidate C A Hash))

theorem taken_on_cons_self (same : item.channel = channel) (taken : item.datum.persist = false) :
    takenOn channel (item :: items) = item :: takenOn channel items := by
  rw [takenOn, filter_cons_of_pos (by simp [same, taken])]
  rfl

theorem taken_on_cons_kept (kept : item.datum.persist = true) :
    takenOn channel (item :: items) = takenOn channel items := by
  rw [takenOn, filter_cons_of_neg (by simp [kept])]
  rfl

theorem taken_on_cons_other (other : item.channel ≠ channel) :
    takenOn channel (item :: items) = takenOn channel items := by
  rw [takenOn, filter_cons_of_neg (by simp [other])]
  rfl

variable {matcher : P → A → Option A}

omit [DecidableEq C] in
theorem find_from_taken {pattern : P} {data skipped rest : List (IndexedDatum A Hash)}
    {remaining : List (IndexedDatum A Hash)}
    (found : findFrom matcher channel data pattern skipped rest = some (item, remaining)) :
    item.channel = channel ∧ (item.datum.persist = true → remaining = data) ∧
      (item.datum.persist = false → (skipped ++ rest).Perm (item.entry :: remaining)) ∧
      item.entry ∈ rest := by
  induction rest generalizing skipped with
  | nil => exact absurd found (by nofun)
  | cons entry _ ih =>
    rw [findFrom] at found
    cases accepted : matcher pattern entry.1.a with
    | none =>
      rw [accepted] at found
      rcases ih found with ⟨place, kept, taken, listed⟩
      refine ⟨place, kept, ?_, mem_cons_of_mem _ listed⟩
      intro plain
      exact perm_middle.trans (taken plain)
    | some =>
      rw [accepted] at found
      rcases Prod.ext_iff.mp (Option.some.inj found) with ⟨candidate, left⟩
      dsimp only at candidate left
      subst candidate
      refine ⟨rfl, ?_, ?_, mem_cons_self⟩
      · intro kept
        rw [← left, if_pos kept]
      · intro plain
        dsimp only at plain
        rw [plain] at left
        rw [← left]
        exact perm_middle

/-- The candidates of a channel are among the data offered there, and those that are not persistent
are different ones. -/
theorem extract_taken (pairs : List (C × P)) (data : C → Option (List (IndexedDatum A Hash)))
    (items : List (ConsumeCandidate C A Hash))
    (extracted : extractDataCandidates matcher pairs data = items.map some) (channel : C)
    (row : List (IndexedDatum A Hash)) (offered : data channel = some row) :
    (∃ rest, row.Perm ((takenOn channel items).map ConsumeCandidate.entry ++ rest)) ∧
      ∀ item ∈ items, item.channel = channel → item.entry ∈ row := by
  induction pairs generalizing data items row with
  | nil =>
    cases items with
    | nil => exact ⟨⟨row, List.Perm.refl row⟩, fun _ mem => absurd mem not_mem_nil⟩
    | cons => exact absurd extracted (cons_ne_nil _ _).symm
  | cons pair _ ih =>
    rw [extractDataCandidates] at extracted
    cases found : (data pair.1).bind fun list =>
        findMatchingDataCandidate matcher pair.1 list pair.2 with
    | none =>
      rw [found] at extracted
      cases items with
      | nil | cons => exact absurd extracted (by simp)
    | some result =>
      rw [found] at extracted
      cases items with
      | nil => exact absurd extracted (by simp)
      | cons item items =>
        simp only [map_cons, cons.injEq, Option.some.injEq] at extracted
        rcases Option.bind_eq_some_iff.mp found with ⟨_, there, match_found⟩
        obtain ⟨place, kept, taken, listed⟩ := find_from_taken match_found
        rw [extracted.1] at place kept taken listed
        by_cases same : channel = pair.1
        · subst same
          rw [offered] at there
          cases there
          cases plain : item.datum.persist with
          | true =>
            have later := ih _ items extracted.2 row (by rw [update_self, kept plain])
            rw [taken_on_cons_kept items plain]
            exact ⟨later.1, forall_mem_cons.mpr ⟨fun _ => listed, later.2⟩⟩
          | false =>
            obtain ⟨⟨rest, perm⟩, later⟩ := ih _ items extracted.2 result.2 (update_self _ _ _)
            rw [taken_on_cons_self items place plain, map_cons]
            refine ⟨⟨rest, (taken plain).trans (perm.cons _)⟩, forall_mem_cons.mpr
              ⟨fun _ => listed, fun other mem here => ?_⟩⟩
            exact (taken plain).mem_iff.mpr (mem_cons_of_mem _ (later other mem here))
        · have other : item.channel ≠ channel := fun equal => same (equal.symm.trans place)
          have later := ih _ items extracted.2 row (by rw [update_of_ne same, offered])
          rw [taken_on_cons_other items other]
          exact ⟨later.1, forall_mem_cons.mpr ⟨fun here => absurd here other, later.2⟩⟩

/-- The row of a channel after matched data were removed, highest index first. -/
def rowWithout (row : List (Datum A Hash)) (items : List (ConsumeCandidate C A Hash)) :
    List (Datum A Hash) :=
  items.foldl (fun row item => removeAt row item.datumIndex) row

/-- The matched data in the order in which they are removed. -/
def removalOrder : List (ConsumeCandidate C A Hash) :=
  sortByKey (fun candidate => OrderDual.toDual candidate.datumIndex) items

theorem store_persistent_data_row (space : Space C P A K Hash) (channel : C) :
    (storePersistentData spaceStore items space).data channel =
      rowWithout (space.data channel) (takenOn channel (removalOrder items)) := by
  unfold storePersistentData removalOrder
  generalize sortByKey (fun candidate => OrderDual.toDual candidate.datumIndex) items = sorted
  induction sorted generalizing space with
  | nil => rfl
  | cons item sorted ih =>
    rw [foldl_cons, ih]
    cases kept : item.datum.persist with
    | true =>
      rw [taken_on_cons_kept sorted kept]
      rfl
    | false =>
      by_cases same : item.channel = channel
      · rw [taken_on_cons_self sorted same kept, same]
        simp only [Bool.false_eq_true, if_false, spaceStore, update_self, rowWithout, foldl_cons]
      · rw [taken_on_cons_other sorted same]
        simp only [Bool.false_eq_true, if_false, spaceStore, update_of_ne (Ne.symm same)]

theorem remove_matched_data_row (channels : List C) (items : List (ConsumeCandidate C A Hash))
    (space : Space C P A K Hash) (channel : C) :
    (removeMatchedDatumAndJoin spaceStore channels items space).data channel =
      rowWithout (space.data channel) (takenOn channel (removalOrder items)) := by
  unfold removeMatchedDatumAndJoin removalOrder
  generalize sortByKey (fun candidate => OrderDual.toDual candidate.datumIndex) items = sorted
  induction sorted generalizing space with
  | nil => rfl
  | cons item sorted ih =>
    rw [foldl_cons, ih]
    cases kept : item.datum.persist with
    | true =>
      rw [taken_on_cons_kept sorted kept]
      simp only [Bool.true_eq_false, and_false, if_false, spaceStore]
    | false =>
      by_cases same : item.channel = channel
      · rw [taken_on_cons_self sorted same kept, same]
        by_cases stored : 0 ≤ item.datumIndex
        · simp only [stored, and_self, if_true, spaceStore, update_self, rowWithout, foldl_cons]
        · have unchanged : removeAt (space.data channel) item.datumIndex = space.data channel :=
            if_neg fun both => stored both.1
          simp only [stored, false_and, if_false, spaceStore, rowWithout, foldl_cons, unchanged]
      · rw [taken_on_cons_other sorted same]
        split_ifs
        · simp only [spaceStore, update_of_ne (Ne.symm same)]
        · simp only [spaceStore]

theorem remove_matched_joins_row (channels : List C) (items : List (ConsumeCandidate C A Hash))
    (space : Space C P A K Hash) (channel : C) :
    (removeMatchedDatumAndJoin spaceStore channels items space).joins channel =
      (removalOrder items).foldl
        (fun row item => if item.channel = channel then row.erase channels else row)
        (space.joins channel) := by
  unfold removeMatchedDatumAndJoin removalOrder
  generalize sortByKey (fun candidate => OrderDual.toDual candidate.datumIndex) items = sorted
  induction sorted generalizing space with
  | nil => rfl
  | cons item _ ih =>
    rw [foldl_cons, foldl_cons, ih]
    congr 1
    by_cases same : item.channel = channel
    · subst same
      simp only [spaceStore, update_self, if_true]
      split_ifs
      · rfl
      · rfl
    · simp only [spaceStore, update_of_ne (Ne.symm same), if_neg same]
      split_ifs
      · rfl
      · rfl

/-- The data offered on a channel stand at distinct indices, and those in the store at their
index. -/
structure Indexes (row : List (Datum A Hash)) (offered : List (IndexedDatum A Hash)) : Prop where
  distinct : (offered.map Prod.snd).Nodup
  stored : ∀ entry ∈ offered, 0 ≤ entry.2 → row[entry.2.toNat]? = some entry.1

def storedOn (channel : C) (items : List (ConsumeCandidate C A Hash)) : List (Datum A Hash) :=
  ((takenOn channel items).filter fun item => 0 ≤ item.datumIndex).map fun item => item.entry.1

theorem row_without_perm {channels : List C} {patterns : List P}
    {offered : C → List (IndexedDatum A Hash)} {items : List (ConsumeCandidate C A Hash)}
    (matched : matchContinuation matcher channels (fun c => some (offered c)) patterns = some items)
    {row : List (Datum A Hash)} (indexes : Indexes row (offered channel)) :
    row.Perm (storedOn channel items ++ rowWithout row (takenOn channel (removalOrder items))) := by
  obtain ⟨_, split⟩ :=
    (extract_taken _ _ items ((collect_eq_some_iff _ _).mp matched) channel _ rfl).1
  have sorted : (takenOn channel (removalOrder items)).Perm (takenOn channel items) :=
    (sort_by_key_perm _ _).filter _
  have entries := sorted.map ConsumeCandidate.entry
  have listed : ∀ entry ∈ (takenOn channel (removalOrder items)).map ConsumeCandidate.entry,
      entry ∈ offered channel := fun entry mem =>
    split.mem_iff.mpr (mem_append_left _ (entries.mem_iff.mp mem))
  have distinct : (((takenOn channel (removalOrder items)).map ConsumeCandidate.entry).map
      Prod.snd).Nodup := by
    have whole := (split.map Prod.snd).nodup_iff.mp indexes.distinct
    rw [map_append] at whole
    exact (entries.map Prod.snd).nodup_iff.mpr (List.Nodup.of_append_left whole)
  have descending : ((takenOn channel (removalOrder items)).map ConsumeCandidate.entry).Pairwise
      fun left right => right.2 < left.2 := by
    have ordered := (sort_by_key_sorted
      (fun candidate : ConsumeCandidate C A Hash => OrderDual.toDual candidate.datumIndex)
      items).filter fun item => item.channel = channel && !item.datum.persist
    have weak : ((takenOn channel (removalOrder items)).map ConsumeCandidate.entry).Pairwise
        fun left right => right.2 ≤ left.2 := pairwise_map.mpr ordered
    exact (weak.and (pairwise_map.mp distinct)).imp fun both =>
      lt_of_le_of_ne both.1 (Ne.symm both.2)
  have removed := remove_entries_perm _ row descending fun entry mem =>
    indexes.stored entry (listed entry mem)
  have left : rowWithout row (takenOn channel (removalOrder items)) =
      ((takenOn channel (removalOrder items)).map ConsumeCandidate.entry).foldl
        (fun row entry => removeAt row entry.2) row := by
    rw [foldl_map]
    rfl
  have taken : (((takenOn channel (removalOrder items)).map ConsumeCandidate.entry).filter
      fun entry => 0 ≤ entry.2).map Prod.fst =
        ((takenOn channel (removalOrder items)).filter fun item => 0 ≤ item.datumIndex).map
          fun item => item.entry.1 := by
    rw [filter_map, map_map]
    rfl
  rw [taken, ← left] at removed
  exact removed.trans (((sorted.filter _).map _).append_right _)

end Removal

section Shape

variable {matcher : P → A → Option A}

def ConsumeCandidate.relabel (label : Int → Int) (item : ConsumeCandidate C A Hash) :
    ConsumeCandidate C A Hash :=
  { item with datumIndex := label item.datumIndex }

omit [DecidableEq C] in
theorem find_from_relabel (label : Int → Int) (channel : C) (pattern : P)
    (data skipped rest : List (IndexedDatum A Hash)) :
    findFrom matcher channel (data.map (Prod.map id label)) pattern
        (skipped.map (Prod.map id label)) (rest.map (Prod.map id label)) =
      (findFrom matcher channel data pattern skipped rest).map fun found =>
        (found.1.relabel label, found.2.map (Prod.map id label)) := by
  induction rest generalizing skipped with
  | nil => rfl
  | cons entry _ ih =>
    simp only [map_cons, findFrom, Prod.map, id_eq]
    cases matcher pattern entry.1.a with
    | none => exact ih (entry :: skipped)
    | some =>
      simp only [Option.map_some, ConsumeCandidate.relabel]
      split_ifs
      · rfl
      · rw [map_append]

theorem extract_relabel (label : Int → Int) (pairs : List (C × P))
    (data : C → Option (List (IndexedDatum A Hash))) :
    extractDataCandidates matcher pairs (fun c => (data c).map (map (Prod.map id label))) =
      (extractDataCandidates matcher pairs data).map
        (Option.map (ConsumeCandidate.relabel label)) := by
  induction pairs generalizing data with
  | nil => rfl
  | cons pair _ ih =>
    have found : (((data pair.1).map (map (Prod.map id label))).bind fun row =>
        findMatchingDataCandidate matcher pair.1 row pair.2) =
        ((data pair.1).bind fun row => findMatchingDataCandidate matcher pair.1 row pair.2).map
          fun found => (found.1.relabel label, found.2.map (Prod.map id label)) := by
      cases data pair.1 with
      | none => rfl
      | some row => exact find_from_relabel label pair.1 pair.2 row [] row
    simp only [extractDataCandidates, found]
    cases (data pair.1).bind fun row => findMatchingDataCandidate matcher pair.1 row pair.2 with
    | none => exact congrArg (none :: ·) (ih data)
    | some result =>
      have updated : update (fun c => (data c).map (map (Prod.map id label))) pair.1
          (some (result.2.map (Prod.map id label))) =
          fun c => (update data pair.1 (some result.2) c).map
            (map (Prod.map id label)) :=
        (comp_update (Option.map (map (Prod.map id label))) data pair.1 (some result.2)).symm
      simp only [Option.map_some, map_cons, updated, ih]

theorem collect_map {Item Image : Type} (map : Item → Image) (options : List (Option Item)) :
    collectOptions (options.map (Option.map map)) = (collectOptions options).map (List.map map) := by
  induction options with
  | nil => rfl
  | cons option _ ih =>
    cases option with
    | none => rfl
    | some =>
      simp only [map_cons, Option.map_some, collectOptions, ih, Option.map_map]
      rfl

/-- Whether a datum is stored (0) or is the one being produced (-1). -/
def stance (index : Int) : Int :=
  if 0 ≤ index then 0 else -1

def shapes (items : List (ConsumeCandidate C A Hash)) : List (ConsumeCandidate C A Hash) :=
  items.map (ConsumeCandidate.relabel stance)

theorem indexed_fst (row : List (Datum A Hash)) : (indexed row).map Prod.fst = row := by
  rw [indexed, map_map]
  exact zipIdx_map_fst 0 row

variable {row : List (Datum A Hash)}

theorem indexed_nonneg {entry : IndexedDatum A Hash} (mem : entry ∈ indexed row) :
    0 ≤ entry.2 ∧ row[entry.2.toNat]? = some entry.1 := by
  rcases mem_map.mp mem with ⟨pair, listed, same⟩
  rw [← same]
  exact ⟨Int.natCast_nonneg pair.2, mem_zipIdx_iff_getElem?.mp listed⟩

theorem indexed_nodup (row : List (Datum A Hash)) : ((indexed row).map Prod.snd).Nodup := by
  have indices : (indexed row).map Prod.snd = (range' 0 row.length).map fun n : Nat => (n : Int) := by
    rw [indexed, map_map, ← zipIdx_map_snd 0 row, map_map]
    rfl
  rw [indices]
  exact List.Nodup.map Int.ofNat_injective nodup_range'

variable [LinearOrder Hash]

theorem sorted_indexes (row : List (Datum A Hash)) : Indexes row (sortedData row) where
  distinct := ((sorted_data_perm row).map Prod.snd).nodup_iff.mpr (indexed_nodup row)
  stored := fun _ mem _ => (indexed_nonneg ((sorted_data_perm row).mem_iff.mp mem)).2

theorem sorted_nonneg {entry : IndexedDatum A Hash} (mem : entry ∈ sortedData row) : 0 ≤ entry.2 :=
  (indexed_nonneg ((sorted_data_perm row).mem_iff.mp mem)).1

theorem produced_indexes (channel : C) (datum : Datum A Hash) (c : C)
    (row : List (Datum A Hash)) : Indexes row (withProduced channel datum c row) := by
  unfold withProduced
  split_ifs
  · constructor
    · rw [map_cons, nodup_cons]
      refine ⟨?_, (sorted_indexes row).distinct⟩
      intro mem
      rcases mem_map.mp mem with ⟨_, listed, _⟩
      have stored := sorted_nonneg listed
      omega
    · intro entry mem stored
      rcases mem_cons.mp mem with flight | listed
      · rw [flight] at stored
        dsimp only at stored
        omega
      · exact (sorted_indexes row).stored entry listed stored
  · exact sorted_indexes row

theorem sorted_stance (row : List (Datum A Hash)) : (sortedData row).map (Prod.map id stance) =
      (sortByKey (fun datum => datum.source.hash) row).map fun datum => (datum, 0) := by
  have data : (sortedData row).map Prod.fst = sortByKey (fun datum => datum.source.hash) row := by
    rw [sortedData, ← map_sort_by_key (fun datum : Datum A Hash => datum.source.hash) Prod.fst,
      indexed_fst]
  rw [← data, map_map]
  apply map_congr_left
  intro _ mem
  exact Prod.ext rfl (if_pos (sorted_nonneg mem))

omit [LinearOrder Hash] in
theorem match_shapes {config : Config C P A K Hash} (channels : List C) (patterns : List P)
    {left right : C → List (IndexedDatum A Hash)}
    (same : ∀ c, (left c).map (Prod.map id stance) = (right c).map (Prod.map id stance)) :
    (matchContinuation config.matcher channels (fun c => some (left c)) patterns).map shapes =
      (matchContinuation config.matcher channels (fun c => some (right c)) patterns).map shapes := by
  have relabelled : ∀ offered : C → List (IndexedDatum A Hash),
      (matchContinuation config.matcher channels (fun c => some (offered c)) patterns).map shapes =
        matchContinuation config.matcher channels
          (fun c => some ((offered c).map (Prod.map id stance))) patterns := by
    intro offered
    have mapped := collect_map (ConsumeCandidate.relabel stance)
      (extractDataCandidates config.matcher (channels.zip patterns) fun c => some (offered c))
    rw [← extract_relabel] at mapped
    exact mapped.symm
  rw [relabelled, relabelled]
  simp only [same]

end Shape

end RChain.TupleSpace
