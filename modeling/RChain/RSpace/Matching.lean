import RChain.RSpace.Refinement

/-!
# Matching over distinct channels

On a join that lists no channel twice, the patterns are matched independently: each
takes the first datum of its channel that it accepts. From this, matching over fewer
data succeeds less often, and restricting every channel to the data of the selected
source selects the same data.
-/

namespace RChain.TupleSpace

open BitCodec List

variable {C P A K Hash : Type} [DecidableEq C]

/-- The candidate a stored datum gives for a pattern, if the pattern accepts it. -/
def candidateAt (matcher : P → A → Option A) (channel : C) (pattern : P)
    (entry : IndexedDatum A Hash) : Option (ConsumeCandidate C A Hash) :=
  (matcher pattern entry.1.a).map fun mat =>
    { channel := channel
      datum := { a := mat, persist := entry.1.persist, source := entry.1.source }
      removedDatum := entry.1.a
      datumIndex := entry.2 }

/-- The candidate of the first datum the pattern accepts. -/
def selectDatum (matcher : P → A → Option A) (channel : C) (pattern : P)
    (data : List (IndexedDatum A Hash)) : Option (ConsumeCandidate C A Hash) :=
  data.findSome? (candidateAt matcher channel pattern)

variable {matcher : P → A → Option A}

omit [DecidableEq C] in
theorem find_from_candidate (channel : C) (pattern : P) (data skipped rest : List (IndexedDatum A Hash)) :
    (findFrom matcher channel data pattern skipped rest).map Prod.fst =
      selectDatum matcher channel pattern rest := by
  induction rest generalizing skipped with
  | nil => rfl
  | cons entry _ ih =>
    simp only [findFrom, selectDatum, findSome?_cons, candidateAt]
    cases matcher pattern entry.1.a with
    | none => exact ih _
    | some => rfl

theorem extract_distinct (pairs : List (C × P)) (distinct : (pairs.map Prod.fst).Nodup)
    (data : C → Option (List (IndexedDatum A Hash))) :
    extractDataCandidates matcher pairs data =
      pairs.map fun pair => (data pair.1).bind (selectDatum matcher pair.1 pair.2) := by
  induction pairs generalizing data with
  | nil => rfl
  | cons pair _ ih =>
    rw [map_cons, nodup_cons] at distinct
    have found : ((data pair.1).bind fun row =>
        findMatchingDataCandidate matcher pair.1 row pair.2).map Prod.fst =
        (data pair.1).bind (selectDatum matcher pair.1 pair.2) := by
      rw [Option.map_bind]
      apply congrArg
      funext row
      exact find_from_candidate pair.1 pair.2 row [] row
    rw [map_cons, ← found]
    simp only [extractDataCandidates]
    cases (data pair.1).bind fun row => findMatchingDataCandidate matcher pair.1 row pair.2 with
    | none => exact congrArg (none :: ·) (ih distinct.2 data)
    | some result =>
      dsimp only
      rw [ih distinct.2]
      apply congrArg (some result.1 :: ·)
      apply map_congr_left
      intro other mem
      have different : other.1 ≠ pair.1 := fun same =>
        distinct.1 (same ▸ mem_map_of_mem mem)
      rw [Function.update_of_ne different]

omit [DecidableEq C] in
theorem zip_fst_sublist (channels : List C) (patterns : List P) :
    ((channels.zip patterns).map Prod.fst).Sublist channels := by
  induction channels generalizing patterns with
  | nil => exact List.Sublist.slnil
  | cons channel _ ih =>
    cases patterns with
    | nil => exact nil_sublist _
    | cons _ patterns => exact (ih patterns).cons_cons channel

theorem collect_eq_some_iff {Item : Type} (options : List (Option Item)) (items : List Item) :
    collectOptions options = some items ↔ options = items.map some := by
  induction options generalizing items with
  | nil =>
    cases items with
    | nil | cons => simp [collectOptions]
  | cons option _ ih =>
    cases option with
    | none =>
      cases items with
      | nil | cons => simp [collectOptions]
    | some =>
      cases items with
      | nil => simp [collectOptions]
      | cons _ items =>
        rw [collectOptions, Option.map_eq_some_iff]
        simp only [ih, cons.injEq, map_cons, Option.some.injEq]
        constructor
        · rintro ⟨_, same, heads, tails⟩
          exact ⟨heads, tails ▸ same⟩
        · rintro ⟨heads, tails⟩
          exact ⟨items, tails, heads, rfl⟩

theorem collect_eq_none_iff {Item : Type} (options : List (Option Item)) :
    collectOptions options = none ↔ none ∈ options := by
  induction options with
  | nil => simp [collectOptions]
  | cons option _ ih =>
    cases option with
    | none => simp [collectOptions]
    | some => simp [collectOptions, ih]

section Distinct

variable {channels : List C} (distinct : channels.Nodup) (patterns : List P)
  (data : C → List (IndexedDatum A Hash))

include distinct

theorem match_distinct :
    matchContinuation matcher channels (fun channel => some (data channel)) patterns =
      collectOptions ((channels.zip patterns).map fun pair =>
        selectDatum matcher pair.1 pair.2 (data pair.1)) := by
  unfold matchContinuation
  rw [extract_distinct _ (distinct.sublist (zip_fst_sublist channels patterns))]
  rfl

theorem match_eq_none_iff :
    matchContinuation matcher channels (fun channel => some (data channel)) patterns = none ↔
      ∃ pair ∈ channels.zip patterns, ∀ entry ∈ data pair.1,
        candidateAt matcher pair.1 pair.2 entry = none := by
  rw [match_distinct distinct, collect_eq_none_iff, mem_map]
  simp only [selectDatum, findSome?_eq_none_iff]

theorem match_eq_some_iff (items : List (ConsumeCandidate C A Hash)) :
    matchContinuation matcher channels (fun channel => some (data channel)) patterns = some items ↔
      (channels.zip patterns).map (fun pair => selectDatum matcher pair.1 pair.2 (data pair.1)) =
        items.map some := by
  rw [match_distinct distinct, collect_eq_some_iff]

theorem match_none_of_subset (fewer : C → List (IndexedDatum A Hash))
    (subset : ∀ channel ∈ channels, fewer channel ⊆ data channel)
    (failed : matchContinuation matcher channels (fun channel => some (data channel)) patterns =
      none) :
    matchContinuation matcher channels (fun channel => some (fewer channel)) patterns = none := by
  rw [match_eq_none_iff distinct] at failed ⊢
  rcases failed with ⟨pair, mem, rejected⟩
  refine ⟨pair, mem, ?_⟩
  intro entry listed
  exact rejected entry (subset pair.1 (of_mem_zip mem).1 listed)

section

variable {items : List (ConsumeCandidate C A Hash)}
  (matched : matchContinuation matcher channels (fun channel => some (data channel)) patterns =
    some items)
include matched

theorem selected_of_pair {pair : C × P} (mem : pair ∈ channels.zip patterns) :
    ∃ item ∈ items, selectDatum matcher pair.1 pair.2 (data pair.1) = some item := by
  rw [match_eq_some_iff distinct] at matched
  have listed : selectDatum matcher pair.1 pair.2 (data pair.1) ∈ items.map some := by
    rw [← matched]
    exact mem_map_of_mem mem
  rcases mem_map.mp listed with ⟨item, present, same⟩
  exact ⟨item, present, same.symm⟩

theorem match_some_of_select (other : C → List (IndexedDatum A Hash))
    (each : ∀ pair ∈ channels.zip patterns, ∀ item ∈ items,
      selectDatum matcher pair.1 pair.2 (data pair.1) = some item →
        selectDatum matcher pair.1 pair.2 (other pair.1) = some item) :
    matchContinuation matcher channels (fun channel => some (other channel)) patterns =
      some items := by
  have selected {pair : C × P} (mem : pair ∈ channels.zip patterns) :=
    selected_of_pair distinct patterns data matched mem
  rw [match_eq_some_iff distinct] at matched ⊢
  rw [← matched]
  apply map_congr_left
  intro pair mem
  obtain ⟨item, present, same⟩ := selected mem
  rw [each pair mem item present same, same]

theorem selected_of_mem {item : ConsumeCandidate C A Hash} (mem : item ∈ items) :
    ∃ pair ∈ channels.zip patterns, selectDatum matcher pair.1 pair.2 (data pair.1) = some item := by
  rw [match_eq_some_iff distinct] at matched
  have listed : some item ∈ items.map some := mem_map_of_mem mem
  rw [← matched] at listed
  exact mem_map.mp listed

end

end Distinct


theorem find_some_filter {Item Result : Type} (search : Item → Option Result)
    (keep : Item → Bool) {items : List Item} {result : Result}
    (found : items.findSome? search = some result)
    (kept : ∀ item ∈ items, search item = some result → keep item = true) :
    (items.filter keep).findSome? search = some result := by
  induction items with
  | nil => exact found
  | cons item items ih =>
    rw [findSome?_cons] at found
    have tail : ∀ other ∈ items, search other = some result → keep other = true :=
      fun other mem => kept other (mem_cons_of_mem _ mem)
    cases outcome : search item with
    | some =>
      rw [outcome] at found
      have same : search item = some result := outcome.trans found
      rw [filter_cons_of_pos (kept item mem_cons_self same), findSome?_cons, same]
    | none =>
      rw [outcome] at found
      rw [filter_cons]
      split_ifs
      · rw [findSome?_cons, outcome]
        exact ih found tail
      · exact ih found tail

/-- Sorting is stable: items of one key keep their order. -/
theorem sort_filter_key {Item Key : Type} [LinearOrder Key] (key : Item → Key) (items : List Item)
    (value : Key) :
    (sortByKey key items).filter (fun item => key item = value) =
      items.filter fun item => key item = value := by
  have ordered : (items.filter fun item => key item = value).Pairwise
      fun left right => key left ≤ key right := by
    apply pairwise_of_forall_mem_list
    intro _ leftMember _ rightMember
    have leftKey := (mem_filter.mp leftMember).2
    have rightKey := (mem_filter.mp rightMember).2
    rw [decide_eq_true_iff] at leftKey rightKey
    rw [leftKey, rightKey]
  have sublist := (sublist_insertionSort ordered filter_sublist).filter fun item => key item = value
  rw [filter_filter] at sublist
  simp only [Bool.and_self] at sublist
  apply (sublist.eq_of_length _).symm
  exact ((sort_by_key_perm key items).filter _).length_eq.symm

end RChain.TupleSpace
