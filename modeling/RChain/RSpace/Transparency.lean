import RChain.RSpace.CheckpointKeys
import RChain.RSpace.Commit

/-!
# Checkpoints are transparent

After a checkpoint the rows are those the codecs give back: the same items, sorted by
their encoding. A space with checkpoints therefore agrees, up to the order of rows,
with one that never took any, as long as joins list their channels in encoding order,
the rows fit the length fields of their encodings, and no result depends on the order
of a row.
-/

namespace RChain.TupleSpace

open BitCodec Runs List AList

variable {Trie C P A K Hash : Type} [DecidableEq C] [LinearOrder Hash]

section Fits

variable {config : Config C P A K Hash}

/-- A row is small enough for the count and length fields of its leaf. -/
structure RowFits {Item : Type} (kind : RowKind Item) (fits : Item → Prop) (row : List Item) :
    Prop where
  count : row.length < 2 ^ 32
  items : ∀ item ∈ row, fits item
  bytes : (kind.encode row).length < 2 ^ 64

variable {Item : Type} {kind : RowKind Item} {fits : Item → Prop} {Key : Type}
  {rows : AList fun _ : Key => List Item}

theorem encode_row_nil (encode : Item → List Byte) : (encodeRow encode []).length < 2 ^ 64 := by
  have same : encodeRow encode [] = encodeSeqByteVectors [] := rfl
  rw [same]
  decide

theorem row_fits_perm {row other : List Item} (encodes : kind.encode row = kind.encode other)
    (perm : row.Perm other) (small : RowFits kind fits row) : RowFits kind fits other where
  count := perm.length_eq ▸ small.count
  items := fun item mem => small.items item (perm.mem_iff.mpr mem)
  bytes := encodes ▸ small.bytes

/-- The rows of the overlay fit their leaves. -/
structure Fits (config : Config C P A K Hash) (state : HotStoreState C P A K Hash) : Prop where
  data : ∀ entry ∈ state.data.entries, RowFits (dataRows config) (Datum.Fits config) entry.2
  continuations : ∀ entry ∈ state.continuations.entries,
    RowFits (continuationRows config) (WaitingContinuation.Fits config) entry.2
  joins : ∀ entry ∈ state.joins.entries, RowFits (joinRows config) (JoinFits config) entry.2

theorem shown_row_fits [DecidableEq Key] (small : ∀ entry ∈ rows.entries, RowFits kind fits entry.2)
    (empty : (kind.encode []).length < 2 ^ 64) (key : Key) :
    RowFits kind fits (rowOr rows key []) := by
  unfold rowOr
  cases found : rows.lookup key with
  | some => exact small _ (mem_lookup_iff.mp found)
  | none => exact ⟨Nat.two_pow_pos 32, fun _ mem => absurd mem not_mem_nil, empty⟩

theorem lookup_of_entry [DecidableEq Key] {entry : Sigma fun _ : Key => List Item}
    (mem : entry ∈ rows.entries) (history : List Item) :
    rowOr rows entry.1 history = entry.2 := by
  have found : rows.lookup entry.1 = some entry.2 := mem_lookup_iff.mpr mem
  rw [rowOr, found]
  rfl

omit [LinearOrder Hash] in
theorem agrees_storable (lawful : config.Lawful) {plain state : HotStoreState C P A K Hash}
    {reader : HistoryReader C P A K Hash}
    (agrees : Agrees config (view HistoryReader.empty plain) (view reader state))
    (tidy : Tidy config (view HistoryReader.empty plain))
    (ordered : ∀ channels ∈ state.continuations, channelOrder config channels = channels)
    (fits : Fits config plain) : Storable config state := by
  refine ⟨?_, ?_, ?_, ordered⟩
  · intro entry mem
    have perm := agrees.data entry.1
    simp only [view, lookup_of_entry mem] at perm
    have small := row_fits_perm (encode_row_perm _ perm) perm
      (shown_row_fits fits.data (encode_row_nil _) entry.1)
    exact ⟨small.bytes, _, decode_datums_encode lawful _ small.count small.items,
      sort_by_key_perm _ _⟩
  · intro entry mem
    have listed : entry.1 ∈ state.continuations := mem_keys.mpr (mem_keys_of_mem mem)
    have perm := agrees.continuations entry.1 (ordered entry.1 listed)
    simp only [view, lookup_of_entry mem] at perm
    have small := row_fits_perm (encode_row_perm _ perm) perm
      (shown_row_fits fits.continuations (encode_row_nil _) entry.1)
    exact ⟨small.bytes, _, decode_continuations_encode lawful _ small.count small.items,
      sort_by_key_perm _ _⟩
  · intro entry mem
    have perm := agrees.joins entry.1
    simp only [view, lookup_of_entry mem] at perm
    have small := row_fits_perm (encode_row_perm _ perm) perm
      (shown_row_fits fits.joins (encode_row_nil _) entry.1)
    refine ⟨small.bytes, _, decode_joins_encode lawful _ small.count small.items ?_,
      sort_by_key_perm _ _⟩
    intro join present
    exact tidy.ordered entry.1 join (perm.mem_iff.mpr present)

end Fits

section Run

variable (config : Config C P A K Hash) (history : History Trie Hash)

/-- A space without and one with checkpoints show the same rows. -/
structure Mirrors (plain : RSpace (HotStoreState C P A K Hash) Hash)
    (backed : Backed Trie C P A K Hash) : Prop where
  agrees : Agrees config (view HistoryReader.empty plain.store) (backed.rows config history)
  tidy : Tidy config (view HistoryReader.empty plain.store)
  plainUninstalled : Uninstalled (view HistoryReader.empty plain.store)
  uninstalled : Uninstalled (backed.rows config history)
  ordered : ∀ channels ∈ backed.space.store.continuations, channelOrder config channels = channels
  stored : backed.repository.Stored config history
  readable : Readable config history backed.repository

/-- The condition on a step: an operation is steady, and before a checkpoint the rows fit. -/
def Transparent (space : RSpace (HotStoreState C P A K Hash) Hash) : Step C P A K → Prop
  | .operation operation => Steady config (view HistoryReader.empty space.store) operation
  | .checkpoint => Fits config space.store
  | .checkpointReset => Fits config space.store

theorem perform_view (reader : HistoryReader C P A K Hash)
    (space : RSpace (HotStoreState C P A K Hash) Hash) (operation : Operation C P A K) :
    (perform config (inMemHotStore reader) space operation).1 =
        (perform config spaceStore ⟨view reader space.store, space.eventLog, space.produceCounter⟩
          operation).1 ∧
      view reader (perform config (inMemHotStore reader) space operation).2.store =
        (perform config spaceStore ⟨view reader space.store, space.eventLog, space.produceCounter⟩
          operation).2.store := by
  have corresponds := perform_morphism config (view_morphism reader) space operation
  rw [RSpace.map] at corresponds
  rw [corresponds]
  exact ⟨rfl, rfl⟩

variable {config history} {plain : RSpace (HotStoreState C P A K Hash) Hash}
  {backed : Backed Trie C P A K Hash} {trie : Trie}

section

variable (mirrors : Mirrors config history plain backed)
include mirrors

theorem mirrors_operation (lawful : config.Lawful) {operation : Operation C P A K}
    (steady : Steady config (view HistoryReader.empty plain.store) operation) :
    (perform config (backed.store config history) backed.space operation).1 =
        (perform config (inMemHotStore HistoryReader.empty) plain operation).1 ∧
      Mirrors config history (perform config (inMemHotStore HistoryReader.empty) plain operation).2
        { backed with
          space := (perform config (backed.store config history) backed.space operation).2 } := by
  have plainView := perform_view config HistoryReader.empty plain operation
  have backedView := perform_view config
    (historyReader config history backed.repository) backed.space operation
  have step := perform_agrees lawful mirrors.tidy mirrors.agrees mirrors.plainUninstalled
    mirrors.uninstalled operation steady plain.eventLog backed.space.eventLog plain.produceCounter
    backed.space.produceCounter
  have plainStep := play_step config (view HistoryReader.empty plain.store) plain.eventLog
    plain.produceCounter operation
  have backedStep := play_step config (backed.rows config history) backed.space.eventLog
    backed.space.produceCounter operation
  refine ⟨backedView.1.trans (step.1.symm.trans plainView.1.symm), ?_, ?_, ?_, ?_, ?_,
    mirrors.stored, mirrors.readable⟩
  · rw [plainView.2]
    exact Eq.mp (congrArg _ backedView.2.symm) step.2
  · rw [plainView.2]
    exact tidy_step mirrors.tidy mirrors.plainUninstalled steady plainStep
  · rw [plainView.2]
    exact uninstalled_step mirrors.plainUninstalled plainStep
  · exact Eq.mp (congrArg _ backedView.2.symm) (uninstalled_step mirrors.uninstalled backedStep)
  · intro channels mem
    rcases call_touches (historyReader config history backed.repository) config backed.space
      (.operation operation) channels mem with old | looked
    · exact mirrors.ordered channels (mem_keys.mpr old)
    · cases operation with
      | consume =>
        rw [mem_singleton.mp looked]
        exact steady.1
      | produce channel =>
        have shown : channels ∈ (backed.rows config history).allJoins channel := looked
        rw [Space.allJoins, mirrors.uninstalled.joins, nil_append] at shown
        exact mirrors.tidy.ordered channel channels
          ((mirrors.agrees.joins channel).mem_iff.mpr shown)

omit mirrors [DecidableEq C] [LinearOrder Hash] in
theorem agrees_trans {first second third : Space C P A K Hash}
    (before : Agrees config first second) (after : Agrees config second third) :
    Agrees config first third where
  data := fun channel => (before.data channel).trans (after.data channel)
  continuations := fun channels ordered =>
    (before.continuations channels ordered).trans (after.continuations channels ordered)
  joins := fun channel => (before.joins channel).trans (after.joins channel)

omit mirrors [LinearOrder Hash] in
theorem view_empty_uninstalled (reader : HistoryReader C P A K Hash) :
    Uninstalled (view reader HotStoreState.empty) :=
  ⟨fun _ => rfl, fun _ => rfl⟩

theorem mirrors_checkpoint (lawful : config.Lawful) (law : history.Lawful)
    (fits : Fits config plain.store) :
    ∃ checkpoint next, createCheckpoint config history backed = .ok (checkpoint, next) ∧
      checkpoint.root = history.root next.repository.history ∧
      checkpoint.root ∈ next.repository.roots ∧ next.space = RSpace.fresh ∧
      Mirrors config history plain next := by
  have storable := agrees_storable lawful mirrors.agrees mirrors.tidy mirrors.ordered fits
  have distinct := storable_distinct lawful storable
  refine ⟨_, ⟨backed.repository.commit config history backed.space.store, RSpace.fresh⟩,
    if_pos distinct, rfl, mem_cons_self, rfl, ?_, mirrors.tidy, mirrors.plainUninstalled,
    view_empty_uninstalled _, ?_, commit_stored law distinct lawful.blake mirrors.stored,
    commit_readable lawful law mirrors.stored mirrors.readable storable⟩
  · exact agrees_trans mirrors.agrees
      (commit_agrees lawful law mirrors.stored mirrors.readable storable)
  · intro channels mem
    exact absurd mem (notMem_empty channels)

theorem mirrors_reset (law : history.Lawful) (fresh : backed.space = RSpace.fresh)
    (known : history.root backed.repository.history ∈ backed.repository.roots) :
    ∃ next, reset history (history.root backed.repository.history) backed = .ok next ∧
      Mirrors config history plain next := by
  have same : ∀ {Item : Type} (kind : RowKind Item) (hash : Hash),
      readRow config history { backed.repository with
        history := history.reset backed.repository.history
          (history.root backed.repository.history) } kind hash =
        readRow config history backed.repository kind hash := by
    intro _ _ _
    unfold readRow
    rw [fetch_leaf_eq law, fetch_leaf_eq law]
    simp only [law.read_reset]
  have reader : historyReader config history { backed.repository with
      history := history.reset backed.repository.history
        (history.root backed.repository.history) } =
      historyReader config history backed.repository := by
    simp only [historyReader, readData, readContinuations, readJoins, same]
  refine ⟨_, if_pos known, ?_⟩
  have rows : (Backed.rows config history ⟨{ backed.repository with
      history := history.reset backed.repository.history
        (history.root backed.repository.history) }, RSpace.fresh⟩) =
      backed.rows config history := by
    rw [Backed.rows, Backed.rows, reader, fresh]
  constructor
  case agrees =>
    rw [rows]
    exact mirrors.agrees
  case tidy => exact mirrors.tidy
  case plainUninstalled => exact mirrors.plainUninstalled
  case uninstalled =>
    rw [rows]
    exact mirrors.uninstalled
  case ordered =>
    intro channels mem
    exact absurd mem (notMem_empty channels)
  case stored =>
    refine ⟨mirrors.stored.addressed, ?_⟩
    intro key hash found
    rw [law.read_reset] at found
    exact mirrors.stored.present key hash found
  case readable =>
    refine ⟨?_, ?_, ?_⟩
    · intro channel
      rw [readData, same]
      exact mirrors.readable.data channel
    · intro channels
      rw [readContinuations, same]
      exact mirrors.readable.continuations channels
    · intro channel
      rw [readJoins, same]
      exact mirrors.readable.joins channel

theorem mirrors_step (lawful : config.Lawful) (law : history.Lawful) {step : Step C P A K}
    (transparent : Transparent config plain step) :
    (backedStep config history backed step).1 =
        (plainStep config (inMemHotStore HistoryReader.empty) plain step).1 ∧
      Mirrors config history (plainStep config (inMemHotStore HistoryReader.empty) plain step).2
        (backedStep config history backed step).2 := by
  cases step with
  | operation =>
    have performed := mirrors_operation mirrors lawful transparent
    exact ⟨congrArg Outcome.returned performed.1, performed.2⟩
  | checkpoint =>
    rcases mirrors_checkpoint mirrors lawful law transparent with
      ⟨_, _, created, _, _, _, after⟩
    simp only [backedStep, created, plainStep]
    exact ⟨trivial, after⟩
  | checkpointReset =>
    rcases mirrors_checkpoint mirrors lawful law transparent with
      ⟨_, _, created, root, known, fresh, after⟩
    rw [root] at known
    rcases mirrors_reset after law fresh known with ⟨_, returned, final⟩
    simp only [backedStep, created, root, returned, plainStep]
    exact ⟨trivial, final⟩

theorem mirrors_run (lawful : config.Lawful) (law : history.Lawful) (steps : List (Step C P A K))
    (guarded : Guarded (fun space step =>
        (plainStep config (inMemHotStore HistoryReader.empty) space step).2)
      (Transparent config) steps plain) :
    (runAll (backedStep config history) steps backed).1 =
        (runAll (plainStep config (inMemHotStore HistoryReader.empty)) steps plain).1 ∧
      Mirrors config history
        (runAll (plainStep config (inMemHotStore HistoryReader.empty)) steps plain).2
        (runAll (backedStep config history) steps backed).2 := by
  induction steps generalizing plain backed with
  | nil => exact ⟨rfl, mirrors⟩
  | cons _ _ ih =>
    have head := mirrors_step mirrors lawful law guarded.1
    have tail := ih head.2 guarded.2
    refine ⟨?_, tail.2⟩
    simp only [runAll]
    rw [head.1, tail.1]

end

omit [DecidableEq C] [LinearOrder Hash] in
theorem read_row_empty (law : history.Lawful) (empty : ∀ key, history.read trie key = none)
    (roots : List Hash) (leaves : Hash → Option (List Byte)) {Item : Type} (kind : RowKind Item)
    (hash : Hash) :
    readRow config history ⟨trie, roots, leaves⟩ kind hash = .ok [] := by
  rw [readRow, fetch_leaf_eq law, empty]
  rfl

theorem initial_mirrors (law : history.Lawful) (empty : ∀ key, history.read trie key = none) :
    Mirrors config history RSpace.fresh (Backed.initial history trie) := by
  have reader : historyReader config history
      (Backed.initial history trie : Backed Trie C P A K Hash).repository =
        HistoryReader.empty := by
    simp only [historyReader, Backed.initial, readData, readContinuations, readJoins,
      read_row_empty law empty, rowsOf]
    rfl
  have rows : (Backed.initial history trie : Backed Trie C P A K Hash).rows config history =
      view HistoryReader.empty HotStoreState.empty := by
    rw [Backed.rows, reader]
    rfl
  constructor
  case agrees =>
    rw [rows]
    exact ⟨fun _ => List.Perm.refl _, fun _ _ => List.Perm.refl _, fun _ => List.Perm.refl _⟩
  case tidy =>
    exact ⟨fun _ _ mem => absurd mem not_mem_nil, fun _ _ mem => absurd mem not_mem_nil,
      fun _ _ mem => absurd mem not_mem_nil⟩
  case plainUninstalled => exact view_empty_uninstalled _
  case uninstalled =>
    rw [rows]
    exact view_empty_uninstalled _
  case ordered =>
    intro channels mem
    exact absurd mem (notMem_empty channels)
  case stored =>
    constructor
    · intro _ _ present
      cases present
    intro _ _ found
    rw [Backed.initial, empty] at found
    exact absurd found (by simp)
  case readable =>
    exact ⟨fun _ => ⟨[], read_row_empty law empty _ _ _ _⟩,
      fun _ => ⟨[], read_row_empty law empty _ _ _ _⟩,
      fun _ => ⟨[], read_row_empty law empty _ _ _ _⟩⟩

/-- Checkpoints and resets to their roots change no result and no row, up to order: with any
number of them anywhere between the operations, every operation returns what it returns without
them, every checkpoint and reset succeeds, and every row can be read. -/
theorem checkpoints_transparent (lawful : config.Lawful) (law : history.Lawful) (trie : Trie)
    (empty : ∀ key, history.read trie key = none) (steps : List (Step C P A K))
    (guarded : Guarded (fun space step =>
        (plainStep config (inMemHotStore HistoryReader.empty) space step).2)
      (Transparent config) steps RSpace.fresh) :
    let plain := runAll (plainStep config (inMemHotStore HistoryReader.empty)) steps RSpace.fresh
    let backed := runAll (backedStep config history) steps (Backed.initial history trie)
    backed.1 = plain.1 ∧
      Agrees config (view HistoryReader.empty plain.2.store) (backed.2.rows config history) ∧
      Readable config history backed.2.repository := by
  have run := mirrors_run (initial_mirrors law empty) lawful law steps guarded
  exact ⟨run.1, run.2.agrees, run.2.readable⟩

end Run

section Decidability

variable (config : Config C P A K Hash)

instance (datum : Datum A Hash) : Decidable (datum.Fits config) :=
  decidable_of_iff (_ ∧ _) ⟨fun both => ⟨both.1, both.2⟩, fun fits => ⟨fits.value, fits.whole⟩⟩

instance (wc : WaitingContinuation P K Hash) : Decidable (wc.Fits config) :=
  decidable_of_iff (_ ∧ _ ∧ _ ∧ _ ∧ _ ∧ _)
    ⟨fun all => ⟨all.1, all.2.1, all.2.2.1, all.2.2.2.1, all.2.2.2.2.1, all.2.2.2.2.2⟩,
      fun fits => ⟨fits.patternCount, fits.patterns, fits.continuation, fits.peeks,
        fits.channelCount, fits.whole⟩⟩

instance (join : List C) : Decidable (JoinFits config join) :=
  decidable_of_iff (_ ∧ _ ∧ _)
    ⟨fun all => ⟨all.1, all.2.1, all.2.2⟩, fun fits => ⟨fits.count, fits.channels, fits.whole⟩⟩

instance {Item : Type} (kind : RowKind Item) (fits : Item → Prop) [DecidablePred fits]
    (row : List Item) : Decidable (RowFits kind fits row) :=
  decidable_of_iff (_ ∧ _ ∧ _)
    ⟨fun all => ⟨all.1, all.2.1, all.2.2⟩, fun small => ⟨small.count, small.items, small.bytes⟩⟩

instance (state : HotStoreState C P A K Hash) : Decidable (Fits config state) :=
  decidable_of_iff (_ ∧ _ ∧ _)
    ⟨fun all => ⟨all.1, all.2.1, all.2.2⟩, fun fits => ⟨fits.data, fits.continuations, fits.joins⟩⟩

instance [DecidableEq P] [DecidableEq K] (space : Space C P A K Hash) :
    (operation : Operation C P A K) → Decidable (Steady config space operation)
  | .consume _ _ _ _ _ => inferInstanceAs (Decidable (_ ∧ ∀ wc ∈ _, _))
  | .produce channel data persist =>
    decidable_of_iff ((space.joins channel).Pairwise fun join other =>
      (searchJoin config space id (withProduced channel
          ⟨data, persist, Produce.apply config channel data persist⟩) join).isNone = true ∨
        (searchJoin config space id (withProduced channel
          ⟨data, persist, Produce.apply config channel data persist⟩) other).isNone = true)
      (by simp only [Option.isNone_iff_eq_none]; rfl)

instance [DecidableEq P] [DecidableEq K] (space : RSpace (HotStoreState C P A K Hash) Hash) :
    (step : Step C P A K) → Decidable (Transparent config space step)
  | .operation operation =>
    inferInstanceAs (Decidable (Steady config (view HistoryReader.empty space.store) operation))
  | .checkpoint => inferInstanceAs (Decidable (Fits config space.store))
  | .checkpointReset => inferInstanceAs (Decidable (Fits config space.store))

/-- A join that waits through a checkpoint and a reset, and data that wait through another. -/
def interruptedJoin : List (Step Nat Nat Nat Nat) :=
  [.operation (.consume [1, 2] [0, 6] 7 false IndexSet.empty), .checkpointReset,
    .operation (.produce 1 5 false), .operation (.produce 1 4 false), .checkpoint,
    .operation (.produce 2 6 false), .operation (.consume [1] [0] 8 true IndexSet.first)]

theorem checkpoints_transparent_interrupted_join :
    let plain := runAll (plainStep naturalConfig (inMemHotStore HistoryReader.empty))
      interruptedJoin RSpace.fresh
    let backed := runAll (backedStep naturalConfig (tableHistory [])) interruptedJoin
      (Backed.initial (tableHistory []) fun _ => none)
    backed.1 = plain.1 ∧ Agrees naturalConfig (view HistoryReader.empty plain.2.store)
        (backed.2.rows naturalConfig (tableHistory [])) ∧
      Readable naturalConfig (tableHistory []) backed.2.repository :=
  checkpoints_transparent natural_lawful (table_history_lawful []) (fun _ => none) (fun _ => rfl)
    interruptedJoin (by decide +kernel)

/-- A join listed against the order of its encodings, with its pattern for each channel. -/
def reversedJoin : List (Step Nat Nat Nat Nat) :=
  [.operation (.consume [2, 1] [5, 6] 7 false IndexSet.empty), .checkpoint,
    .operation (.produce 2 5 false), .operation (.produce 1 6 false)]

/-- The checkpoint gives the join back with its channels in the other order, while the patterns
keep theirs: the last produce completes the join without the checkpoint and not with it. -/
theorem checkpoint_misaligns_join :
    ((runAll (plainStep naturalConfig (inMemHotStore HistoryReader.empty)) reversedJoin
        RSpace.fresh).1.map fun outcome => outcome.matched.isSome) = [false, false, false, true] ∧
      ((runAll (backedStep naturalConfig (tableHistory [])) reversedJoin
        (Backed.initial (tableHistory []) fun _ => none)).1.map
          fun outcome => outcome.matched.isSome) = [false, false, false, false] := by
  decide +kernel

end Decidability

end RChain.TupleSpace
