import RChain.Casper.FailedPreState
import RChain.Lib.Precedence

/-!
# Convergence of the DAG

The same blocks can reach two nodes in different orders; both nodes insert a block after its
justifications. `Built` says what a storage holds after a list of blocks that were all inserted.
An insertion is refused when the sender already has a message with the sequence number of the
block, and the record of a fringe is that of the last block with this fringe: for blocks that
validation leaves, these are the two ways in which the order shows.
-/

namespace RChain.Casper

open BitCodec Dag Native Steps Precedence List Function AList Option

variable {H R E : Type} [LinearOrder H]

section Heights

def Dense (heightMap : AList fun _ : Nat => Finset H) : Prop :=
  ∃ bound, ∀ height, height ∈ heightMap ↔ height < bound

omit [LinearOrder H] in
theorem dense_validates {index : DagState H} (dense : Dense index.heightMap) :
    validateDagState index = true := by
  obtain ⟨bound, below⟩ := dense
  have keys (height : Nat) : height ∈ index.heightMap.keys ↔ height < bound := by
    rw [← AList.mem_keys, below]
  have length : index.heightMap.keys.length = bound := by
    have perm : index.heightMap.keys.Perm (range bound) := by
      refine (perm_ext_iff_of_nodup index.heightMap.keys_nodup nodup_range).mpr fun height => ?_
      rw [keys, mem_range]
    rw [perm.length_eq, length_range]
  unfold validateDagState
  cases bound with
  | zero =>
    rw [eq_nil_of_length_eq_zero length]
    rfl
  | succ high =>
    have low : index.heightMap.keys.min? = some 0 :=
      min?_eq_some_iff.mpr ⟨(keys 0).mpr (Nat.succ_pos high), fun _ _ => Nat.zero_le _⟩
    have top : index.heightMap.keys.max? = some high :=
      max?_eq_some_iff.mpr ⟨(keys high).mpr (Nat.lt_succ_self high),
        fun height mem => Nat.le_of_lt_succ ((keys height).mp mem)⟩
    dsimp only
    rw [low, top, length]
    simp

omit [LinearOrder H] in
theorem dense_insert {heightMap : AList fun _ : Nat => Finset H} (dense : Dense heightMap)
    {number : Nat} (grounded : number = 0 ∨ ∃ lower ∈ heightMap, lower + 1 = number)
    (level : Finset H) : Dense (heightMap.insert number level) := by
  obtain ⟨bound, below⟩ := dense
  have close : number ≤ bound := by
    rcases grounded with _ | ⟨lower, mem, _⟩
    · omega
    · have := (below lower).mp mem
      omega
  refine ⟨max bound (number + 1), fun height => ?_⟩
  rw [mem_insert, below]
  omega

end Heights

section Insertion

omit [LinearOrder H] in
theorem mapM_exists {f : H → Option (Message H Validator)} {ids : List H}
    (found : ∀ id ∈ ids, (f id).isSome) : ∃ results, ids.mapM f = some results := by
  induction ids with
  | nil => exact ⟨[], rfl⟩
  | cons id _ ih =>
    obtain ⟨first, here⟩ := isSome_iff_exists.mp (found id mem_cons_self)
    obtain ⟨rest, others⟩ := ih fun other mem => found other (mem_cons_of_mem id mem)
    exact ⟨first :: rest, by rw [mapM_cons, here, others]; rfl⟩

abbrev Received (H R E : Type) := BlockMetadata H R × BlockMessage H R E

def receivedHash (entry : Received H R E) : H := entry.1.blockHash

def justificationsOf (entry : Received H R E) : List H := entry.1.justifications

abbrev InOrder (order : List (Received H R E)) : Prop :=
  Respects receivedHash justificationsOf ∅ order

abbrev AncestorIn (blocks : List (Received H R E)) : Received H R E → Received H R E → Prop :=
  Beneath receivedHash justificationsOf blocks

/-- Insert blocks one after the other, whether an insertion fails or not. -/
def BlockDag.insertAll (order : List (Received H R E)) : BlockDag H R :=
  order.foldl (fun dag entry => (dag.insert entry.1 entry.2).2) BlockDag.empty

/-- A set of blocks as validation leaves it: a block that did not fail has the number that follows
the greatest of its justifications, a fringe is made of ancestors, and a block does not have the
sequence number of an ancestor of its sender. -/
structure WellFormed (blocks : List (Received H R E)) : Prop where
  distinct : (blocks.map receivedHash).Nodup
  above : ∀ x ∈ blocks, x.1.validationFailed = false → ∀ p, Supports receivedHash justificationsOf
    blocks p x → p.1.validationFailed = false → p.1.blockNum < x.1.blockNum
  follows : ∀ x ∈ blocks, x.1.validationFailed = false → x.1.blockNum = 0 ∨ ∃ p,
    Supports receivedHash justificationsOf blocks p x ∧ p.1.validationFailed = false ∧
      p.1.blockNum + 1 = x.1.blockNum
  fringe : ∀ x ∈ blocks, ∀ hash ∈ x.1.fringe, ∃ y, AncestorIn blocks y x ∧ receivedHash y = hash
  sequence : ∀ x ∈ blocks, ∀ y, AncestorIn blocks y x → y.1.sender = x.1.sender →
    y.1.seqNum ≠ x.1.seqNum

/-- No two blocks of one sender have the same sequence number. -/
def NoForks (blocks : List (Received H R E)) : Prop :=
  ∀ x ∈ blocks, ∀ y ∈ blocks, x.1.sender = y.1.sender → x.1.seqNum = y.1.seqNum → x = y

/-- What is written for the fringe of a block, from the messages of its ancestors. -/
def recordOf (messages : MsgMap H Validator) (entry : Received H R E) : FringeData H R :=
  recordOver messages ((entry.1.justifications.mapM messages.lookup).getD []) entry.1 entry.2

def lastRecord (messages : MsgMap H Validator) (order : List (Received H R E))
    (fringe : Finset H) : Option (FringeData H R) :=
  (order.filter fun x => x.1.fringe = fringe).getLast?.map (recordOf messages)

def Passed (blocks : List (Received H R E)) (hash : H) : Prop :=
  ∃ x ∈ blocks, receivedHash x = hash ∧ x.1.validationFailed = false

/-- What a storage holds when all blocks of a list were inserted. -/
structure Built (done : List (Received H R E)) (stores : DagStores H R (Finset H)) : Prop where
  tracks : Tracks id stores
  grounded : Grounded stores.dag.msgMap
  lookup : ∀ hash m, stores.dag.lookup hash = some m ↔
    ∃ x ∈ done, receivedHash x = hash ∧ x.1 = m
  dense : Dense stores.dag.index.heightMap
  latest : LatestAmong (Passed done) stores.dag.representation.dagMessageState
  records : stores.dag.representation.fringeStates = lastRecord stores.dag.msgMap done

theorem built_empty : Built ([] : List (Received H R E)) DagStores.empty := by
  refine ⟨tracks_empty, grounded_empty, ?_, ⟨0, ?_⟩, ⟨?_, ?_⟩, rfl⟩
  · intro _ _
    constructor
    · intro found
      cases found
    · rintro ⟨_, mem, _⟩
      cases mem
  · intro _
    simp [DagStores.empty, BlockDag.empty, DagState.empty]
  · intro _ _ found
    cases found
  · intro _ _ _ _ _ found
    cases found

theorem last_record_append (messages : MsgMap H Validator) (done : List (Received H R E))
    (x : Received H R E) : lastRecord messages (done ++ [x]) =
      update (lastRecord messages done) x.1.fringe (some (recordOf messages x)) := by
  funext fringe
  unfold lastRecord
  by_cases here : fringe = x.1.fringe
  · rw [here, update_self, filter_append, filter_singleton]
    simp
  · rw [update_of_ne here, filter_append, filter_singleton]
    simp [Ne.symm here]

theorem last_record_congr {messages others : MsgMap H Validator} {order : List (Received H R E)}
    (same : ∀ x ∈ order, recordOf messages x = recordOf others x) :
    lastRecord messages order = lastRecord others order := by
  funext fringe
  unfold lastRecord
  refine map_congr fun x last => same x ?_
  exact mem_of_mem_filter (mem_of_getLast? last)

theorem record_included {messages larger : MsgMap H Validator} (grounded : Grounded messages)
    (included : Includes messages larger) {x : Received H R E}
    {justifications : List (Message H Validator)}
    (found : x.1.justifications.mapM messages.lookup = some justifications)
    (held : ∀ hash ∈ x.1.fringe, hash ∈ messages) :
    recordOf larger x = recordOf messages x := by
  have again := mapM_some_of_grows (g := larger.lookup) (fun id _ => included id) found
  have carried (j : Message H Validator) (mem : j ∈ justifications) : Carries messages j := by
    obtain ⟨id, _, looked⟩ := (mapM_some_mem_iff found).mp mem
    exact ⟨id, looked⟩
  unfold recordOf recordOver fringeDiff
  rw [found, again, getD_some, messages_at_included included held,
    latest_fringe_included grounded included carried]

/-- What makes the insertion of a block succeed. -/
structure Insertable (done : List (Received H R E)) (x : Received H R E) : Prop where
  fresh : ∀ y ∈ done, receivedHash y ≠ receivedHash x
  justified : ∀ j ∈ justificationsOf x, ∃ y ∈ done, receivedHash y = j
  single : ∀ y ∈ done, y.1.sender = x.1.sender → y.1.seqNum ≠ x.1.seqNum
  above : x.1.validationFailed = false → ∀ p ∈ done, receivedHash p ∈ justificationsOf x →
    p.1.validationFailed = false → p.1.blockNum < x.1.blockNum
  follows : x.1.validationFailed = false → x.1.blockNum = 0 ∨ ∃ p ∈ done,
    p.1.validationFailed = false ∧ p.1.blockNum + 1 = x.1.blockNum
  fringe : ∀ hash ∈ x.1.fringe, ∃ y ∈ done, receivedHash y = hash

section Step

variable {done : List (Received H R E)} {stores : DagStores H R (Finset H)} {x : Received H R E}
  (built : Built done stores)

include built

variable {y : Received H R E}

theorem built_message (mem : y ∈ done) :
    ∃ justifications, y.1.justifications.mapM stores.dag.msgMap.lookup = some justifications ∧
      stores.dag.msgMap.lookup (receivedHash y) = some (blockMessage y.1 justifications) :=
  built.tracks.messages _ _ ((built.lookup _ _).mpr ⟨y, mem, rfl, rfl⟩)

theorem built_mem (mem : y ∈ done) : receivedHash y ∈ stores.dag.msgMap := by
  obtain ⟨_, _, held⟩ := built_message built mem
  exact held_of_lookup held

theorem built_message_cases {id : H} {m : Message H Validator}
    (held : stores.dag.msgMap.lookup id = some m) :
    ∃ y ∈ done, receivedHash y = id ∧ m.sender = y.1.sender ∧ m.senderSeq = y.1.seqNum := by
  have known := built.tracks.known id (held_of_lookup held)
  obtain ⟨block, found⟩ := isSome_iff_exists.mp known
  obtain ⟨_, _, sent⟩ := built.tracks.messages id block found
  obtain ⟨y, mem, hash, same⟩ := (built.lookup id block).mp found
  rw [held] at sent
  cases sent
  exact ⟨y, mem, hash, by rw [same]; rfl, by rw [same]; rfl⟩

theorem record_built {larger : MsgMap H Validator} (included : Includes stores.dag.msgMap larger)
    (mem : y ∈ done) :
    recordOf larger y = recordOf stores.dag.msgMap y := by
  obtain ⟨_, found, held⟩ := built_message built mem
  exact record_included built.grounded included found (built.grounded.fringe _ _ held)

variable (insertable : Insertable done x)

include insertable

theorem fresh_insertable : x.1.blockHash ∉ stores.dag.index.dagSet := by
  rw [built.tracks.indexes.dagSet]
  intro known
  obtain ⟨_, found⟩ := isSome_iff_exists.mp known
  obtain ⟨y, mem, hash, _⟩ := (built.lookup _ _).mp found
  exact insertable.fresh y mem hash

theorem single_insertable : ¬ Equivocates stores x.1 := by
  rintro ⟨_, mem, sender, seq⟩
  obtain ⟨y, early, _, sent, numbered⟩ :=
    built_message_cases built (mem_lookup_iff.mpr mem)
  exact insertable.single y early (sent.symm.trans sender) (numbered.symm.trans seq)

theorem dense_insertable : Dense (addBlockToDagState x.1 stores.dag.index).heightMap := by
  unfold addBlockToDagState
  dsimp only
  split_ifs with failed
  · exact built.dense
  · refine dense_insert built.dense ?_ _
    rcases insertable.follows (by simpa using failed) with zero | ⟨p, mem, passed, next⟩
    · exact .inl zero
    · refine .inr ⟨p.1.blockNum, (built.tracks.indexes.heights _).mpr ?_, next⟩
      exact ⟨receivedHash p, p.1, (built.lookup _ _).mpr ⟨p, mem, rfl, rfl⟩, passed, rfl⟩

theorem numbered_insertable : Numbered stores.dag x.1 := by
  intro passed j mem p parent valid
  obtain ⟨y, early, hash, same⟩ := (built.lookup j p).mp parent
  subst same
  exact insertable.above passed y early (hash ▸ mem) valid

theorem held_insertable : ∀ hash ∈ x.1.fringe, hash ∈ stores.dag.msgMap := by
  intro hash mem
  obtain ⟨_, early, same⟩ := insertable.fringe hash mem
  exact same ▸ built_mem built early

omit insertable in
theorem marked_insertable (justifications : List (Message H Validator)) :
    ∀ hash ∈ fringeDiff stores.dag.msgMap justifications x.1.fringe,
      hash ∈ stores.dag.metadata.insert x.1.blockHash x.1 := by
  intro hash mem
  obtain ⟨m, among, seen⟩ := Finset.mem_biUnion.mp (Finset.mem_sdiff.mp mem).1
  obtain ⟨id, _, found⟩ := Finset.mem_biUnion.mp among
  have held : stores.dag.msgMap.lookup id = some m := by
    simpa [msgAt] using found
  have known := built.tracks.known hash (built.grounded.seen id m held hash seen)
  exact (mem_insert _).mpr (.inr (lookup_isSome.mp known))

theorem insert_insertable : ∃ justifications,
    x.1.justifications.mapM stores.dag.msgMap.lookup = some justifications ∧
      stores.insert id x.1 x.2 = (.ok (), stores.inserted id x.1 x.2 justifications) := by
  have outcome := insert_cases id stores x.1 x.2
  generalize stores.insert id x.1 x.2 = result at outcome
  cases outcome with
  | known known => exact absurd known (fresh_insertable built insertable)
  | equivocation _ equivocates => exact absurd equivocates (single_insertable built insertable)
  | holes _ _ broken =>
    rw [dense_validates (dense_insertable built insertable)] at broken
    cases broken
  | missing _ _ _ _ absent =>
    have known : ∀ j ∈ x.1.justifications, (stores.dag.msgMap.lookup j).isSome := by
      intro j mem
      obtain ⟨_, early, same⟩ := insertable.justified j mem
      exact lookup_isSome.mpr (same ▸ built_mem built early)
    obtain ⟨_, found⟩ := mapM_exists known
    rcases absent with nothing | ⟨hash, mem, outside⟩
    · rw [found] at nothing
      cases nothing
    · exact absurd (held_insertable built insertable hash mem) outside
  | missingKey justifications _ _ _ _ _ absent =>
    obtain ⟨hash, mem, outside⟩ := absent
    exact absurd (marked_insertable built justifications hash mem) outside
  | inserted justifications _ _ _ found => exact ⟨justifications, found, rfl⟩

theorem built_step {next : DagStores H R (Finset H)} {result : Except (StoreError H) Unit}
    (inserts : stores.insert id x.1 x.2 = (result, next)) : Built (done ++ [x]) next := by
  obtain ⟨justifications, found, same⟩ := insert_insertable built insertable
  rw [inserts] at same
  cases same
  have fresh := fresh_insertable built insertable
  have unsent : (blockMessage x.1 justifications).id ∉
      stores.dag.representation.dagMessageState.msgMap := unsent_of_fresh built.tracks fresh
  have last {y : Received H R E} (mem : y ∈ done ++ [x])
      (same : receivedHash y = x.1.blockHash) : y = x := by
    rcases mem_append.mp mem with early | late
    · exact absurd same (insertable.fresh y early)
    · exact mem_singleton.mp late
  have others (hash : H) (different : hash ≠ x.1.blockHash) :
      Passed (done ++ [x]) hash ↔ Passed done hash := by
    unfold Passed
    simp only [mem_append, mem_singleton]
    constructor
    · rintro ⟨y, early | here, same, passed⟩
      · exact ⟨y, early, same, passed⟩
      · exact absurd (by rw [← same, here]; rfl) different
    · rintro ⟨y, early, same, passed⟩
      exact ⟨y, .inl early, same, passed⟩
  refine ⟨?_, ?_, fun hash m => ?_, dense_insertable built insertable, ?_, ?_⟩
  · exact tracks_inserted built.tracks fresh injective_id
      (numbered_insertable built insertable) (single_insertable built insertable)
      (dense_validates (dense_insertable built insertable)) found
  · exact grounded_inserted built.tracks built.grounded fresh found
      (held_insertable built insertable)
  · rw [inserted_lookup]
    by_cases here : hash = x.1.blockHash
    · subst here
      rw [update_self]
      constructor
      · intro same
        cases same
        exact ⟨x, mem_append_right _ mem_cons_self, rfl, rfl⟩
      · rintro ⟨_, mem, same, equal⟩
        rw [← equal, last mem same]
    · rw [update_of_ne here, built.lookup]
      constructor
      · rintro ⟨y, early, same⟩
        exact ⟨y, mem_append_left _ early, same⟩
      · rintro ⟨y, mem, same, equal⟩
        rcases mem_append.mp mem with early | late
        · exact ⟨y, early, same, equal⟩
        · exact absurd (by rw [← same, mem_singleton.mp late]; rfl) here
  · change LatestAmong _ (if x.1.validationFailed then
      stores.dag.representation.dagMessageState.insertMsgWithoutLatest
        (blockMessage x.1 justifications)
      else stores.dag.representation.dagMessageState.insertMsg
        (blockMessage x.1 justifications))
    split_ifs with failed
    · refine latest_among_without built.latest unsent ?_ others
      rintro ⟨_, mem, same, passed⟩
      rw [last mem same, failed] at passed
      cases passed
    · exact latest_among_insert built.latest unsent
        ⟨x, mem_append_right _ mem_cons_self, rfl, by simpa using failed⟩ others
  · have included : Includes stores.dag.msgMap
        (stores.inserted id x.1 x.2 justifications).dag.msgMap :=
      inserted_keeps_messages built.tracks fresh
    have own : recordOf (stores.inserted id x.1 x.2 justifications).dag.msgMap x =
        recordOver stores.dag.msgMap justifications x.1 x.2 := by
      rw [record_included built.grounded included found (held_insertable built insertable),
        recordOf, found, getD_some]
    rw [last_record_append, own, last_record_congr fun y => record_built built included,
      ← built.records]
    rfl

end Step

def DagStores.insertAll (stores : DagStores H R (Finset H)) (order : List (Received H R E)) :
    DagStores H R (Finset H) :=
  order.foldl (fun stores entry => (stores.insert id entry.1 entry.2).2) stores

theorem insert_all_dag (order : List (Received H R E)) :
    BlockDag.insertAll order = (DagStores.empty.insertAll order).dag := by
  have general (stores : DagStores H R (Finset H)) :
      order.foldl (fun dag entry => (dag.insert entry.1 entry.2).2) stores.dag =
        (stores.insertAll order).dag := by
    induction order generalizing stores with
    | nil => rfl
    | cons entry _ ih =>
      have step := congrArg Prod.snd (stores_insert_dag id stores entry.1 entry.2)
      rw [foldl_cons, ← step]
      exact ih _
  exact general DagStores.empty

theorem built_run {blocks order : List (Received H R E)} (formed : WellFormed blocks)
    (inside : ∀ x ∈ order, x ∈ blocks) (distinct : order.Nodup) (inOrder : InOrder order)
    (single : NoForks order) : Built order (DagStores.empty.insertAll order) := by
  have general (rest done : List (Received H R E)) (split : order = done ++ rest)
      (stores : DagStores H R (Finset H)) (built : Built done stores) :
      Built order (stores.insertAll rest) := by
    induction rest generalizing done stores with
    | nil =>
      rw [append_nil] at split
      exact split ▸ built
    | cons x _ ih =>
      have known : x ∈ order := split ▸ mem_append_right _ mem_cons_self
      have early {y : Received H R E} (mem : y ∈ done) : y ∈ order :=
        split ▸ mem_append_left _ mem
      have earlier {y : Received H R E} (beneath : AncestorIn blocks y x) : y ∈ done :=
        before_of_beneath formed.distinct (fun z mem => inside z (early mem))
          (split ▸ inOrder) beneath
      have apart {y : Received H R E} (mem : y ∈ done) : y ≠ x := by
        rw [split] at distinct
        exact fun same => (nodup_append.mp distinct).2.2 y mem x mem_cons_self same
      have insertable : Insertable done x := by
        refine ⟨fun y mem same => ?_, fun j mem => ?_, fun y mem sender seq => ?_,
          fun passed p mem cited valid => ?_, fun passed => ?_, fun hash mem => ?_⟩
        · exact apart mem (inj_on_of_nodup_map formed.distinct (inside y (early mem))
            (inside x known) same)
        · exact needs_before (split ▸ inOrder) mem
        · exact apart mem (single y (early mem) x known sender seq)
        · exact formed.above x (inside x known) passed p
            ⟨inside p (early mem), inside x known, cited⟩ valid
        · rcases formed.follows x (inside x known) passed with zero | ⟨p, supports, valid, next⟩
          · exact .inl zero
          · exact .inr ⟨p, earlier (Relation.TransGen.single supports), valid, next⟩
        · obtain ⟨y, beneath, same⟩ := formed.fringe x (inside x known) hash mem
          exact ⟨y, earlier beneath, same⟩
      exact ih (done ++ [x]) (by rw [split, append_assoc]; rfl) _
        (built_step built insertable (Prod.mk.eta).symm)
  exact general order [] rfl DagStores.empty built_empty

end Insertion

section Agreement

variable {blocks left right : List (Received H R E)} {first second : DagStores H R (Finset H)}

/-- The messages of the blocks: each is made from the messages of the justifications. -/
structure MessagesOf (blocks : List (Received H R E)) (messages : MsgMap H Validator) : Prop where
  held : ∀ x ∈ blocks, ∃ justifications,
    x.1.justifications.mapM messages.lookup = some justifications ∧
      messages.lookup (receivedHash x) = some (blockMessage x.1 justifications)
  only : ∀ id ∈ messages, ∃ x ∈ blocks, receivedHash x = id

theorem built_messages {done : List (Received H R E)} {stores : DagStores H R (Finset H)}
    (built : Built done stores) (members : ∀ x, x ∈ done ↔ x ∈ blocks) :
    MessagesOf blocks stores.dag.msgMap := by
  refine ⟨fun x mem => built_message built ((members x).mpr mem), fun id mem => ?_⟩
  obtain ⟨_, held⟩ := isSome_iff_exists.mp (lookup_isSome.mpr mem)
  obtain ⟨y, early, same, _⟩ := built_message_cases built held
  exact ⟨y, (members y).mp early, same⟩

theorem messages_unique {one other : MsgMap H Validator} (inOrder : InOrder left)
    (first : MessagesOf left one) (second : MessagesOf left other) (id : H) :
    one.lookup id = other.lookup id := by
  have general (rest done : List (Received H R E)) (split : left = done ++ rest)
      (same : ∀ x ∈ done, one.lookup (receivedHash x) = other.lookup (receivedHash x)) :
      ∀ x ∈ left, one.lookup (receivedHash x) = other.lookup (receivedHash x) := by
    induction rest generalizing done with
    | nil =>
      rw [append_nil] at split
      exact split ▸ same
    | cons x _ ih =>
      refine ih (done ++ [x]) (by rw [split, append_assoc]; rfl) fun y mem => ?_
      rcases mem_append.mp mem with early | here
      · exact same y early
      · rw [mem_singleton.mp here]
        have known : x ∈ left := split ▸ mem_append_right _ mem_cons_self
        obtain ⟨_, listed, held⟩ := first.held x known
        obtain ⟨_, listed', held'⟩ := second.held x known
        have again := mapM_some_of_grows (g := other.lookup) (fun j cited m found => by
          obtain ⟨z, early, hash⟩ := needs_before (split ▸ inOrder)
            (show j ∈ justificationsOf x from cited)
          rw [← hash, ← same z early, hash]
          exact found) listed
        rw [listed'] at again
        cases again
        rw [held, held']
  have all := general left [] rfl (fun x mem => absurd mem not_mem_nil)
  by_cases known : ∃ x ∈ left, receivedHash x = id
  · obtain ⟨x, mem, same⟩ := known
    exact same ▸ all x mem
  · have unknown {messages : MsgMap H Validator} (of : MessagesOf left messages) :
        messages.lookup id = none :=
      lookup_eq_none.mpr fun mem => known (of.only id mem)
    rw [unknown first, unknown second]

theorem built_same (inOrder : InOrder left) (members : ∀ x, x ∈ left ↔ x ∈ right)
    (one : Built left first) (other : Built right second)
    (records : lastRecord first.dag.msgMap left = lastRecord first.dag.msgMap right) :
    SameRepresentation first.dag.representation second.dag.representation := by
  have lookups : first.dag.lookup = second.dag.lookup := by
    funext hash
    refine ext fun m => ?_
    rw [one.lookup, other.lookup]
    simp only [members]
  have passed : Passed left = Passed right := by
    funext hash
    unfold Passed
    simp only [members]
  have messages := messages_unique inOrder (built_messages one fun _ => Iff.rfl)
    (built_messages other fun x => (members x).symm)
  have included : Includes second.dag.msgMap first.dag.msgMap := fun id x found => by
    rw [messages id]
    exact found
  have indexes := indexes_unique one.tracks.indexes (lookups ▸ other.tracks.indexes)
  rw [← one.tracks.copied, ← other.tracks.copied] at indexes
  exact ⟨indexes.1, indexes.2.1, indexes.2.2, messages,
    latest_among_unique one.latest (passed ▸ other.latest) messages other.tracks.single,
    by rw [one.records, other.records, records, last_record_congr fun y =>
      record_built other included]⟩

end Agreement

section Convergence

/-- Two nodes that insert the blocks in whatever order hold the same. -/
def Converges (blocks : List (Received H R E)) : Prop :=
  ∀ left right : List (Received H R E), left.Perm blocks → right.Perm blocks →
    InOrder left → InOrder right →
    SameRepresentation (BlockDag.insertAll left).representation
      (BlockDag.insertAll right).representation

def TopOfFringe (blocks : List (Received H R E)) (x : Received H R E) : Prop :=
  ∀ y ∈ blocks, y.1.fringe = x.1.fringe → ¬ AncestorIn blocks x y

/-- The blocks that can be the last ones with their fringe leave the same record. -/
def RecordsAgree (blocks : List (Received H R E)) : Prop :=
  ∀ messages, MessagesOf blocks messages → ∀ x ∈ blocks, ∀ y ∈ blocks,
    x.1.fringe = y.1.fringe → TopOfFringe blocks x → TopOfFringe blocks y →
      recordOf messages x = recordOf messages y

variable {blocks order left right : List (Received H R E)}

theorem last_record_cases (messages : MsgMap H Validator) (order : List (Received H R E))
    (fringe : Finset H) :
    lastRecord messages order fringe = none ∧ (∀ x ∈ order, x.1.fringe ≠ fringe) ∨
      ∃ before x after, order = before ++ x :: after ∧ x.1.fringe = fringe ∧
        (∀ y ∈ after, y.1.fringe ≠ fringe) ∧
        lastRecord messages order fringe = some (recordOf messages x) := by
  induction order using reverseRecOn with
  | nil => exact .inl ⟨rfl, fun x mem => absurd mem not_mem_nil⟩
  | append_singleton order x ih =>
    rw [last_record_append]
    by_cases here : fringe = x.1.fringe
    · refine .inr ⟨order, x, [], rfl, here.symm, fun y mem => absurd mem not_mem_nil, ?_⟩
      rw [here, update_self]
    · rw [update_of_ne here]
      rcases ih with ⟨none, nobody⟩ | ⟨before, y, after, split, same, later, last⟩
      · refine .inl ⟨none, fun y mem => ?_⟩
        rcases mem_append.mp mem with early | late
        · exact nobody y early
        · rw [mem_singleton.mp late]
          exact Ne.symm here
      · refine .inr ⟨before, y, after ++ [x], by rw [split]; simp, same, fun z mem => ?_, last⟩
        rcases mem_append.mp mem with early | late
        · exact later z early
        · rw [mem_singleton.mp late]
          exact Ne.symm here

variable {messages : MsgMap H Validator}

omit [LinearOrder H] in
theorem last_is_top (formed : WellFormed blocks) (perm : order.Perm blocks)
    (inOrder : InOrder order) {before after : List (Received H R E)} {x : Received H R E}
    (split : order = before ++ x :: after) (later : ∀ y ∈ after, y.1.fringe ≠ x.1.fringe) :
    TopOfFringe blocks x := by
  intro y mem same beneath
  subst split
  have inside : ∀ z ∈ before, z ∈ blocks := fun z early =>
    perm.mem_iff.mp (mem_append_left _ early)
  exact later y (after_of_beneath formed.distinct inside (perm.nodup_iff.mpr
    (List.Nodup.of_map _ formed.distinct)) inOrder beneath (perm.mem_iff.mpr mem)) same

theorem records_agree_last (formed : WellFormed blocks) (agree : RecordsAgree blocks)
    (of : MessagesOf blocks messages) (leftPerm : left.Perm blocks) (rightPerm : right.Perm blocks)
    (leftOrder : InOrder left) (rightOrder : InOrder right) :
    lastRecord messages left = lastRecord messages right := by
  funext fringe
  rcases last_record_cases messages left fringe with ⟨none, nobody⟩ |
    ⟨before, x, after, split, same, later, last⟩
  · rcases last_record_cases messages right fringe with ⟨none', _⟩ | ⟨_, y, _, split, same, _⟩
    · rw [none, none']
    · have mem : y ∈ left := leftPerm.mem_iff.mpr (rightPerm.mem_iff.mp (by simp [split]))
      exact absurd same (nobody y mem)
  · have known : x ∈ blocks := leftPerm.mem_iff.mp (by simp [split])
    rcases last_record_cases messages right fringe with ⟨_, nobody⟩ |
      ⟨_, y, _, split', same', later', last'⟩
    · exact absurd same (nobody x (rightPerm.mem_iff.mpr known))
    · have known' : y ∈ blocks := rightPerm.mem_iff.mp (by simp [split'])
      rw [last, last', agree messages of x known y known' (same.trans same'.symm)
        (last_is_top formed leftPerm leftOrder split (same ▸ later))
        (last_is_top formed rightPerm rightOrder split' (same' ▸ later'))]

theorem built_perm (formed : WellFormed blocks) (single : NoForks blocks)
    (perm : order.Perm blocks) (inOrder : InOrder order) :
    Built order (DagStores.empty.insertAll order) :=
  built_run formed (fun _ mem => perm.mem_iff.mp mem)
    (perm.nodup_iff.mpr (List.Nodup.of_map _ formed.distinct)) inOrder
    fun x mem y among => single x (perm.mem_iff.mp mem) y (perm.mem_iff.mp among)

theorem converges_of (formed : WellFormed blocks) (single : NoForks blocks)
    (agree : RecordsAgree blocks) : Converges blocks := by
  intro _ _ leftPerm rightPerm leftOrder rightOrder
  have built := built_perm formed single leftPerm leftOrder
  rw [insert_all_dag, insert_all_dag]
  exact built_same leftOrder (fun x => (leftPerm.trans rightPerm.symm).mem_iff) built
    (built_perm formed single rightPerm rightOrder)
    (records_agree_last formed agree (built_messages built fun x => leftPerm.mem_iff) leftPerm
      rightPerm leftOrder rightOrder)

end Convergence

section Divergence

variable {blocks order : List (Received H R E)} {stores : DagStores H R (Finset H)}

theorem insert_all_append (left right : List (Received H R E)) :
    stores.insertAll (left ++ right) = (stores.insertAll left).insertAll right :=
  foldl_append

theorem insert_messages (stores : DagStores H R (Finset H)) (x : Received H R E) :
    (stores.insert id x.1 x.2).2.dag.msgMap = stores.dag.msgMap ∨
      ¬ Equivocates stores x.1 ∧ receivedHash x ∉ stores.dag.msgMap ∧
        ∃ msg, (stores.insert id x.1 x.2).2.dag.msgMap =
          stores.dag.msgMap.insert (receivedHash x) msg := by
  have outcome := insert_cases id stores x.1 x.2
  generalize stores.insert id x.1 x.2 = result at outcome
  cases outcome with
  | known | equivocation | holes | missing | missingKey => exact .inl rfl
  | inserted justifications _ single =>
    by_cases held : receivedHash x ∈ stores.dag.msgMap
    · left
      change (if x.1.validationFailed then _ else _ : DagMessageState H Validator).msgMap = _
      have known : (blockMessage x.1 justifications).id ∈
        stores.dag.representation.dagMessageState.msgMap := held
      rw [DagMessageState.insertMsg, DagMessageState.insertMsgWithoutLatest, if_pos known,
        if_pos known, ite_self]
      rfl
    · refine .inr ⟨single, held, blockMessage x.1 justifications, ?_⟩
      change (if x.1.validationFailed then _ else _ : DagMessageState H Validator).msgMap = _
      have fresh : (blockMessage x.1 justifications).id ∉
        stores.dag.representation.dagMessageState.msgMap := held
      rw [apply_ite DagMessageState.msgMap, (insert_msg_fresh fresh).1,
        (insert_msg_fresh fresh).2, ite_self]
      rfl

theorem message_kept {id : H} {m : Message H Validator}
    (held : stores.dag.msgMap.lookup id = some m) (order : List (Received H R E)) :
    (stores.insertAll order).dag.msgMap.lookup id = some m := by
  induction order generalizing stores with
  | nil => exact held
  | cons x _ ih =>
    refine ih ?_
    rcases insert_messages stores x with same | ⟨_, fresh, _, added⟩
    · rw [same, held]
    · rw [added, lookup_insert_ne, held]
      rintro rfl
      exact fresh (held_of_lookup held)

theorem equivocates_iff {block : BlockMetadata H R} : Equivocates stores block ↔
    ∃ id m, stores.dag.msgMap.lookup id = some m ∧ m.sender = block.sender ∧
      m.senderSeq = block.seqNum := by
  constructor
  · rintro ⟨entry, mem, same⟩
    exact ⟨entry.1, entry.2, mem_lookup_iff.mpr mem, same⟩
  · rintro ⟨id, m, held, same⟩
    exact ⟨⟨id, m⟩, mem_lookup_iff.mp held, same⟩

theorem refused_run {b : Received H R E} (equivocates : Equivocates stores b.1)
    (out : receivedHash b ∉ stores.dag.msgMap)
    (own : ∀ x ∈ order, receivedHash x = receivedHash b → x = b) :
    receivedHash b ∉ (stores.insertAll order).dag.msgMap := by
  induction order generalizing stores with
  | nil => exact out
  | cons x _ ih =>
    have still : Equivocates (stores.insert id x.1 x.2).2 b.1 := by
      obtain ⟨hash, m, held, same⟩ := equivocates_iff.mp equivocates
      exact equivocates_iff.mpr ⟨hash, m, message_kept held [x], same⟩
    refine ih still ?_ fun y mem => own y (mem_cons_of_mem x mem)
    rcases insert_messages stores x with same | ⟨single, _, _, added⟩
    · rw [same]
      exact out
    · rw [added, mem_insert]
      rintro (here | held)
      · rw [own x mem_cons_self here.symm] at single
        exact single equivocates
      · exact out held

omit [LinearOrder H] in
theorem first_fork (forks : ¬ NoForks order) : ∃ before b after,
    order = before ++ b :: after ∧ NoForks before ∧
      ∃ a ∈ before, a.1.sender = b.1.sender ∧ a.1.seqNum = b.1.seqNum := by
  induction order using reverseRecOn with
  | nil => exact absurd (fun x mem => absurd mem not_mem_nil) forks
  | append_singleton order x ih =>
    by_cases single : NoForks order
    · refine ⟨order, x, [], rfl, single, ?_⟩
      by_contra none
      refine forks fun p inP q inQ sender seq => ?_
      rcases mem_append.mp inP with early | late
      · rcases mem_append.mp inQ with early' | late'
        · exact single p early q early' sender seq
        · exact absurd ⟨p, early, mem_singleton.mp late' ▸ sender,
            mem_singleton.mp late' ▸ seq⟩ none
      · rw [mem_singleton.mp late] at sender seq ⊢
        rcases mem_append.mp inQ with early' | late'
        · exact absurd ⟨q, early', sender.symm, seq.symm⟩ none
        · exact (mem_singleton.mp late').symm
    · obtain ⟨before, b, after, split, rest⟩ := ih single
      exact ⟨before, b, after ++ [x], by rw [split]; simp, rest⟩

def hashesOf (blocks : List (Received H R E)) (chosen : Received H R E → Prop) : Set H :=
  {hash | ∃ y ∈ blocks, chosen y ∧ receivedHash y = hash}

section Rearranged

variable (formed : WellFormed blocks) (perm : order.Perm blocks)

include formed perm

variable {chosen : Received H R E → Prop} {x : Received H R E}
  {before after : List (Received H R E)} {b : Received H R E}

omit [LinearOrder H] in
theorem mem_hashes_of (mem : x ∈ order) : receivedHash x ∈ hashesOf blocks chosen ↔ chosen x := by
  have known : x ∈ blocks := perm.mem_iff.mp mem
  constructor
  · rintro ⟨_, inside, taken, hash⟩
    exact inj_on_of_nodup_map formed.distinct inside known hash ▸ taken
  · intro taken
    exact ⟨x, known, taken, rfl⟩

omit [LinearOrder H] in
theorem mem_first :
    x ∈ having receivedHash (hashesOf blocks chosen) order ↔ x ∈ order ∧ chosen x := by
  rw [mem_having]
  exact and_congr_right fun inside => mem_hashes_of formed perm inside

variable (inOrder : InOrder order)

include inOrder

omit [LinearOrder H] in
theorem first_in_order
    (closed : ∀ y z, Supports receivedHash justificationsOf blocks z y → chosen y → chosen z) :
    InOrder (having receivedHash (hashesOf blocks chosen) order ++
      having receivedHash (hashesOf blocks chosen)ᶜ order) := by
  refine respects_first (fun x mem taken j cited => ?_) inOrder
  obtain ⟨_, _, split⟩ := append_of_mem mem
  obtain ⟨z, early, hash⟩ := needs_before (split ▸ inOrder) cited
  have inside : z ∈ order := split ▸ mem_append_left _ early
  have supports : Supports receivedHash justificationsOf blocks z x :=
    ⟨perm.mem_iff.mp inside, perm.mem_iff.mp mem, by rw [hash]; exact cited⟩
  rw [← hash]
  exact (mem_hashes_of formed perm inside).mpr
    (closed x z supports ((mem_hashes_of formed perm mem).mp taken))

theorem fork_refused {a : Received H R E} (split : order = before ++ b :: after)
    (single : NoForks before) (early : a ∈ before) (sender : a.1.sender = b.1.sender)
    (seq : a.1.seqNum = b.1.seqNum) :
    receivedHash b ∉ (DagStores.empty.insertAll order).dag.msgMap := by
  have nodup : order.Nodup := perm.nodup_iff.mpr (List.Nodup.of_map _ formed.distinct)
  subst split
  have injective {x : Received H R E} (mem : x ∈ before ++ b :: after)
      (hash : receivedHash x = receivedHash b) : x = b :=
    inj_on_of_nodup_map formed.distinct (perm.mem_iff.mp mem)
      (perm.mem_iff.mp (mem_append_right _ mem_cons_self)) hash
  have built : Built before (DagStores.empty.insertAll before) :=
    built_run formed (fun x mem => perm.mem_iff.mp (mem_append_left _ mem))
      (nodup_append.mp nodup).1 (respects_append.mp inOrder).1 single
  obtain ⟨_, _, held⟩ := built_message built early
  rw [insert_all_append]
  refine refused_run (equivocates_iff.mpr ⟨_, _, held, sender, seq⟩) (fun mem => ?_)
    fun x mem => injective (mem_append_right _ mem)
  obtain ⟨y, earlier, hash⟩ := (built_messages built fun _ => Iff.rfl).only _ mem
  exact (nodup_append.mp nodup).2.2 y earlier b mem_cons_self
    (injective (mem_append_left _ earlier) hash)

theorem taken_after_ancestors (split : order = before ++ b :: after) (single : NoForks before) :
    ∃ other, other.Perm blocks ∧ InOrder other ∧
      receivedHash b ∈ (DagStores.empty.insertAll other).dag.msgMap := by
  have nodup : order.Nodup := perm.nodup_iff.mpr (List.Nodup.of_map _ formed.distinct)
  subst split
  have known {x : Received H R E} (mem : x ∈ before ++ b :: after) : x ∈ blocks :=
    perm.mem_iff.mp mem
  have inB : b ∈ before ++ b :: after := mem_append_right _ mem_cons_self
  have ancestor {x : Received H R E} (above : AncestorIn blocks x b) : x ∈ before :=
    before_of_beneath formed.distinct (fun y mem => known (mem_append_left _ mem)) inOrder above
  let chosen (x : Received H R E) : Prop := x = b ∨ AncestorIn blocks x b
  have closed (y z : Received H R E) (supports : Supports receivedHash justificationsOf blocks z y)
      (taken : chosen y) : chosen z := by
    rcases taken with here | above
    · exact .inr (Relation.TransGen.single (here ▸ supports))
    · exact .inr (Relation.TransGen.head supports above)
  have ordered := first_in_order formed perm inOrder closed
  have clean : NoForks (having receivedHash (hashesOf blocks chosen) (before ++ b :: after)) := by
    intro x inX y inY sameSender sameSeq
    rcases ((mem_first formed perm).mp inX).2 with hereX | aboveX
    · rcases ((mem_first formed perm).mp inY).2 with hereY | aboveY
      · rw [hereX, hereY]
      · subst hereX
        exact absurd sameSeq.symm (formed.sequence x (known inB) y aboveY sameSender.symm)
    · rcases ((mem_first formed perm).mp inY).2 with hereY | aboveY
      · subst hereY
        exact absurd sameSeq (formed.sequence y (known inB) x aboveX sameSender)
      · exact single x (ancestor aboveX) y (ancestor aboveY) sameSender sameSeq
  have built := built_run formed (fun x mem => known ((mem_first formed perm).mp mem).1)
    (List.Nodup.filter _ nodup) (respects_append.mp ordered).1 clean
  obtain ⟨_, _, held⟩ := built_message built ((mem_first formed perm).mpr ⟨inB, .inl rfl⟩)
  refine ⟨_, (having_perm _ _).trans perm, ordered, ?_⟩
  rw [insert_all_append, ← lookup_isSome, message_kept held]
  rfl

theorem no_forks_of_converges (converges : Converges blocks) : NoForks blocks := by
  by_contra forks
  have forked : ¬ NoForks order := fun single => forks fun x inX y inY =>
    single x (perm.mem_iff.mpr inX) y (perm.mem_iff.mpr inY)
  obtain ⟨_, b, _, split, single, _, early, sender, seq⟩ := first_fork forked
  have out := fork_refused formed perm inOrder split single early sender seq
  obtain ⟨other, permuted, ordered, taken⟩ :=
    taken_after_ancestors formed perm inOrder split single
  have same := (converges order other perm permuted inOrder ordered).msgMap (receivedHash b)
  rw [insert_all_dag, insert_all_dag] at same
  rw [← lookup_isSome] at out taken
  exact out ((congrArg (fun found => found.isSome = true) same).mpr taken)

theorem last_of_top (mem : x ∈ blocks) (top : TopOfFringe blocks x) :
    ∃ other, other.Perm blocks ∧ InOrder other ∧ ∀ messages,
      lastRecord messages other x.1.fringe = some (recordOf messages x) := by
  let chosen (y : Received H R E) : Prop := y ≠ x ∧ ¬ AncestorIn blocks x y
  have closed (y z : Received H R E) (supports : Supports receivedHash justificationsOf blocks z y)
      (taken : chosen y) : chosen z := by
    refine ⟨fun here => taken.2 (here ▸ Relation.TransGen.single supports), fun above => ?_⟩
    exact taken.2 (above.tail supports)
  refine ⟨_, (having_perm _ _).trans perm, first_in_order formed perm inOrder closed,
    fun messages => ?_⟩
  have late : x ∈ having receivedHash (hashesOf blocks chosen)ᶜ order := by
    have inside : x ∈ order := perm.mem_iff.mpr mem
    exact mem_having.mpr ⟨inside, fun taken => ((mem_hashes_of formed perm inside).mp taken).1 rfl⟩
  rcases last_record_cases messages (having receivedHash (hashesOf blocks chosen)ᶜ order)
    x.1.fringe with ⟨_, nobody⟩ | ⟨_, z, _, split, same, _, last⟩
  · exact absurd rfl (nobody x late)
  · have inZ : z ∈ having receivedHash (hashesOf blocks chosen)ᶜ order :=
      split ▸ mem_append_right _ mem_cons_self
    obtain ⟨inside, outside⟩ := mem_having.mp inZ
    have here : z = x := by
      by_contra different
      refine outside ((mem_hashes_of formed perm inside).mpr ⟨different, ?_⟩)
      exact top z (perm.mem_iff.mp inside) same
    unfold lastRecord at last ⊢
    obtain ⟨_, found, recorded⟩ := map_eq_some_iff.mp last
    rw [filter_append, getLast?_append, found, some_or, map_some, recorded, here]

theorem records_agree_of_converges (converges : Converges blocks) : RecordsAgree blocks := by
  have single := no_forks_of_converges formed perm inOrder converges
  intro messages of x inX _ inY fringe topX topY
  obtain ⟨left, leftPerm, leftOrder, leftLast⟩ := last_of_top formed perm inOrder inX topX
  obtain ⟨right, rightPerm, rightOrder, rightLast⟩ := last_of_top formed perm inOrder inY topY
  have same := congrFun (converges left right leftPerm rightPerm leftOrder
    rightOrder).fringeStates x.1.fringe
  have record {other : List (Received H R E)} (permuted : other.Perm blocks)
      (ordered : InOrder other) {z : Received H R E} (mem : z ∈ blocks) :
      recordOf messages z = recordOf (DagStores.empty.insertAll other).dag.msgMap z := by
    have built := built_perm formed single permuted ordered
    have unique := messages_unique ordered (built_messages built fun _ => Iff.rfl)
      ⟨fun w inside => of.held w (permuted.mem_iff.mp inside), fun id held => by
        obtain ⟨w, inside, hash⟩ := of.only id held
        exact ⟨w, permuted.mem_iff.mpr inside, hash⟩⟩
    exact record_built built (fun id m found => by rw [← unique]; exact found)
      (permuted.mem_iff.mpr mem)
  rw [insert_all_dag, insert_all_dag, (built_perm formed single leftPerm leftOrder).records,
    (built_perm formed single rightPerm rightOrder).records, leftLast, fringe, rightLast] at same
  rw [record leftPerm leftOrder inX, record rightPerm rightOrder inY]
  exact some.inj same

/-- Blocks that validation leaves give every node the same representation, in whatever order they
come, exactly when no sender has two blocks with one sequence number and the last blocks of a
fringe leave one record for it. -/
theorem converges_iff : Converges blocks ↔ NoForks blocks ∧ RecordsAgree blocks := by
  constructor
  · intro converges
    exact ⟨no_forks_of_converges formed perm inOrder converges,
      records_agree_of_converges formed perm inOrder converges⟩
  · rintro ⟨single, agree⟩
    exact converges_of formed single agree

end Rearranged

end Divergence

section Samples

/-- A block as it is received, with the metadata of a valid block and an empty fringe. -/
def receivedBlock (block : SampleBlock) : Received Nat NativeState Unit :=
  ({ BlockMetadata.fromBlock sampleRuntime.zeroHash block with
      validated := true, fringeStateHash := block.preStateHash }, block)

/-- Two blocks over genesis with sequence number 1, the second one from some sender. -/
def starBlocks (sender : Validator) : List (Received Nat NativeState Unit) :=
  [receivedBlock sampleGenesis, receivedBlock (sampleBlock 1 [0]),
    receivedBlock { sampleBlock 1 [0] with blockHash := 2, sender := sender }]

variable {sender : Validator} {x y : Received Nat NativeState Unit}

theorem star_supports (supports : Supports receivedHash justificationsOf (starBlocks sender) x y) :
    x = receivedBlock sampleGenesis ∧ y.1.seqNum = 1 ∧ y.1.blockNum = 1 := by
  obtain ⟨inX, inY, cited⟩ := supports
  simp only [starBlocks, mem_cons, not_mem_nil, or_false] at inX inY
  rcases inY with here | here | here <;> subst here
  · exact absurd cited not_mem_nil
  all_goals
    have hash : receivedHash x = 0 := mem_singleton.mp cited
    rcases inX with here | here | here <;> subst here
    · exact ⟨rfl, rfl, rfl⟩
    · cases hash
    · cases hash

theorem star_ancestor (ancestor : AncestorIn (starBlocks sender) x y) :
    x = receivedBlock sampleGenesis ∧ y.1.seqNum = 1 := by
  obtain ⟨_, supports, _⟩ := Relation.TransGen.head'_iff.mp ancestor
  obtain ⟨_, _, last⟩ := Relation.TransGen.tail'_iff.mp ancestor
  exact ⟨(star_supports supports).1, (star_supports last).2.1⟩

theorem star_formed (sender : Validator) : WellFormed (starBlocks sender) := by
  have grounded {x : Received Nat NativeState Unit} (mem : x ∈ starBlocks sender)
      (cited : justificationsOf x = [0]) : Supports receivedHash justificationsOf
        (starBlocks sender) (receivedBlock sampleGenesis) x :=
    ⟨mem_cons_self, mem, cited ▸ mem_singleton.mpr rfl⟩
  have distinct : ([0, 1, 2] : List Nat).Nodup := by decide
  refine ⟨distinct, fun x _ _ p supports _ => ?_, fun x mem _ => ?_, fun x mem => ?_,
    fun x _ y ancestor _ => ?_⟩
  · obtain ⟨here, _, number⟩ := star_supports supports
    rw [here, number]
    decide
  · simp only [starBlocks, mem_cons, not_mem_nil, or_false] at mem
    rcases mem with here | here | here <;> subst here
    · exact .inl rfl
    · exact .inr ⟨_, grounded (by simp [starBlocks]) rfl, rfl, rfl⟩
    · exact .inr ⟨_, grounded (by simp [starBlocks]) rfl, rfl, rfl⟩
  · simp only [starBlocks, mem_cons, not_mem_nil, or_false] at mem
    rcases mem with here | here | here <;> subst here <;>
      exact fun hash inside => absurd inside (Finset.notMem_empty hash)
  · obtain ⟨here, seq⟩ := star_ancestor ancestor
    rw [here, seq]
    decide

theorem star_in_order (sender : Validator) : InOrder (starBlocks sender) :=
  ⟨fun _ mem => absurd mem not_mem_nil, fun _ mem => .inl (mem_singleton.mp mem),
    fun _ mem => .inr (.inl (mem_singleton.mp mem)), trivial⟩

/-- Two nodes that get two blocks of one sender with one sequence number in different orders keep
different ones. -/
theorem forks_diverge :
    WellFormed (starBlocks sampleValidator) ∧ InOrder (starBlocks sampleValidator) ∧
      ¬ Converges (starBlocks sampleValidator) := by
  refine ⟨star_formed sampleValidator, star_in_order sampleValidator, fun converges => ?_⟩
  have single := no_forks_of_converges (star_formed sampleValidator) (List.Perm.refl _)
    (star_in_order sampleValidator) converges
  have same := single (receivedBlock (sampleBlock 1 [0])) (by simp [starBlocks])
    (receivedBlock { sampleBlock 1 [0] with blockHash := 2, sender := sampleValidator })
    (by simp [starBlocks]) rfl rfl
  exact absurd (congrArg receivedHash same) (by decide)

theorem other_key_length : (replicate 65 (1 : Byte)).length = 65 := length_replicate

def otherValidator : Validator := ⟨List.replicate 65 1, other_key_length⟩

theorem star_record (mem : x ∈ starBlocks sender) (messages : MsgMap Nat Validator) :
    recordOf messages x = ⟨∅, sampleGenesis.preStateHash, ∅, ∅, ∅⟩ := by
  have none (justifications : List (Message Nat Validator)) :
      fringeDiff messages justifications ∅ = ∅ := by
    simp [fringeDiff, messagesAt]
  simp only [starBlocks, mem_cons, not_mem_nil, or_false] at mem
  rcases mem with here | here | here <;> subst here <;>
    · unfold recordOf recordOver
      rw [show (receivedBlock _).1.fringe = ∅ from rfl, none]
      rfl

theorem parallel_blocks_converge :
    WellFormed (starBlocks otherValidator) ∧ InOrder (starBlocks otherValidator) ∧
      Converges (starBlocks otherValidator) := by
  refine ⟨star_formed otherValidator, star_in_order otherValidator,
    (converges_iff (star_formed otherValidator) (List.Perm.refl _)
      (star_in_order otherValidator)).mpr ⟨fun x inX y inY sender seq => ?_,
      fun messages _ x inX y inY _ _ _ => ?_⟩⟩
  · simp only [starBlocks, mem_cons, not_mem_nil, or_false] at inX inY
    rcases inX with here | here | here <;> rcases inY with there | there | there <;>
      subst here <;> subst there <;> first
        | rfl
        | exact absurd seq (by decide)
        | exact absurd sender (by decide)
  · rw [star_record inX, star_record inY]

end Samples

end RChain.Casper
