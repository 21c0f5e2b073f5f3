import Mathlib.Data.List.Fold
import Mathlib.Data.List.MinMax
import RChain.RSpace.RadixBatch

/-!
# The radix history as a finite map

A history stands for a finite map on keys of one length, and a batch updates this map. The
root node and the root hash are functions of the map: they do not depend on the batches that
led to it.
-/

namespace RChain.Radix

open BitCodec Sorted Steps Total TupleSpace List Function

section History

variable {Hash : Type} [LinearOrder Hash] {blake : Blake2b256 Hash} {n : Nat}
  {history : RadixHistory Hash} {f : Values Hash} {actions : List (HistoryAction Hash)}

/-- The history stands for the map on keys of length `n + 1`. -/
structure Represents (blake : Blake2b256 Hash) (n : Nat) (history : RadixHistory Hash)
    (f : Values Hash) : Prop where
  coherent : Coherent blake history.impl
  denotes : NodeDenotes (history.impl.nodes blake) n history.rootNode f
  rooted : history.rootHash = hashNode blake history.rootNode
  unread : history.impl.cacheRead = fun _ => none
  unwritten : history.impl.cacheWrite = ∅

theorem represents_empty (n : Nat) :
    Represents blake n (RadixHistory.empty blake) fun _ => none := by
  refine ⟨⟨?_, ?_, ?_⟩, fun _ => .empty fun _ _ => rfl, rfl, rfl, rfl⟩
  · intro _ _ impossible
    cases impossible
  · intro _ _ impossible
    cases impossible
  · intro _ _ impossible
    rw [RadixHistory.empty, Finmap.lookup_empty] at impossible
    cases impossible

omit [LinearOrder Hash] in
theorem depth_bound {action : HistoryAction Hash} (mem : action ∈ actions) :
    action.key.length ≤ depthOf actions := by
  rw [depthOf, foldl_eq_foldr]
  exact le_max_of_le (mem_map_of_mem mem) le_rfl

theorem make_actions_nil (fuel : Nat) (node : Node Hash) (tree : RadixTree Hash) :
    (makeActions blake (fuel + 1) node []).run tree = .ok (none, tree) := by
  have same : (if replaceItems node [] ≠ node then some (replaceItems node []) else none) =
      none := if_neg (not_not.mpr rfl)
  exact congrArg (fun result => Except.ok (result, tree)) same

variable {tree : RadixTree Hash} {next last : RadixHistory Hash}

theorem process_unchanged (distinct : hasNoDuplicates actions = true)
    (ran : (makeActions blake (depthOf actions + 1) history.rootNode actions).run history.impl =
      .ok (none, tree)) :
    history.process blake actions = .ok { history with
      impl := { tree with cacheRead := fun _ => none, cacheWrite := ∅ } } := by
  have ended : (saveAndCommit blake history.rootNode actions).run history.impl =
      .ok (none, { tree with cacheWrite := ∅ }) := by
    unfold saveAndCommit
    rw [StateT.run_bind, ran]
    rfl
  rw [RadixHistory.process, if_pos distinct, ended]

section

variable (ideal : blake.Ideal) {other : RadixHistory Hash} {g : Values Hash}
include ideal

theorem history_read (represents : Represents blake n history f) {key : List Byte}
    (sized : key.length = n + 1) : history.read blake key = .ok (f key) := by
  obtain ⟨_, _, ran, rfl⟩ := read_spec ideal represents.coherent (key.length + 1)
    represents.denotes sized (by omega)
  rw [RadixHistory.read, ran]
  rfl

theorem Represents.node_unique (represents : Represents blake n history f)
    (others : Represents blake n other g)
    (same : ∀ key : List Byte, key.length = n + 1 → f key = g key) :
    history.rootNode = other.rootNode := by
  funext b
  have agree (k : List Byte) (sized : k.length = n) : f (b :: k) = g (b :: k) :=
    same (b :: k) (congrArg Nat.succ sized)
  exact (represents.denotes b).unique (hashNode blake)
    (fun _ _ found => (represents.coherent.hashed ideal found).2)
    (fun _ _ found => (others.coherent.hashed ideal found).2)
    ((others.denotes b).congr fun k sized => (agree k sized).symm)

variable (bound : n ≤ 126)
include bound

theorem batch_spec {node : Node Hash} (coherent : Coherent blake tree)
    (denotes : NodeDenotes (tree.nodes blake) n node f)
    (sized : ∀ action ∈ actions, action.key.length = n + 1)
    (distinct : (actions.map HistoryAction.key).Nodup) :
    Yields tree (makeActions blake (depthOf actions + 1) node actions) fun result next =>
      Grown blake tree next ∧
        NodeDenotes (next.nodes blake) n (result.getD node) (applyActions f actions) := by
  cases actions with
  | nil => exact ⟨none, tree, make_actions_nil _ node tree, .refl coherent, denotes⟩
  | cons action actions =>
    refine make_actions_spec ideal _ n bound ?_ tree node f _ coherent denotes sized distinct
    have deep := depth_bound (mem_cons_self : action ∈ action :: actions)
    rw [sized action mem_cons_self] at deep
    omega

theorem process_spec (represents : Represents blake n history f)
    (sized : ∀ action ∈ actions, action.key.length = n + 1) (distinct : hasNoDuplicates actions = true) :
    ∃ next, history.process blake actions = .ok next ∧
      Represents blake n next (applyActions f actions) := by
  obtain ⟨result, tree, ran, grown, changed⟩ := batch_spec ideal bound represents.coherent
    represents.denotes sized (of_decide_eq_true distinct)
  cases result with
  | none =>
    refine ⟨_, process_unchanged distinct ran, ?_⟩
    have same : { tree with cacheRead := fun _ => none, cacheWrite := ∅ } = history.impl := by
      rw [grown.store, ← represents.unread, ← represents.unwritten]
    rw [same]
    refine ⟨represents.coherent, fun b => (represents.denotes b).congr fun k sizedKey => ?_,
      represents.rooted, represents.unread, represents.unwritten⟩
    exact (represents.denotes b).functional (changed b) (fun _ _ _ found again =>
      Option.some.inj ((grown.more _ _ found).symm.trans again)) k sizedKey
  | some node =>
    have short : node.Short := fun b => (changed b).short (by omega)
    obtain ⟨hash, saved, savedRan, rfl, grownMore, _⟩ :=
      save_node_spec ideal grown.coherent short
    obtain ⟨_, committed, commitRan, coherent, more⟩ := commit_spec ideal grownMore.coherent
    have ended : (saveAndCommit blake history.rootNode actions).run history.impl =
        .ok (some (node, hashNode blake node), { committed with cacheWrite := ∅ }) := by
      unfold saveAndCommit
      rw [StateT.run_bind, ran]
      change ((saveNode blake node >>= fun hash => commit >>= fun _ =>
        clearWriteCache >>= fun _ => pure (some (node, hash))).run tree) = _
      rw [StateT.run_bind, savedRan]
      change ((commit >>= fun _ =>
        clearWriteCache >>= fun _ => pure (some (node, hashNode blake node))).run saved) = _
      rw [StateT.run_bind, commitRan]
      rfl
    rw [RadixHistory.process, if_pos distinct, ended]
    refine ⟨_, rfl, coherent, fun b => (changed b).mono fun ptr other found =>
      more ptr other (grownMore.more ptr other found), rfl, rfl, rfl⟩

theorem process_all_spec (batches : List (List (HistoryAction Hash)))
    (represents : Represents blake n history f)
    (sized : ∀ actions ∈ batches, ∀ action ∈ actions, action.key.length = n + 1)
    (distinct : ∀ actions ∈ batches, hasNoDuplicates actions = true) :
    ∃ last, history.processAll blake batches = .ok last ∧
      Represents blake n last (applyActions f batches.flatten) := by
  induction batches generalizing history f with
  | nil => exact ⟨history, rfl, represents⟩
  | cons actions _ ih =>
    obtain ⟨_, processed, nextRepresents⟩ := process_spec ideal bound represents
      (sized actions mem_cons_self) (distinct actions mem_cons_self)
    obtain ⟨last, rest, _⟩ := ih nextRepresents
      (fun batch mem => sized batch (mem_cons_of_mem actions mem))
      (fun batch mem => distinct batch (mem_cons_of_mem actions mem))
    refine ⟨last, ?_, ?_⟩
    · rw [RadixHistory.processAll, processed]
      exact rest
    · rwa [flatten_cons, applyActions, foldl_append]

/-- In any two stores a root stands for one map. -/
theorem Represents.values_unique (represents : Represents blake n history f)
    (others : Represents blake n other g) (same : history.rootHash = other.rootHash)
    (key : List Byte) (sized : key.length = n + 1) : f key = g key := by
  have roots : history.rootNode = other.rootNode :=
    hash_node_injective ideal (fun b => (represents.denotes b).short (by omega))
      (fun b => (others.denotes b).short (by omega)) (by rw [← represents.rooted, same, others.rooted])
  cases key with
  | nil => cases sized
  | cons b key =>
    refine (represents.denotes b).functional (roots ▸ others.denotes b)
      (fun ptr node same found again => ?_) key (Nat.succ.inj sized)
    obtain ⟨short, hashed⟩ := represents.coherent.hashed ideal found
    obtain ⟨otherShort, otherHashed⟩ := others.coherent.hashed ideal again
    exact hash_node_injective ideal short otherShort (hashed.symm.trans otherHashed)

end

theorem process_distinct (processed : history.process blake actions = .ok next) :
    hasNoDuplicates actions = true := by
  by_contra repeated
  rw [RadixHistory.process, if_neg repeated] at processed
  cases processed

theorem process_all_distinct (batches : List (List (HistoryAction Hash)))
    (processed : history.processAll blake batches = .ok last) :
    ∀ actions ∈ batches, hasNoDuplicates actions = true := by
  induction batches generalizing history with
  | nil => exact fun _ mem => absurd mem not_mem_nil
  | cons _ _ ih =>
    obtain ⟨_, first, rest⟩ := bind_eq_ok.mp processed
    intro batch mem
    rcases mem_cons.mp mem with rfl | later
    · exact process_distinct first
    · exact ih rest batch later

theorem process_empty_key (sized : ∀ action ∈ actions, action.key.length = 0)
    (processed : history.process blake actions = .ok next) : actions = [] := by
  cases actions with
  | nil => rfl
  | cons action others =>
    have key : action.key = [] := length_eq_zero_iff.mp (sized action mem_cons_self)
    have stopped : (saveAndCommit blake history.rootNode (action :: others)).run history.impl =
        .error outOfBounds := by
      unfold saveAndCommit
      rw [StateT.run_bind, makeActions, StateT.run_bind, groupActions, key]
      rfl
    rw [RadixHistory.process, if_pos (process_distinct processed), stopped] at processed
    cases processed

theorem process_all_empty_key (batches : List (List (HistoryAction Hash)))
    (sized : ∀ batch ∈ batches, ∀ action ∈ batch, action.key.length = 0)
    (processed : history.processAll blake batches = .ok last) :
    last.rootNode = history.rootNode ∧ last.rootHash = history.rootHash := by
  induction batches generalizing history with
  | nil =>
    cases processed
    exact ⟨rfl, rfl⟩
  | cons actions _ ih =>
    obtain ⟨_, first, rest⟩ := bind_eq_ok.mp processed
    have nothing := process_empty_key (sized actions mem_cons_self) first
    subst nothing
    have noActions : (makeActions blake 1 history.rootNode []).run history.impl =
        .ok (none, history.impl) := make_actions_nil 0 history.rootNode history.impl
    have unchanged := process_unchanged (process_distinct first) noActions
    cases unchanged.symm.trans first
    have roots := ih (fun batch mem => sized batch (mem_cons_of_mem [] mem)) rest
    exact roots

omit [LinearOrder Hash] in
theorem apply_distinct (actions : List (HistoryAction Hash)) (f : Values Hash) (key : List Byte)
    (distinct : (actions.map HistoryAction.key).Nodup) : applyActions f actions key =
      match actions.find? fun action => action.key = key with
      | some action => actionValue action
      | none => f key := by
  induction actions generalizing f with
  | nil => rfl
  | cons action actions ih =>
    rw [map_cons, nodup_cons] at distinct
    rw [applyActions, foldl_cons, ← applyActions, ih _ distinct.2]
    by_cases here : action.key = key
    · have absent : actions.find? (fun other => other.key = key) = none := by
        apply List.find?_eq_none.mpr
        intro _ mem same
        apply distinct.1
        rw [here, ← of_decide_eq_true same]
        exact mem_map_of_mem mem
      rw [absent, List.find?_cons_of_pos (by simpa using here)]
      dsimp only
      rw [here, update_self]
    · rw [List.find?_cons_of_neg (by simpa using here), update_of_ne (Ne.symm here)]

/-- The radix trie is a finite map. The keys are segments of one length; with a key to read or
write there, a batch without duplicates succeeds. -/
theorem history_is_finite_map (ideal : blake.Ideal) {length : Nat} (isSegment : length ≤ 127)
    {batches : List (List (HistoryAction Hash))}
    (batchesSized : ∀ batch ∈ batches, ∀ action ∈ batch, action.key.length = length)
    (built : (RadixHistory.empty blake).processAll blake batches = .ok history)
    (sized : ∀ action ∈ actions, action.key.length = length)
    (distinct : hasNoDuplicates actions = true) :
    (0 < length → ∃ next, history.process blake actions = .ok next) ∧
    ∀ next, history.process blake actions = .ok next → ∀ key : List Byte, key.length = length →
      next.read blake key =
        match actions.find? fun action => action.key = key with
        | some (.insert _ value) => .ok (some value)
        | some (.delete _) => .ok none
        | none => history.read blake key := by
  cases length with
  | zero =>
    refine ⟨fun impossible => absurd impossible (Nat.lt_irrefl 0), ?_⟩
    intro _ processed _ keySized
    have nothing := process_empty_key sized processed
    subst nothing
    cases length_eq_zero_iff.mp keySized
    rfl
  | succ n =>
    obtain ⟨_, ran, represents⟩ := process_all_spec ideal (Nat.le_of_succ_le_succ isSegment)
      batches (represents_empty n) batchesSized (process_all_distinct batches built)
    cases built.symm.trans ran
    obtain ⟨next, processed, nextRepresents⟩ :=
      process_spec ideal (Nat.le_of_succ_le_succ isSegment) represents sized distinct
    refine ⟨fun _ => ⟨next, processed⟩, ?_⟩
    intro _ otherProcessed key keySized
    cases processed.symm.trans otherProcessed
    rw [history_read ideal nextRepresents keySized, history_read ideal represents keySized,
      apply_distinct actions _ key (of_decide_eq_true distinct)]
    cases actions.find? fun action => action.key = key with
    | none => rfl
    | some action =>
      cases action with
      | insert | delete => rfl

theorem deleted_key_reads_nothing : ∃ history next,
    (RadixHistory.empty verbatim).processAll verbatim
      [[.insert [1, 2] [7], .insert [1, 3] [8]]] = .ok history ∧
    history.process verbatim [.delete [1, 2], .insert [4, 5] [9]] = .ok next ∧
    next.read verbatim [1, 2] = .ok none ∧ next.read verbatim [4, 5] = .ok (some [9]) ∧
    next.read verbatim [1, 3] = history.read verbatim [1, 3] := by
  obtain ⟨history, built, _⟩ := process_all_spec verbatim_ideal (by decide : 1 ≤ 126)
    [[.insert [1, 2] [7], .insert [1, 3] [8]]] (represents_empty 1) (by decide) (by decide)
  obtain ⟨succeeds, reads⟩ := history_is_finite_map verbatim_ideal (by decide : 2 ≤ 127)
    (by decide) built (by decide : ∀ action ∈ ([.delete [1, 2], .insert [4, 5] [9]] :
      List (HistoryAction (List Byte))), action.key.length = 2) (by decide)
  obtain ⟨next, processed⟩ := succeeds (by decide)
  exact ⟨history, next, built, processed, reads next processed [1, 2] rfl,
    reads next processed [4, 5] rfl, reads next processed [1, 3] rfl⟩

/-- The root is a function of the map that the batches lead to. -/
theorem root_history_independent (ideal : blake.Ideal) {length : Nat} (isSegment : length ≤ 127)
    {left right : List (List (HistoryAction Hash))}
    (leftSized : ∀ batch ∈ left, ∀ action ∈ batch, action.key.length = length)
    (rightSized : ∀ batch ∈ right, ∀ action ∈ batch, action.key.length = length)
    (same : ∀ key : List Byte, key.length = length →
      applyActions (fun _ => none) left.flatten key = applyActions (fun _ => none) right.flatten key) :
    (0 < length → (∀ batch ∈ left, hasNoDuplicates batch = true) →
      ∃ history, (RadixHistory.empty blake).processAll blake left = .ok history) ∧
    ∀ leftHistory rightHistory, (RadixHistory.empty blake).processAll blake left = .ok leftHistory →
      (RadixHistory.empty blake).processAll blake right = .ok rightHistory →
      leftHistory.rootNode = rightHistory.rootNode ∧
        leftHistory.rootHash = rightHistory.rootHash := by
  cases length with
  | zero =>
    refine ⟨fun impossible => absurd impossible (Nat.lt_irrefl 0), ?_⟩
    intro _ _ leftBuilt rightBuilt
    obtain ⟨leftNode, leftHash⟩ := process_all_empty_key left leftSized leftBuilt
    obtain ⟨rightNode, rightHash⟩ := process_all_empty_key right rightSized rightBuilt
    exact ⟨leftNode.trans rightNode.symm, leftHash.trans rightHash.symm⟩
  | succ n =>
    have bound : n ≤ 126 := Nat.le_of_succ_le_succ isSegment
    refine ⟨fun _ distinct => ?_, ?_⟩
    · obtain ⟨last, ran, _⟩ :=
        process_all_spec ideal bound left (represents_empty n) leftSized distinct
      exact ⟨last, ran⟩
    intro _ _ leftBuilt rightBuilt
    obtain ⟨_, leftRan, leftRepresents⟩ := process_all_spec ideal bound left
      (represents_empty n) leftSized (process_all_distinct left leftBuilt)
    obtain ⟨_, rightRan, rightRepresents⟩ := process_all_spec ideal bound right
      (represents_empty n) rightSized (process_all_distinct right rightBuilt)
    cases leftBuilt.symm.trans leftRan
    cases rightBuilt.symm.trans rightRan
    have nodes := leftRepresents.node_unique ideal rightRepresents same
    exact ⟨nodes, by rw [leftRepresents.rooted, rightRepresents.rooted, nodes]⟩

theorem deleted_key_restores_root : ∃ before after,
    (RadixHistory.empty verbatim).processAll verbatim [[.insert [1, 2] [7]]] = .ok before ∧
    (RadixHistory.empty verbatim).processAll verbatim
      [[.insert [1, 3] [8]], [.insert [1, 2] [7]], [.delete [1, 3]]] = .ok after ∧
    before.rootNode = after.rootNode ∧ before.rootHash = after.rootHash := by
  let once : List (List (HistoryAction (List Byte))) := [[.insert [1, 2] [7]]]
  let undone : List (List (HistoryAction (List Byte))) :=
    [[.insert [1, 3] [8]], [.insert [1, 2] [7]], [.delete [1, 3]]]
  have same (key : List Byte) : applyActions (fun _ => none) once.flatten key =
      applyActions (fun _ => none) undone.flatten key := by
    by_cases gone : key = [1, 3]
    · subst gone
      rfl
    · simp [once, undone, applyActions, update_apply, HistoryAction.key, gone]
  obtain ⟨succeeds, roots⟩ := root_history_independent verbatim_ideal (by decide : 2 ≤ 127)
    (by decide : ∀ batch ∈ once, ∀ action ∈ batch, action.key.length = 2)
    (by decide : ∀ batch ∈ undone, ∀ action ∈ batch, action.key.length = 2)
    (fun key _ => same key)
  obtain ⟨before, beforeBuilt⟩ := succeeds (by decide) (by decide)
  obtain ⟨after, afterBuilt, _⟩ := process_all_spec verbatim_ideal (by decide : 1 ≤ 126)
    undone (represents_empty 1) (by decide) (by decide)
  exact ⟨before, after, beforeBuilt, afterBuilt, roots before after beforeBuilt afterBuilt⟩

/-- The root hash commits to the whole map: two histories have one root exactly when every key
reads the same in both. -/
theorem root_commits (ideal : blake.Ideal) (bound : n ≤ 126)
    {left right : List (List (HistoryAction Hash))} {leftHistory rightHistory : RadixHistory Hash}
    (leftSized : ∀ batch ∈ left, ∀ action ∈ batch, action.key.length = n + 1)
    (rightSized : ∀ batch ∈ right, ∀ action ∈ batch, action.key.length = n + 1)
    (leftBuilt : (RadixHistory.empty blake).processAll blake left = .ok leftHistory)
    (rightBuilt : (RadixHistory.empty blake).processAll blake right = .ok rightHistory) :
    leftHistory.rootHash = rightHistory.rootHash ↔ ∀ key : List Byte, key.length = n + 1 →
      leftHistory.read blake key = rightHistory.read blake key := by
  obtain ⟨_, leftRan, represents⟩ := process_all_spec ideal bound left
    (represents_empty n) leftSized (process_all_distinct left leftBuilt)
  obtain ⟨_, rightRan, others⟩ := process_all_spec ideal bound right
    (represents_empty n) rightSized (process_all_distinct right rightBuilt)
  cases leftBuilt.symm.trans leftRan
  cases rightBuilt.symm.trans rightRan
  constructor
  · intro same key sized
    rw [history_read ideal represents sized, history_read ideal others sized,
      represents.values_unique ideal bound others same key sized]
  · intro reads
    rw [represents.rooted, others.rooted, represents.node_unique ideal others fun key sized => ?_]
    have read := reads key sized
    rw [history_read ideal represents sized, history_read ideal others sized] at read
    exact Except.ok.inj read

/-- One key with two values. -/
theorem root_commits_one_key : ∃ left right,
    (RadixHistory.empty verbatim).processAll verbatim [[.insert [1, 2] [7]]] = .ok left ∧
    (RadixHistory.empty verbatim).processAll verbatim [[.insert [1, 2] [8]]] = .ok right ∧
    left.rootHash ≠ right.rootHash := by
  obtain ⟨left, leftBuilt, represents⟩ := process_all_spec verbatim_ideal (by decide : 1 ≤ 126)
    [[.insert [1, 2] [7]]] (represents_empty 1) (by decide) (by decide)
  obtain ⟨right, rightBuilt, others⟩ := process_all_spec verbatim_ideal (by decide : 1 ≤ 126)
    [[.insert [1, 2] [8]]] (represents_empty 1) (by decide) (by decide)
  refine ⟨left, right, leftBuilt, rightBuilt, fun same => ?_⟩
  have reads := (root_commits verbatim_ideal (by decide : 1 ≤ 126) (by decide) (by decide)
    leftBuilt rightBuilt).mp same [1, 2] rfl
  rw [history_read verbatim_ideal represents rfl, history_read verbatim_ideal others rfl] at reads
  cases reads

end History

end RChain.Radix
