import RChain.Lib.Cuts
import RChain.RSpace.Export

/-!
# What an export visits

The walk over a trie in the order of its slots, as a list of visits, and the stack of an export as
the part of the walk that it has still to do. A step of the export takes the first visit off that
list, and the stack that is built again from the key of a node is the stack that was left there.
So the chunks of an export are the pieces of the walk, cut behind every node that is the last of a
chunk.
-/

namespace RChain.Radix

open BitCodec Blocks Cuts Steps List Option Nat

/-- What a walk comes to: a node with its bytes, or a leaf. -/
inductive Visit where
  | node (keyPrefix : List Byte) (key : Hash32) (bytes : List Byte)
  | leaf (keyPrefix : List Byte) (value : Hash32)
deriving DecidableEq

def Visit.isNode : Visit → Bool
  | .node _ _ _ => true
  | .leaf _ _ => false

section Visits

variable (get : NodeDataReader) (settings : ExportDataSettings)

def fetch (hash : Hash32) : Option (List Byte × Node Hash32) :=
  (get hash).bind fun bytes =>
    (decodeNode bytes).run.bind fun decoded => decoded.toOption.map fun node => (bytes, node)

def slotVisits (below : List Byte → Node Hash32 → List Visit) (keyPrefix : List Byte)
    (node : Node Hash32) (idx : Byte) : List Visit :=
  match node idx with
  | .empty => []
  | .leaf leafPrefix value =>
    if settings.flagLeafPrefixes || settings.flagLeafValues then
      [.leaf (keyPrefix ++ [idx] ++ leafPrefix) value]
    else []
  | .nodePtr ptrPrefix ptr =>
    (fetch get ptr).elim [] fun child =>
      .node (keyPrefix ++ [idx] ++ ptrPrefix) ptr child.1 ::
        below (keyPrefix ++ [idx] ++ ptrPrefix) child.2

/-- The visits below a node, over so many levels of nodes. -/
def walk : Nat → List Byte → Node Hash32 → List Visit
  | 0, _, _ => []
  | height + 1, keyPrefix, node =>
    (List.finRange 256).flatMap (slotVisits get settings (walk height) keyPrefix node)

/-- All nodes below a node are stored, over so many levels. -/
def Fits : Nat → Node Hash32 → Prop
  | 0, _ => False
  | height + 1, node => ∀ idx ptrPrefix ptr, node idx = .nodePtr ptrPrefix ptr →
      ∃ bytes child, fetch get ptr = some (bytes, child) ∧ Fits height child

def wholeWalk (height : Nat) (rootHash : Hash32) : List Visit :=
  (fetch get rootHash).elim [] fun root =>
    .node [] rootHash root.1 :: walk get settings height [] root.2

def pending (height : Nat) (path : List NodeData) : List Visit :=
  path.flatMap fun data => (slotsAfter data.lastItemIndex).flatMap
    (slotVisits get settings (walk get settings height) data.keyPrefix data.decoded)

/-- A stack of nodes from a node, with this hash, up to the root. -/
inductive OnPath (rootHash : Hash32) : Hash32 → List NodeData → Prop
  | root {bytes : List Byte} {node : Node Hash32} {last : Option Byte}
      (found : fetch get rootHash = some (bytes, node)) : OnPath rootHash rootHash [⟨[], node, last⟩]
  | child {hash ptr : Hash32} {parent : NodeData} {rest : List NodeData} {idx : Byte}
      {ptrPrefix bytes : List Byte} {node : Node Hash32} {last : Option Byte}
      (above : OnPath rootHash hash (parent :: rest)) (visited : parent.lastItemIndex = some idx)
      (item : parent.decoded idx = .nodePtr ptrPrefix ptr)
      (found : fetch get ptr = some (bytes, node)) :
      OnPath rootHash ptr (⟨parent.keyPrefix ++ [idx] ++ ptrPrefix, node, last⟩ :: parent :: rest)

def ResumesAt (height : Nat) (rootHash : Hash32) (keyPrefix : List Byte) (visits : List Visit) :
    Prop :=
  ∃ hash top rest, OnPath get rootHash hash (top :: rest) ∧ top.lastItemIndex = none ∧
    top.keyPrefix = keyPrefix ∧ pending get settings height (top :: rest) = visits

end Visits

/-- Where an export starts, and the visits from there on. -/
inductive Position (get : NodeDataReader) (settings : ExportDataSettings) (height : Nat)
    (rootHash : Hash32) : Option (List Byte) → List Visit → Prop
  | start : Position get settings height rootHash none (wholeWalk get settings height rootHash)
  | resumed {keyPrefix : List Byte} {visits : List Visit}
      (resumes : ResumesAt get settings height rootHash keyPrefix visits) :
      Position get settings height rootHash (some keyPrefix) visits

section Collect

variable (settings : ExportDataSettings)

def ExportData.add (data : ExportData) : Visit → ExportData
  | .node keyPrefix key bytes =>
    { data with
      nodePrefixes := pushIf settings.flagNodePrefixes data.nodePrefixes keyPrefix
      nodeKeys := pushIf settings.flagNodeKeys data.nodeKeys key
      nodeValues := pushIf settings.flagNodeValues data.nodeValues bytes }
  | .leaf keyPrefix value =>
    { data with
      leafPrefixes := pushIf settings.flagLeafPrefixes data.leafPrefixes keyPrefix
      leafValues := pushIf settings.flagLeafValues data.leafValues value }

def ExportData.collect (data : ExportData) (visits : List Visit) : ExportData :=
  visits.foldl (ExportData.add settings) data

end Collect

/-- What an export of so many nodes returns when these visits are left: all of them at the end of
the walk, or those up to the last node and the key of that node, from which it resumes. -/
def Exports (get : NodeDataReader) (settings : ExportDataSettings) (height : Nat)
    (rootHash : Hash32) (n : Nat) (visits : List Visit) (data : ExportData)
    (result : Exporting (ExportData × Option (List Byte))) : Prop :=
  match cutAfter Visit.isNode n visits with
  | none => result = pure (data.collect settings visits, none)
  | some (piece, rest) => ∃ keyPrefix,
      result = pure (data.collect settings piece, some keyPrefix) ∧
        ResumesAt get settings height rootHash keyPrefix rest

section Walk

variable {get : NodeDataReader} {settings : ExportDataSettings} {height : Nat}
  {rootHash hash : Hash32} {bytes : List Byte} {node : Node Hash32} {idx : Byte} {ptr : Hash32}
  {top : NodeData} {rest : List NodeData} {p : StepData}

theorem fetch_eq_some : fetch get hash = some (bytes, node) ↔
      get hash = some bytes ∧ decodeNode bytes = pure node := by
  unfold fetch
  constructor
  · intro found
    obtain ⟨_, here, found⟩ := bind_eq_some_iff.mp found
    obtain ⟨decoded, ran, found⟩ := bind_eq_some_iff.mp found
    obtain ⟨_, ok, same⟩ := map_eq_some_iff.mp found
    cases same
    cases decoded with
    | error => cases ok
    | ok =>
      cases ok
      exact ⟨here, ran⟩
  · rintro ⟨here, decoded⟩
    rw [here, bind_some, decoded]
    rfl

theorem fits_succ (fits : Fits get height node) : Fits get (height + 1) node := by
  induction height generalizing node with
  | zero => exact fits.elim
  | succ _ ih =>
    intro idx ptrPrefix ptr item
    obtain ⟨bytes, child, found, below⟩ := fits idx ptrPrefix ptr item
    exact ⟨bytes, child, found, ih below⟩

theorem fits_child {ptrPrefix : List Byte} (fits : Fits get height node)
    (item : node idx = .nodePtr ptrPrefix ptr) :
    ∃ bytes child, fetch get ptr = some (bytes, child) ∧ Fits get height child := by
  cases height with
  | zero => exact fits.elim
  | succ =>
    obtain ⟨bytes, child, found, below⟩ := fits idx ptrPrefix ptr item
    exact ⟨bytes, child, found, fits_succ below⟩

theorem walk_succ (fits : Fits get height node) (keyPrefix : List Byte) :
    walk get settings (height + 1) keyPrefix node = walk get settings height keyPrefix node := by
  induction height generalizing node keyPrefix with
  | zero => exact fits.elim
  | succ _ ih =>
    rw [walk, walk]
    refine flatMap_congr fun idx _ => ?_
    unfold slotVisits
    cases item : node idx with
    | empty | leaf => rfl
    | nodePtr ptrPrefix ptr =>
      obtain ⟨_, _, found, below⟩ := fits idx ptrPrefix ptr item
      simp only [found, elim_some, ih below]

theorem walk_eq (fits : Fits get height node) (keyPrefix : List Byte) :
    walk get settings height keyPrefix node =
      (slotsAfter none).flatMap (slotVisits get settings (walk get settings height) keyPrefix
        node) := by
  rw [← walk_succ fits, walk, slotsAfter, elim_none, drop_zero]

theorem OnPath.fits {path : List NodeData} (onPath : OnPath get rootHash hash path)
    {bytes : List Byte} {root : Node Hash32} (found : fetch get rootHash = some (bytes, root))
    (fits : Fits get height root) : ∀ data ∈ path, Fits get height data.decoded := by
  induction onPath with
  | root found' =>
    rw [found'] at found
    cases found
    simpa using fits
  | child _ _ item found' ih =>
    obtain ⟨_, _, stored, below⟩ := fits_child (ih _ mem_cons_self) item
    rw [found'] at stored
    cases stored
    exact forall_mem_cons.mpr ⟨below, ih⟩

theorem OnPath.exists_top {path : List NodeData} (onPath : OnPath get rootHash hash path) :
    ∃ top rest, path = top :: rest := by
  cases onPath with
  | root | child => exact ⟨_, _, rfl⟩

theorem OnPath.at_slot (onPath : OnPath get rootHash hash (top :: rest)) (last : Option Byte) :
    OnPath get rootHash hash ({ top with lastItemIndex := last } :: rest) := by
  cases onPath with
  | root found => exact .root found
  | child above visited item found => exact .child above visited item found

theorem OnPath.tail {next : NodeData} (onPath : OnPath get rootHash hash (top :: next :: rest)) :
    ∃ hash, OnPath get rootHash hash (next :: rest) := by
  cases onPath with
  | child above _ _ _ => exact ⟨_, above⟩

theorem OnPath.length (onPath : OnPath get rootHash hash (top :: rest)) :
    rest.length ≤ top.keyPrefix.length := by
  induction rest generalizing top hash with
  | nil => exact zero_le _
  | cons _ _ ih =>
    cases onPath with
    | child above =>
      have below := ih above
      simp only [length_cons, length_append, length_nil]
      omega

theorem slots_split {last : Option Byte} {found : Byte → Bool}
    (next : (slotsAfter last).find? found = some idx) :
    ∃ front, slotsAfter last = front ++ idx :: slotsAfter (some idx) ∧
      ∀ slot ∈ front, found slot = false := by
  obtain ⟨_, front, _, split, passed⟩ := find?_eq_some_iff_append.mp next
  refine ⟨front, ?_, fun slot mem => by simpa using passed slot mem⟩
  rw [split]
  congr 2
  unfold slotsAfter at split ⊢
  generalize last.elim 0 (fun idx : Byte => idx.val + 1) = start at split
  have here : (finRange 256)[start + front.length]? = some idx := by
    rw [← List.getElem?_drop, split, List.getElem?_append_right (Nat.le_refl _), Nat.sub_self,
      List.getElem?_cons_zero]
  have position : idx.val = start + front.length := by
    obtain ⟨_, same⟩ := List.getElem?_eq_some_iff.mp here
    rw [getElem_finRange] at same
    rw [← same]
    rfl
  have dropped := congrArg (drop (front.length + 1)) split
  rw [drop_drop, append_cons, drop_left' (by simp)] at dropped
  rw [← dropped, elim_some, position, add_assoc]

theorem slot_visits_of_passed {below : List Byte → Node Hash32 → List Visit} {keyPrefix : List Byte}
    (passed : visits settings (node idx) = false) :
    slotVisits get settings below keyPrefix node idx = [] := by
  unfold slotVisits
  cases item : node idx with
  | empty => rfl
  | leaf =>
    rw [item, visits] at passed
    simp [passed]
  | nodePtr =>
    rw [item, visits] at passed
    cases passed

theorem pending_passed (rest : List NodeData)
    (nothing : findNextNonEmptyItem settings top.decoded top.lastItemIndex = none) :
    pending get settings height (top :: rest) = pending get settings height rest := by
  rw [findNextNonEmptyItem, map_eq_none_iff, find?_eq_none] at nothing
  rw [pending, flatMap_cons]
  refine (congrArg (· ++ _) (flatMap_eq_nil_iff.mpr fun idx mem => ?_)).trans (nil_append _)
  exact slot_visits_of_passed (Bool.eq_false_iff.mpr (nothing idx mem))

theorem pending_found (get : NodeDataReader) (height : Nat) (rest : List NodeData)
    {item : Item Hash32}
    (next : findNextNonEmptyItem settings top.decoded top.lastItemIndex = some (idx, item)) :
    item = top.decoded idx ∧ visits settings item = true ∧
      pending get settings height (top :: rest) =
        slotVisits get settings (walk get settings height) top.keyPrefix top.decoded idx ++
          pending get settings height ({ top with lastItemIndex := some idx } :: rest) := by
  rw [findNextNonEmptyItem, map_eq_some_iff] at next
  obtain ⟨_, next, same⟩ := next
  cases same
  have stops : visits settings (top.decoded idx) = true :=
    find?_some (p := fun idx => visits settings (top.decoded idx)) next
  refine ⟨rfl, stops, ?_⟩
  obtain ⟨front, split, passed⟩ := slots_split next
  have none : front.flatMap (slotVisits get settings (walk get settings height) top.keyPrefix
      top.decoded) = [] :=
    flatMap_eq_nil_iff.mpr fun slot mem => slot_visits_of_passed (passed slot mem)
  rw [pending, flatMap_cons, split, flatMap_append, none, nil_append,
    flatMap_cons, append_assoc, pending, flatMap_cons]

theorem add_leaf_eq (noSkip : p.skip = 0) (leafPrefix : List Byte) (leafHash : Hash32) (idx : Byte)
    (curNodePrefix : List Byte) (newPath : List NodeData) :
    addLeaf settings p leafPrefix leafHash idx curNodePrefix newPath =
      { p with
        path := newPath
        expData := p.expData.add settings
          (.leaf (curNodePrefix ++ [idx] ++ leafPrefix) leafHash) } := by
  have still : ¬ 0 < p.skip := by
    rw [noSkip]
    decide
  rw [addLeaf, if_neg still]
  rfl

theorem add_node_ptr_eq (noSkip : p.skip = 0) (ptrPrefix : List Byte) (idx : Byte)
    (curNodePrefix : List Byte) (newPath : List NodeData) {child : Node Hash32}
    (found : fetch get ptr = some (bytes, child)) :
    addNodePtr get settings p ptrPrefix ptr idx curNodePrefix newPath = pure
      { p with
        path := ⟨curNodePrefix ++ [idx] ++ ptrPrefix, child, none⟩ :: newPath
        take := p.take - 1
        expData := p.expData.add settings
          (.node (curNodePrefix ++ [idx] ++ ptrPrefix) ptr bytes) } := by
  have still : ¬ 0 < p.skip := by
    rw [noSkip]
    decide
  obtain ⟨stored, decoded⟩ := fetch_eq_some.mp found
  rw [addNodePtr, stored, okOrElse, elim_some, pure_bind, decoded, pure_bind]
  dsimp only
  rw [if_neg still]
  rfl

theorem export_step_cases (path : p.path = top :: rest)
    (onPath : OnPath get rootHash hash (top :: rest)) (fits : Fits get height top.decoded)
    (noSkip : p.skip = 0) (more : p.take ≠ 0) :
    (exportStep get settings p = pure (.proceed { p with path := rest }) ∧
      pending get settings height (top :: rest) = pending get settings height rest) ∨
    ∃ visit hash' next others, exportStep get settings p = pure (.proceed
        { path := next :: others
          skip := p.skip
          take := if visit.isNode then p.take - 1 else p.take
          expData := p.expData.add settings visit }) ∧
      pending get settings height (top :: rest) =
        visit :: pending get settings height (next :: others) ∧
      OnPath get rootHash hash' (next :: others) ∧ others.length ≤ rest.length + 1 ∧
      (visit.isNode → next.lastItemIndex = none) := by
  have goes : ¬ (p.skip = 0 ∧ p.take = 0) := fun both => more both.2
  rw [exportStep, path]
  dsimp only
  rw [if_neg goes]
  cases next : findNextNonEmptyItem settings top.decoded top.lastItemIndex with
  | none => exact .inl ⟨rfl, pending_passed rest next⟩
  | some found =>
    obtain ⟨idx, item⟩ := found
    obtain ⟨same, stops, split⟩ :=
      pending_found get height rest next
    right
    rw [split]
    unfold slotVisits addElement
    rw [path, tail_cons, ← same]
    cases item with
    | empty => cases stops
    | leaf leafPrefix value =>
      refine ⟨.leaf (top.keyPrefix ++ [idx] ++ leafPrefix) value, hash,
        { top with lastItemIndex := some idx }, rest, ?_, ?_, onPath.at_slot _, ?_, ?_⟩
      · dsimp only
        rw [add_leaf_eq noSkip]
        rfl
      · dsimp only
        rw [if_pos (show (settings.flagLeafPrefixes || settings.flagLeafValues) = true from stops)]
        rfl
      · exact le_succ _
      · intro impossible
        cases impossible
    | nodePtr ptrPrefix ptr =>
      obtain ⟨bytes, child, found, below⟩ := fits_child fits same.symm
      refine ⟨.node (top.keyPrefix ++ [idx] ++ ptrPrefix) ptr bytes, ptr,
        ⟨top.keyPrefix ++ [idx] ++ ptrPrefix, child, none⟩,
        { top with lastItemIndex := some idx } :: rest, ?_, ?_,
        .child (onPath.at_slot (some idx)) rfl same.symm found, le_refl _, fun _ => rfl⟩
      · dsimp only
        rw [add_node_ptr_eq noSkip ptrPrefix idx _ _ found]
        rfl
      · simp only [found, elim_some]
        rw [walk_eq below]
        simp only [pending, flatMap_cons, cons_append, append_assoc]

end Walk

section Loop

variable {get : NodeDataReader} {settings : ExportDataSettings} {height : Nat}
  {rootHash hash : Hash32} {rootBytes : List Byte} {root : Node Hash32} {visits : List Visit}
  {n fuel : Nat} {nodePrefix bytes : List Byte} {path : List NodeData} {node : Node Hash32}
  {top : NodeData} {rest : List NodeData}

theorem exports_visit {visit : Visit} {data : ExportData}
    {result : Exporting (ExportData × Option (List Byte))}
    (later : Exports get settings height rootHash (if visit.isNode then n else n + 1) visits
      (data.add settings visit) result) :
    Exports get settings height rootHash (n + 1) (visit :: visits) data result := by
  unfold Exports at later ⊢
  rw [cutAfter]
  cases cut : cutAfter Visit.isNode (if visit.isNode then n else n + 1) visits with
  | none | some =>
    rw [cut] at later
    exact later

theorem take_eq_zero (small : n < 2 ^ 31) : Int32.ofNat n = 0 ↔ n = 0 := by
  rw [← Int32.toInt_inj, Int32.toInt_ofNat_of_lt small, Int32.toInt_zero]
  omega

theorem takes_more (positive : 0 < n) (small : n < 2 ^ 31) :
    ¬ ((0 : Int32) = 0 ∧ Int32.ofNat n = 0) := by
  rw [take_eq_zero small]
  omega

theorem take_pred (n : Nat) : Int32.ofNat (n + 1) - 1 = Int32.ofNat n := by
  rw [Int32.ofNat_add]
  exact Int32.add_sub_cancel _ _

theorem export_loop_exports (rooted : fetch get rootHash = some (rootBytes, root))
    (fits : Fits get height root) (fuel : Nat) (p : StepData) (n : Nat) (small : n < 2 ^ 31)
    (noSkip : p.skip = 0) (take : p.take = Int32.ofNat n)
    (stacked : p.path = [] ∨ ∃ hash, OnPath get rootHash hash p.path)
    (fresh : n = 0 → ∃ top rest, p.path = top :: rest ∧ top.lastItemIndex = none)
    (enough : 2 * (pending get settings height p.path).length + p.path.length < fuel) :
    Exports get settings height rootHash n (pending get settings height p.path) p.expData
      (exportLoop get settings fuel p) := by
  induction fuel generalizing p n with
  | zero => exact absurd enough (not_lt_zero _)
  | succ fuel ih =>
    rw [exportLoop]
    cases n with
    | zero =>
      obtain ⟨top, rest, path, first⟩ := fresh rfl
      rcases stacked with nothing | ⟨hash, onPath⟩
      · rw [path] at nothing
        cases nothing
      · have stops : exportStep get settings p = pure (.done p.expData (some top.keyPrefix)) := by
          rw [exportStep, path]
          exact if_pos ⟨noSkip, take⟩
        rw [stops, pure_bind, Exports, cut_zero]
        rw [path] at onPath ⊢
        exact ⟨top.keyPrefix, rfl, hash, top, rest, onPath, first, rfl, rfl⟩
    | succ n =>
      have more : p.take ≠ 0 := by
        rw [take, Ne, take_eq_zero small]
        exact succ_ne_zero n
      rcases stacked with nothing | ⟨_, onPath⟩
      · have ends : exportStep get settings p = pure (.done p.expData none) := by
          rw [exportStep, nothing]
        rw [ends, pure_bind, nothing]
        rfl
      · obtain ⟨top, rest, path⟩ := onPath.exists_top
        rw [path] at onPath enough ⊢
        have topFits := onPath.fits rooted fits top mem_cons_self
        rcases export_step_cases path onPath topFits noSkip more with
          ⟨step, same⟩ | ⟨visit, hash', next, others, step, first, onNext, length, isFresh⟩
        · rw [step, pure_bind, same]
          refine ih { p with path := rest } (n + 1) small noSkip take ?_ ?_ ?_
          · cases rest with
            | nil => exact .inl rfl
            | cons => exact .inr onPath.tail
          · intro impossible
            cases impossible
          · rw [same, length_cons] at enough
            exact lt_of_succ_lt_succ enough
        · rw [step, pure_bind, first]
          apply exports_visit
          refine ih ⟨next :: others, p.skip, if visit.isNode then p.take - 1 else p.take,
            p.expData.add settings visit⟩ _ ?_ noSkip ?_ (.inr ⟨hash', onNext⟩) ?_ ?_
          · split_ifs <;> omega
          · dsimp only
            split_ifs with isNode
            · rw [take, take_pred]
            · exact take
          · intro zero
            have isNode : visit.isNode = true := by
              by_contra isLeaf
              rw [if_neg isLeaf] at zero
              cases zero
            exact ⟨next, others, rfl, isFresh isNode⟩
          · rw [first, length_cons, length_cons] at enough
            change 2 * (pending get settings height (next :: others)).length +
              (others.length + 1) < fuel
            omega

theorem OnPath.found (onPath : OnPath get rootHash hash (top :: rest)) :
    ∃ bytes, fetch get hash = some (bytes, top.decoded) := by
  cases onPath with
  | root found => exact ⟨_, found⟩
  | child _ _ _ found => exact ⟨_, found⟩

theorem common_prefix_append (front back : List Byte) :
    commonPrefix (front ++ back) front = (front, back, []) := by
  induction front with
  | nil => cases back <;> rfl
  | cons _ _ ih => rw [cons_append, commonPrefix, if_pos rfl, ih]

theorem init_node_path_here (found : fetch get hash = some (bytes, node)) :
    initNodePath get (fuel + 1) hash nodePrefix [] path =
      pure (⟨nodePrefix, node, none⟩ :: path) := by
  obtain ⟨stored, decoded⟩ := fetch_eq_some.mp found
  rw [initNodePath, stored, okOrElse, elim_some, pure_bind, decoded, pure_bind]

theorem init_node_path_below {ptrPrefix : List Byte} {idx : Byte} {ptr : Hash32}
    (found : fetch get hash = some (bytes, node)) (item : node idx = .nodePtr ptrPrefix ptr)
    (more : List Byte) :
    initNodePath get (fuel + 1) hash nodePrefix (idx :: (ptrPrefix ++ more)) path =
      initNodePath get fuel ptr (nodePrefix ++ [idx] ++ ptrPrefix) more
        (⟨nodePrefix, node, some idx⟩ :: path) := by
  obtain ⟨stored, decoded⟩ := fetch_eq_some.mp found
  rw [initNodePath, stored, okOrElse, elim_some, pure_bind, decoded, pure_bind]
  simp only [item, common_prefix_append]

theorem init_node_path_down (onPath : OnPath get rootHash hash (top :: rest))
    (more : List Byte) (fuel : Nat) :
    initNodePath get (fuel + rest.length) rootHash [] (top.keyPrefix ++ more) [] =
      initNodePath get fuel hash top.keyPrefix more rest := by
  induction rest generalizing top hash more fuel with
  | nil =>
    cases onPath with
    | root => rfl
  | cons parent _ ih =>
    cases onPath with
    | @child parentHash _ _ _ idx ptrPrefix bytes node last above visited item found =>
      obtain ⟨_, stored⟩ := above.found
      have down := ih above (idx :: (ptrPrefix ++ more)) (fuel + 1)
      rw [init_node_path_below stored item] at down
      have same : (⟨parent.keyPrefix, parent.decoded, some idx⟩ : NodeData) = parent := by
        rw [← visited]
      rw [same] at down
      rw [← down, length_cons]
      congr 1
      · omega
      · simp only [append_assoc, cons_append, nil_append]

theorem init_node_path_resumes
    (onPath : OnPath get rootHash hash (top :: rest)) (first : top.lastItemIndex = none) :
    initNodePath get (top.keyPrefix.length + 1) rootHash [] top.keyPrefix [] =
      pure (top :: rest) := by
  obtain ⟨_, found⟩ := onPath.found
  have down := init_node_path_down onPath [] (top.keyPrefix.length - rest.length + 1)
  have fuel : top.keyPrefix.length - rest.length + 1 + rest.length = top.keyPrefix.length + 1 := by
    have bound := onPath.length
    omega
  rw [fuel, append_nil, init_node_path_here found, ← first] at down
  exact down

theorem slots_at (idx : Byte) : ∃ front, slotsAfter none = front ++ idx :: slotsAfter (some idx) := by
  refine ⟨(finRange 256).take idx.val, ?_⟩
  have inside : idx.val < (finRange 256).length := by
    rw [length_finRange]
    exact idx.isLt
  have split := take_append_drop idx.val (finRange 256)
  rw [drop_eq_getElem_cons inside, getElem_finRange] at split
  rw [slotsAfter, elim_none, drop_zero, slotsAfter, elim_some]
  exact split.symm

section

variable (rooted : fetch get rootHash = some (rootBytes, root)) (fits : Fits get height root)
include rooted fits

theorem OnPath.visited (onPath : OnPath get rootHash hash (top :: rest)) :
    ∃ front bytes, fetch get hash = some (bytes, top.decoded) ∧
      wholeWalk get settings height rootHash = front ++ .node top.keyPrefix hash bytes ::
        pending get settings height ({ top with lastItemIndex := none } :: rest) := by
  induction rest generalizing top hash with
  | nil =>
    cases onPath with
    | root found =>
      rw [found] at rooted
      cases rooted
      refine ⟨[], rootBytes, found, ?_⟩
      rw [wholeWalk, found, elim_some, walk_eq fits, pending, flatMap_cons,
        flatMap_nil, append_nil, nil_append]
  | cons parent _ ih =>
    have parentFits := onPath.fits rooted fits parent (by simp)
    cases onPath with
    | @child parentHash _ _ _ idx ptrPrefix bytes node last above visited item found =>
      obtain ⟨_, _, stored, below⟩ := fits_child parentFits item
      rw [found] at stored
      cases stored
      obtain ⟨front, parentBytes, _, whole⟩ := ih above
      obtain ⟨passed, slots⟩ := slots_at idx
      have here : slotVisits get settings (walk get settings height) parent.keyPrefix
          parent.decoded idx = .node (parent.keyPrefix ++ [idx] ++ ptrPrefix) hash bytes ::
            walk get settings height (parent.keyPrefix ++ [idx] ++ ptrPrefix) node := by
        rw [slotVisits, item]
        dsimp only
        rw [found, elim_some]
      refine ⟨front ++ .node parent.keyPrefix parentHash parentBytes ::
        passed.flatMap (slotVisits get settings (walk get settings height) parent.keyPrefix
          parent.decoded), bytes, found, ?_⟩
      rw [whole]
      simp only [pending, flatMap_cons, slots, flatMap_append, here, walk_eq below,
        visited, append_assoc, cons_append]

theorem ResumesAt.after_visit {keyPrefix : List Byte}
    (resumes : ResumesAt get settings height rootHash keyPrefix visits) :
    ∃ front key bytes,
      wholeWalk get settings height rootHash = front ++ .node keyPrefix key bytes :: visits := by
  obtain ⟨hash, _, _, onPath, first, rfl, rfl⟩ := resumes
  obtain ⟨front, bytes, _, whole⟩ := onPath.visited rooted fits
  rw [← first] at whole
  exact ⟨front, hash, bytes, whole⟩

theorem sequential_export_exports {last : Option (List Byte)}
    (position : Position get settings height rootHash last visits) (positive : 0 < n)
    (small : n < 2 ^ 31) (enough : 2 * visits.length + (last.getD []).length + 1 < fuel) :
    Exports get settings height rootHash n visits {}
      (sequentialExport get settings fuel rootHash last 0 (Int32.ofNat n)) := by
  rw [sequentialExport, if_neg (takes_more positive small), (fetch_eq_some.mp rooted).1]
  cases position with
  | start =>
    obtain ⟨n, rfl⟩ := exists_eq_succ_of_ne_zero (ne_of_gt positive)
    have whole : wholeWalk get settings height rootHash = .node [] rootHash rootBytes ::
        pending get settings height [⟨[], root, none⟩] := by
      rw [wholeWalk, rooted, elim_some, walk_eq fits, pending, flatMap_cons,
        flatMap_nil, append_nil]
    rw [whole] at enough ⊢
    dsimp only [getD_none, isSome_none]
    rw [init_node_path_here rooted, pure_bind, if_neg Bool.false_ne_true,
      if_neg (show ¬ (0 : Int32) < 0 by decide)]
    apply exports_visit
    refine export_loop_exports rooted fits fuel ⟨[⟨[], root, none⟩], 0, _, _⟩ n (by omega) rfl
      (take_pred n) (.inr ⟨rootHash, .root rooted⟩) (fun _ => ⟨_, _, rfl, rfl⟩) ?_
    rw [length_cons] at enough
    change 2 * (pending get settings height [⟨[], root, none⟩]).length + 1 < fuel
    omega
  | resumed resumes =>
    obtain ⟨hash, top, rest, onPath, first, rfl, rfl⟩ := resumes
    dsimp only [getD_some, isSome_some]
    rw [init_node_path_resumes onPath first, pure_bind, if_pos rfl]
    refine export_loop_exports rooted fits fuel ⟨top :: rest, 0, _, _⟩ n small rfl rfl
      (.inr ⟨hash, onPath⟩) (fun _ => ⟨_, _, rfl, first⟩) ?_
    have bound := onPath.length
    rw [getD_some] at enough
    change 2 * (pending get settings height (top :: rest)).length + (rest.length + 1) < fuel
    omega

end

end Loop

end RChain.Radix
