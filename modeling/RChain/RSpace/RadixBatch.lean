import RChain.Lib.Steps
import RChain.RSpace.RadixOps

/-!
# Batches of actions

A batch is grouped by first bytes; a group with one action goes to the item of its slot, a
larger one to the node of the slot with the first byte of every key cut off. Below a byte, a
batch does what its group does there.
-/

namespace RChain.Radix

open BitCodec Sorted Steps Total TupleSpace List Function

section Actions

variable {Hash : Type}

/-- What an action writes at its key. -/
def actionValue : HistoryAction Hash → Option Hash
  | .insert _ hash => some hash
  | .delete _ => none

def applyActions (f : Values Hash) (actions : List (HistoryAction Hash)) : Values Hash :=
  actions.foldl (fun f action => Function.update f action.key (actionValue action)) f

def headIs (b : Byte) (action : HistoryAction Hash) : Bool := action.key.head? = some b

theorem trim_key (action : HistoryAction Hash) : (trim action).key = action.key.tail := by
  cases action with
  | insert | delete => rfl

theorem trim_value (action : HistoryAction Hash) : actionValue (trim action) = actionValue action := by
  cases action with
  | insert | delete => rfl

theorem key_of_head {b : Byte} {action : HistoryAction Hash} (head : headIs b action = true) :
    action.key = b :: (trim action).key := by
  rw [trim_key]
  have first := of_decide_eq_true head
  cases shape : action.key with
  | nil =>
    rw [shape] at first
    cases first
  | cons =>
    rw [shape] at first
    cases first
    rfl

theorem apply_below (actions : List (HistoryAction Hash)) (f : Values Hash) (b : Byte)
    (k : List Byte) : applyActions f actions (b :: k) =
      applyActions (fun k => f (b :: k)) ((actions.filter (headIs b)).map trim) k := by
  induction actions generalizing f with
  | nil => rfl
  | cons action _ ih =>
    rw [applyActions, foldl_cons, ← applyActions, ih]
    by_cases head : headIs b action = true
    · rw [filter_cons_of_pos head, map_cons, applyActions, applyActions, foldl_cons, trim_value]
      have below : (fun k => Function.update f action.key (actionValue action) (b :: k)) =
          Function.update (fun k => f (b :: k)) (trim action).key (actionValue action) := by
        funext tail
        rw [key_of_head head]
        simp only [update_apply, cons.injEq, true_and]
      rw [below]
    · rw [filter_cons_of_neg head]
      have below : (fun k => Function.update f action.key (actionValue action) (b :: k)) =
          fun k => f (b :: k) := by
        funext tail
        rw [update_of_ne]
        intro same
        apply head
        rw [headIs, ← same]
        exact decide_eq_true rfl
      rw [below]

theorem apply_deletions {actions : List (HistoryAction Hash)} {f : Values Hash} {k : List Byte}
    (absent : f k = none) (deletions : actions.any isInsert = false) :
    applyActions f actions k = none := by
  induction actions generalizing f with
  | nil => exact absent
  | cons action _ ih =>
    rw [any_cons, Bool.or_eq_false_iff] at deletions
    rw [applyActions, foldl_cons]
    apply ih _ deletions.2
    cases action with
    | insert => cases deletions.1
    | delete =>
      rw [update_apply]
      split_ifs
      · rfl
      · exact absent

end Actions

section Groups

variable {Hash : Type} [LinearOrder Hash]

/-- The groups of a batch. -/
structure Grouped (actions : List (HistoryAction Hash))
    (groups : List (Byte × List (HistoryAction Hash))) : Prop where
  distinct : (groups.map Prod.fst).Nodup
  members : ∀ group ∈ groups, group.2 = actions.filter (headIs group.1) ∧ group.2 ≠ []
  covered : ∀ action ∈ actions, ∀ b, headIs b action = true → b ∈ groups.map Prod.fst

variable {groups : List (Byte × List (HistoryAction Hash))}

omit [LinearOrder Hash] in
theorem push_group {actions : List (HistoryAction Hash)} {action : HistoryAction Hash}
    {first : Byte} (grouped : Grouped actions groups) (head : headIs first action = true) :
    Grouped (actions ++ [action]) (pushGroup groups first action) := by
  have heads (b : Byte) : headIs b action = true ↔ b = first := by
    have firstEq := of_decide_eq_true head
    constructor
    · intro other
      have same := (of_decide_eq_true other).symm.trans firstEq
      exact Option.some.inj same
    · rintro rfl
      exact head
  have filtered (b : Byte) : (actions ++ [action]).filter (headIs b) =
      actions.filter (headIs b) ++ if b = first then [action] else [] := by
    rw [filter_append]
    congr 1
    by_cases here : b = first
    · rw [if_pos here, filter_cons_of_pos ((heads b).mpr here), filter_nil]
    · rw [if_neg here, filter_cons_of_neg (fun other => here ((heads b).mp other)), filter_nil]
  unfold pushGroup
  split_ifs with known
  · have firsts : (groups.map fun group => if group.1 = first then (group.1, group.2 ++ [action])
        else group).map Prod.fst = groups.map Prod.fst := by
      rw [map_map]
      apply map_congr_left
      intro _ _
      dsimp only [comp_apply]
      split_ifs <;> rfl
    refine ⟨by rw [firsts]; exact grouped.distinct, ?_, ?_⟩
    · intro _ mem
      obtain ⟨old, among, rfl⟩ := mem_map.mp mem
      obtain ⟨content, present⟩ := grouped.members old among
      by_cases here : old.1 = first
      · rw [if_pos here, filtered, if_pos here, content]
        exact ⟨rfl, by simp⟩
      · rw [if_neg here, filtered, if_neg here, append_nil]
        exact ⟨content, present⟩
    · intro other mem b isHead
      rw [firsts]
      rcases mem_append.mp mem with old | new
      · exact grouped.covered other old b isHead
      · rw [mem_singleton.mp new] at isHead
        rw [(heads b).mp isHead]
        exact known
  · refine ⟨?_, ?_, ?_⟩
    · rw [map_append]
      exact grouped.distinct.append (nodup_singleton first) (by
        intro _ old new
        rw [map_singleton, mem_singleton] at new
        rw [new] at old
        exact known old)
    · intro group mem
      rcases mem_append.mp mem with old | new
      · obtain ⟨content, present⟩ := grouped.members group old
        have other : group.1 ≠ first := fun same =>
          known (same ▸ mem_map_of_mem old)
        rw [filtered, if_neg other, append_nil]
        exact ⟨content, present⟩
      · rw [mem_singleton.mp new, filtered, if_pos rfl]
        have none : actions.filter (headIs first) = [] := by
          apply filter_eq_nil_iff.mpr
          intro other mem isHead
          exact known (grouped.covered other mem first isHead)
        rw [none]
        exact ⟨rfl, by simp⟩
    · intro other mem b isHead
      rw [map_append, mem_append]
      rcases mem_append.mp mem with old | new
      · exact Or.inl (grouped.covered other old b isHead)
      · rw [mem_singleton.mp new] at isHead
        rw [(heads b).mp isHead]
        exact Or.inr mem_cons_self

omit [LinearOrder Hash] in
theorem group_actions_spec (actions : List (HistoryAction Hash))
    (keyed : ∀ action ∈ actions, action.key ≠ []) {before : List (HistoryAction Hash)}
    (grouped : Grouped before groups) (tree : RadixTree Hash) :
    Yields tree (groupActions groups actions) fun result next =>
      next = tree ∧ Grouped (before ++ actions) result := by
  induction actions generalizing before groups with
  | nil =>
    apply yields_pure
    rw [append_nil]
    exact ⟨rfl, grouped⟩
  | cons action _ ih =>
    rw [groupActions]
    cases shape : action.key with
    | nil => exact absurd shape (keyed action mem_cons_self)
    | cons first =>
      have head : headIs first action = true := by
        rw [headIs, shape]
        exact decide_eq_true rfl
      have rest := ih (fun other mem => keyed other (mem_cons_of_mem action mem))
        (push_group grouped head)
      rwa [append_assoc, singleton_append] at rest

omit [LinearOrder Hash] in
theorem replace_items_other (newItems : List (Byte × Option (Item Hash))) (node : Node Hash)
    {b : Byte} (absent : b ∉ newItems.map Prod.fst) : replaceItems node newItems b = node b := by
  induction newItems generalizing node with
  | nil => rfl
  | cons entry _ ih =>
    rw [map_cons, mem_cons, not_or] at absent
    rw [replaceItems, foldl_cons, ← replaceItems, ih _ absent.2]
    cases entry.2 with
    | none => rfl
    | some item => exact update_of_ne absent.1 item node

omit [LinearOrder Hash] in
theorem replace_items_at (newItems : List (Byte × Option (Item Hash))) (node : Node Hash)
    (distinct : (newItems.map Prod.fst).Nodup) {entry : Byte × Option (Item Hash)}
    (mem : entry ∈ newItems) :
    replaceItems node newItems entry.1 = entry.2.getD (node entry.1) := by
  induction newItems generalizing node with
  | nil => cases mem
  | cons other newItems ih =>
    rw [map_cons, nodup_cons] at distinct
    rw [replaceItems, foldl_cons, ← replaceItems]
    rcases mem_cons.mp mem with rfl | later
    · rw [replace_items_other newItems _ distinct.1]
      cases entry.2 with
      | none => rfl
      | some item => exact update_self entry.1 item node
    · rw [ih _ distinct.2 later]
      have different : entry.1 ≠ other.1 := by
        intro same
        exact distinct.1 (same ▸ mem_map_of_mem later)
      cases other.2 with
      | none => rfl
      | some =>
        dsimp only
        rw [update_of_ne different]

end Groups

section Batch

variable {Hash : Type} [LinearOrder Hash] {blake : Blake2b256 Hash}

def Extends (blake : Blake2b256 Hash) (tree next : RadixTree Hash) : Prop :=
  (∀ ptr node, tree.nodes blake ptr = some node → next.nodes blake ptr = some node) ∧
    next.store = tree.store

/-- What a batch function has to do below nodes of one depth. -/
def BatchSpec (blake : Blake2b256 Hash) (m : Nat)
    (batch : Node Hash → List (HistoryAction Hash) → RadixM Hash (Option (Node Hash))) : Prop :=
  ∀ (tree : RadixTree Hash) (node : Node Hash) (f : Values Hash)
    (actions : List (HistoryAction Hash)), Coherent blake tree →
    NodeDenotes (tree.nodes blake) m node f →
    (∀ action ∈ actions, action.key.length = m + 1) → (actions.map HistoryAction.key).Nodup →
    Yields tree (batch node actions) fun result next => Grown blake tree next ∧
      NodeDenotes (next.nodes blake) m (result.getD node) (applyActions f actions)

variable {tree : RadixTree Hash} {m : Nat} {item : Item Hash} {f : Values Hash}

theorem apply_action_spec (ideal : blake.Ideal) {action : HistoryAction Hash}
    (coherent : Coherent blake tree) (denotes : Denotes (tree.nodes blake) m item f)
    (sized : action.key.length = m + 1) (bound : m ≤ 127) :
    Yields tree (applyAction blake item action) fun result next => Grown blake tree next ∧
      Denotes (next.nodes blake) m (result.getD item) (applyActions f [trim action]) := by
  have tail : (trim action).key.length = m := by
    rw [trim_key, length_tail]
    omega
  cases action with
  | insert key =>
    exact update_spec ideal coherent key.length denotes tail bound
      (show m < key.length by exact sized ▸ Nat.lt_succ_self m)
  | delete key =>
    exact delete_spec ideal coherent key.length denotes tail bound
      (show m < key.length by exact sized ▸ Nat.lt_succ_self m)

theorem group_item_spec (ideal : blake.Ideal)
    {batch : Node Hash → List (HistoryAction Hash) → RadixM Hash (Option (Node Hash))}
    (spec : ∀ n, m = n + 1 → BatchSpec blake n batch) {b : Byte}
    {actions : List (HistoryAction Hash)} (coherent : Coherent blake tree)
    (denotes : Denotes (tree.nodes blake) m item f)
    (heads : ∀ action ∈ actions, headIs b action = true)
    (sized : ∀ action ∈ actions, action.key.length = m + 1)
    (distinct : (actions.map HistoryAction.key).Nodup) (present : actions ≠ []) (bound : m ≤ 127) :
    Yields tree (groupItem blake batch item actions) fun result next => Grown blake tree next ∧
      Denotes (next.nodes blake) m (result.getD item) (applyActions f (actions.map trim)) := by
  cases actions with
  | nil => exact absurd rfl present
  | cons first others =>
    cases others with
    | nil => exact apply_action_spec ideal coherent denotes (sized first mem_cons_self) bound
    | cons second others =>
      -- two keys with one first byte differ further down
      have deeper : m ≠ 0 := by
        rintro rfl
        have firstKey := key_of_head (heads first mem_cons_self)
        have secondKey := key_of_head (heads second (mem_cons_of_mem _ mem_cons_self))
        have firstSized := sized first mem_cons_self
        have secondSized := sized second (mem_cons_of_mem _ mem_cons_self)
        rw [firstKey, length_cons] at firstSized
        rw [secondKey, length_cons] at secondSized
        have same : first.key = second.key := by
          rw [firstKey, secondKey, length_eq_zero_iff.mp (Nat.succ.inj firstSized),
            length_eq_zero_iff.mp (Nat.succ.inj secondSized)]
        rw [map_cons, map_cons, nodup_cons] at distinct
        exact distinct.1 (same ▸ mem_cons_self)
      obtain ⟨n, rfl⟩ := Nat.exists_eq_succ_of_ne_zero deeper
      rw [groupItem]
      · set actions := first :: second :: others with named
        split_ifs with idle
        · apply yields_pure
          refine ⟨.refl coherent, ?_⟩
          rw [Option.getD_none]
          rw [idle.1] at denotes ⊢
          refine .empty fun k kSized => apply_deletions (denotes_empty denotes k kSized) ?_
          have none := Bool.eq_false_iff.mpr idle.2
          rw [any_map]
          rw [← none]
          congr 1
          funext action
          cases action with
          | insert | delete => rfl
        · refine yields_bind (construct_spec ideal coherent denotes) ?_
          rintro node next ⟨grown, created⟩
          have trimmedSized : ∀ action ∈ actions.map trim, action.key.length = n + 1 := by
            intro _ mem
            obtain ⟨original, among, rfl⟩ := mem_map.mp mem
            rw [trim_key, length_tail, sized original among]
            rfl
          have trimmedDistinct : ((actions.map trim).map HistoryAction.key).Nodup := by
            rw [map_map]
            apply List.Nodup.of_map (cons b)
            rw [map_map]
            convert distinct using 1
            apply map_congr_left
            intro action mem
            exact (key_of_head (heads action mem)).symm
          refine yields_bind (spec n rfl next node f (actions.map trim) grown.coherent created
            trimmedSized trimmedDistinct) ?_
          rintro result _ ⟨grownMore, changed⟩
          cases result with
          | none =>
            apply yields_pure
            refine ⟨grown.trans grownMore, ?_⟩
            rw [Option.getD_none] at changed ⊢
            refine (denotes.mono (grown.trans grownMore).more).congr fun k kSized => ?_
            cases k with
            | nil => cases kSized
            | cons c k =>
              exact (created c).functional (changed c) (fun _ _ _ found again =>
                Option.some.inj ((grownMore.more _ _ found).symm.trans again)) k (Nat.succ.inj kSized)
          | some =>
            apply yields_map
            refine (create_item_spec changed (fun k _ _ => nil_prefix) (by simp) ideal
              grownMore.coherent bound true fun impossible => by cases impossible).weaken ?_
            rintro _ _ ⟨grownLast, result⟩
            exact ⟨(grown.trans grownMore).trans grownLast, result⟩
      · intro _ same
        cases same

theorem make_actions_spec (ideal : blake.Ideal) (fuel m : Nat) (bound : m ≤ 126)
    (enough : m < fuel) : BatchSpec blake m (makeActions blake fuel) := by
  induction fuel generalizing m with
  | zero => omega
  | succ fuel ih =>
    intro tree node f actions coherent denotes sized distinct
    have keyed : ∀ action ∈ actions, action.key ≠ [] := by
      intro action mem empty
      have length := sized action mem
      rw [empty] at length
      cases length
    have none : Grouped ([] : List (HistoryAction Hash)) [] :=
      ⟨nodup_nil, fun _ mem => absurd mem not_mem_nil, fun _ mem => absurd mem not_mem_nil⟩
    rw [makeActions]
    refine yields_bind (group_actions_spec actions keyed none tree) ?_
    rintro groups same ⟨rfl, grouped⟩
    rw [nil_append] at grouped
    have each : ∀ group ∈ groups, ∀ mid : RadixTree Hash, Extends blake same mid →
        Coherent blake mid →
        Yields mid (do
          let item ← groupItem blake (makeActions blake fuel) (node group.1) group.2
          pure (group.1, item)) fun entry next =>
        Extends blake mid next ∧ Coherent blake next ∧ entry.1 = group.1 ∧
          Denotes (next.nodes blake) m (entry.2.getD (node group.1))
            fun k => applyActions f actions (group.1 :: k) := by
      intro group mem _ more coherentMid
      obtain ⟨content, present⟩ := grouped.members group mem
      have inGroup : ∀ action ∈ group.2, action ∈ actions ∧ headIs group.1 action = true := by
        intro _ among
        rw [content] at among
        exact mem_filter.mp among
      refine yields_bind (group_item_spec ideal (fun n below => ih n (by omega) (by omega))
        coherentMid ((denotes group.1).mono more.1) (fun action among => (inGroup action among).2)
        (fun action among => sized action (inGroup action among).1) ?_ present (by omega)) ?_
      · rw [content]
        exact distinct.sublist (filter_sublist.map HistoryAction.key)
      · rintro _ _ ⟨grown, result⟩
        apply yields_pure
        refine ⟨⟨grown.more, grown.store⟩, grown.coherent, rfl, result.congr fun k _ => ?_⟩
        rw [apply_below, ← content]
    refine yields_bind (yields_mapM (Coherent blake) (Extends blake)
      (fun (group : Byte × List (HistoryAction Hash)) (entry : Byte × Option (Item Hash)) state =>
        entry.1 = group.1 ∧ Denotes (state.nodes blake) m (entry.2.getD (node group.1)) fun k =>
          applyActions f actions (group.1 :: k))
      (fun _ => ⟨fun _ _ found => found, rfl⟩)
      (fun _ _ _ first second => ⟨fun ptr node found => second.1 ptr node (first.1 ptr node found),
        second.2.trans first.2⟩)
      (fun _ _ _ _ more holds => ⟨holds.1, holds.2.mono more.1⟩) groups coherent each) ?_
    rintro newItems _ ⟨⟨more, kept⟩, coherentNext, results⟩
    apply yields_pure
    have chosen : (if replaceItems node newItems ≠ node then some (replaceItems node newItems)
        else Option.none).getD node = replaceItems node newItems := by
      split_ifs with changed
      · rfl
      · rw [not_not.mp changed, Option.getD_none]
    refine ⟨⟨coherentNext, more, kept⟩, ?_⟩
    rw [chosen]
    have firsts : newItems.map Prod.fst = groups.map Prod.fst := by
      have pairs : List.Forall₂ (fun b c => b = c) (groups.map Prod.fst) (newItems.map Prod.fst) := by
        rw [forall₂_map_left_iff, forall₂_map_right_iff]
        exact results.imp fun group entry holds => holds.1.symm
      exact (forall₂_eq_eq_eq ▸ pairs : groups.map Prod.fst = newItems.map Prod.fst).symm
    intro b
    by_cases among : b ∈ groups.map Prod.fst
    · obtain ⟨_, mem, rfl⟩ := mem_map.mp among
      obtain ⟨_, listed, sameByte, result⟩ := exists_of_forall₂ results mem
      rw [← sameByte, replace_items_at newItems node (firsts ▸ grouped.distinct) listed, sameByte]
      exact result
    · rw [replace_items_other newItems node (firsts ▸ among)]
      refine ((denotes b).mono more).congr fun k _ => ?_
      rw [apply_below]
      have none : actions.filter (headIs b) = [] := by
        apply filter_eq_nil_iff.mpr
        intro action mem isHead
        exact among (grouped.covered action mem b isHead)
      rw [none]
      rfl

end Batch

end RChain.Radix
