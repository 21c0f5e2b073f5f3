import RChain.RSpace.RadixStore

/-!
# The operations of the radix tree on finite maps

Each operation is specified by the map that its result stands for: inserting and deleting
update the map at one key, a batch at the keys of its actions. The result is in canonical
form again, and the tree has only grown.
-/

namespace RChain.Radix

open BitCodec Sorted Total TupleSpace List Function Option

section Items

variable {Hash : Type} [LinearOrder Hash] {blake : Blake2b256 Hash} {tree : RadixTree Hash}
  {m rest : Nat} {f : Values Hash} {segment : List Byte} {node : Node Hash}

theorem split_key {k : List Byte} (front : segment <+: k) (sized : k.length = segment.length + (rest + 1)) :
    ∃ b tail, k = segment ++ b :: tail ∧ tail.length = rest := by
  obtain ⟨tail, rfl⟩ := front
  rw [length_append] at sized
  obtain ⟨b, tail, rfl⟩ := exists_cons_of_length_pos (show 0 < tail.length by omega)
  rw [length_cons] at sized
  exact ⟨b, tail, rfl, by omega⟩

section

variable (denotes : NodeDenotes (tree.nodes blake) rest node fun k => f (segment ++ k))
  (within : ∀ k, k.length = m → f k ≠ none → segment <+: k)
  (length : m = segment.length + (rest + 1))
include denotes within length

theorem saved_item_spec (ideal : blake.Ideal) (coherent : Coherent blake tree) (bound : m ≤ 127)
    (branching : ∃ a b, a ≠ b ∧ node a ≠ .empty ∧ node b ≠ .empty) : Yields tree (do
        let ptr ← saveNode blake node
        pure (.nodePtr segment ptr)) fun item next =>
      Grown blake tree next ∧ Denotes (next.nodes blake) m item f := by
  have short : node.Short := fun b => (denotes b).short (by omega)
  refine yields_bind (save_node_spec ideal coherent short) ?_
  rintro _ _ ⟨rfl, grown, found⟩
  exact yields_pure ⟨grown, .nodePtr length found within
    (fun b => (denotes b).mono grown.more) branching⟩

omit [LinearOrder Hash] in
theorem single_item_denotes {idx : Byte} (alone : ∀ b, b ≠ idx → node b = .empty) :
    (∀ leafSegment value, node idx = .leaf leafSegment value →
      Denotes (tree.nodes blake) m (.leaf (segment ++ [idx] ++ leafSegment) value) f) ∧
    (∀ ptrSegment ptr, node idx = .nodePtr ptrSegment ptr →
      Denotes (tree.nodes blake) m (.nodePtr (segment ++ [idx] ++ ptrSegment) ptr) f) := by
  -- every key goes through the slot of the item
  have through : ∀ k, k.length = m → f k ≠ none →
      ∃ tail, k = segment ++ idx :: tail ∧ tail.length = rest := by
    intro k sized some
    obtain ⟨b, tail, rfl, tailSized⟩ := split_key (within k sized some) (sized.trans length)
    by_cases here : b = idx
    · exact ⟨tail, by rw [here], tailSized⟩
    · have nothing := denotes b
      rw [alone b here] at nothing
      exact absurd (denotes_empty nothing tail tailSized) some
  have child := denotes idx
  constructor
  · intro leafSegment _ isLeaf
    rw [isLeaf] at child
    cases child with
    | leaf leafLength only =>
      dsimp only at only
      refine .leaf ?_ ?_
      · rw [length_append, length_append, length_singleton]
        omega
      · intro k sized
        by_cases some : f k = none
        · rw [some, if_neg]
          rintro rfl
          rw [append_assoc, singleton_append, only leafSegment leafLength, if_pos rfl] at some
          cases some
        · obtain ⟨tail, rfl, tailSized⟩ := through k sized some
          rw [only tail tailSized]
          simp
  · intro ptrSegment _ isPtr
    rw [isPtr] at child
    cases child with
    | @nodePtr _ inner _ _ childNode _ childLength found childWithin children branching =>
      have total : m = (segment ++ [idx] ++ ptrSegment).length + (inner + 1) := by
        rw [length_append, length_append, length_singleton]
        omega
      refine .nodePtr total found ?_ ?_ branching
      · intro k sized some
        obtain ⟨tail, rfl, tailSized⟩ := through k sized some
        rw [append_assoc, singleton_append]
        exact (prefix_append_right_inj segment).mpr
          (cons_prefix_cons.mpr ⟨rfl, childWithin tail tailSized some⟩)
      · intro b
        refine (children b).congr fun k _ => ?_
        simp

theorem create_item_spec (ideal : blake.Ideal) (coherent : Coherent blake tree) (bound : m ≤ 127)
    (compaction : Bool)
    (branching : compaction = false → ∃ a b, a ≠ b ∧ node a ≠ .empty ∧ node b ≠ .empty) :
    Yields tree (saveNodeAndCreateItem blake node segment compaction) fun item next =>
      Grown blake tree next ∧ Denotes (next.nodes blake) m item f := by
  unfold saveNodeAndCreateItem
  dsimp only
  cases compaction with
  | false =>
    rw [if_neg Bool.false_ne_true]
    exact saved_item_spec denotes within length ideal coherent bound (branching rfl)
  | true =>
    rw [if_pos rfl]
    have listed : ∀ b, b ∈ (finRange 256).filter (fun idx => node idx ≠ .empty) ↔
        node b ≠ .empty := by
      intro _
      simp
    have distinct : ((finRange 256).filter fun idx => node idx ≠ .empty).Nodup :=
      (nodup_finRange 256).filter _
    cases slots : (finRange 256).filter fun idx => node idx ≠ .empty with
    | nil =>
      rw [slots] at listed
      refine yields_pure ⟨.refl coherent, .empty fun k sized => ?_⟩
      by_contra some
      obtain ⟨b, tail, rfl, tailSized⟩ := split_key (within k sized some) (sized.trans length)
      have nothing := denotes b
      rw [not_not.mp (fun present => not_mem_nil ((listed b).mpr present))] at nothing
      exact some (denotes_empty nothing tail tailSized)
    | cons idx others =>
      rw [slots] at listed distinct
      cases others with
      | nil =>
        have alone : ∀ b, b ≠ idx → node b = .empty := by
          intro b different
          by_contra present
          exact different (mem_singleton.mp ((listed b).mpr present))
        obtain ⟨leaf, pointer⟩ := single_item_denotes denotes within length alone
        have present : node idx ≠ .empty := (listed idx).mp mem_cons_self
        dsimp only
        cases item : node idx with
        | empty => exact absurd item present
        | leaf leafSegment value =>
          apply yields_pure
          exact ⟨.refl coherent, leaf leafSegment value item⟩
        | nodePtr ptrSegment ptr =>
          apply yields_pure
          exact ⟨.refl coherent, pointer ptrSegment ptr item⟩
      | cons second =>
        refine saved_item_spec denotes within length ideal coherent bound ⟨idx, second, ?_,
          (listed idx).mp mem_cons_self,
          (listed second).mp (mem_cons_of_mem idx mem_cons_self)⟩
        rintro rfl
        exact (nodup_cons.mp distinct).1 mem_cons_self

end

variable {nodes : Hash → Option (Node Hash)} {a b : Byte} {left right : Item Hash} {g : Values Hash}

omit [LinearOrder Hash] in
theorem two_items_denote (different : a ≠ b)
    (leftDenotes : Denotes nodes rest left fun k => g (a :: k))
    (rightDenotes : Denotes nodes rest right fun k => g (b :: k))
    (others : ∀ c k, c ≠ a → c ≠ b → k.length = rest → g (c :: k) = none) :
    NodeDenotes nodes rest (Function.update (Function.update emptyNode b right) a left) g := by
  intro c
  by_cases first : c = a
  · subst first
    rwa [update_self]
  · rw [update_of_ne first]
    by_cases second : c = b
    · subst second
      rwa [update_self]
    · rw [update_of_ne second]
      exact .empty fun k sized => others c k first second sized

end Items

section Single

variable {Hash : Type} [LinearOrder Hash] {blake : Blake2b256 Hash} {tree : RadixTree Hash}
  {m rest : Nat} {item : Item Hash} {f : Values Hash} {a b : Byte} {common left key : List Byte}
  {value : Hash} {right : List Byte} {nodes : Hash → Option (Node Hash)} {node : Node Hash}

theorem front_apart (different : a ≠ b) : ¬ common ++ b :: right <+: common ++ a :: left := by
  rw [prefix_append_right_inj, cons_prefix_cons]
  intro same
  exact different same.1.symm

theorem append_apart (different : a ≠ b) : common ++ a :: left ≠ common ++ b :: right := by
  intro same
  exact different (cons.inj (append_cancel_left same)).1

omit [LinearOrder Hash] in
theorem update_below (f : Values Hash) (a : Byte) (key k : List Byte) (value : Option Hash) :
    Function.update f (common ++ a :: key) value (common ++ a :: k) =
      Function.update (fun k => f (common ++ a :: k)) key value k := by
  by_cases here : k = key
  · rw [here, update_self, update_self]
  · rw [update_of_ne here, update_of_ne]
    intro same
    exact here (cons.inj (append_cancel_left same)).2

omit [LinearOrder Hash] in
theorem update_apart (f : Values Hash) (different : a ≠ b) (key k : List Byte)
    (value : Option Hash) :
    Function.update f (common ++ b :: key) value (common ++ a :: k) = f (common ++ a :: k) :=
  update_of_ne (append_apart different) value f

omit [LinearOrder Hash] in
theorem pointer_updated {value : Option Hash}
    (children : NodeDenotes nodes rest node fun k => f (common ++ k))
    (updated : Denotes nodes rest item (Function.update (fun k => f (common ++ a :: k)) key value)) :
    NodeDenotes nodes rest (Function.update node a item)
      fun k => Function.update f (common ++ a :: key) value (common ++ k) := by
  intro c
  by_cases here : c = a
  · subst here
    rw [update_self]
    exact updated.congr fun k _ => (update_below f c key k value).symm
  · rw [update_of_ne here]
    exact (children c).congr fun k _ => (update_apart f here key k value).symm

omit [LinearOrder Hash] in
theorem updated_within {value : Option Hash}
    (within : ∀ k, k.length = m → f k ≠ none → common <+: k) :
    ∀ k, k.length = m → Function.update f (common ++ a :: key) value k ≠ none → common <+: k := by
  intro k sized some
  by_cases here : k = common ++ a :: key
  · rw [here]
    exact prefix_append common _
  · rw [update_of_ne here] at some
    exact within k sized some

section

variable (ideal : blake.Ideal) (coherent : Coherent blake tree)
include ideal coherent

theorem branch_off_spec {moved : Item Hash} (different : a ≠ b) (present : moved ≠ .empty)
    (denotes : Denotes (tree.nodes blake) left.length moved fun k => f (common ++ b :: k))
    (within : ∀ k, k.length = m → f k ≠ none → common ++ [b] <+: k)
    (length : m = common.length + (left.length + 1)) (bound : m ≤ 127) :
    Yields tree (some <$> saveNodeAndCreateItem blake
      (Function.update (Function.update emptyNode b moved) a (.leaf left value)) common false)
      fun result next => Grown blake tree next ∧ Denotes (next.nodes blake) m (result.getD item)
        (Function.update f (common ++ a :: left) (some value)) := by
  have others : ∀ c k, c ≠ b → k.length = left.length → f (common ++ c :: k) = none := by
    intro _ _ other kSized
    by_contra some
    have front := within _ (by simp [kSized, length]) some
    rw [prefix_append_right_inj, cons_prefix_cons] at front
    exact other front.1.symm
  have node : NodeDenotes (tree.nodes blake) left.length
      (Function.update (Function.update emptyNode b moved) a (.leaf left value))
      fun k => Function.update f (common ++ a :: left) (some value) (common ++ k) := by
    apply two_items_denote different
    · refine .leaf rfl fun k kSized => ?_
      rw [update_below, update_apply]
      split_ifs
      · rfl
      · exact others a k different kSized
    · exact denotes.congr fun k _ => (update_apart f different.symm left k _).symm
    · intro c k first second kSized
      rw [update_apart f first]
      exact others c k second kSized
  apply yields_map
  refine create_item_spec node ?_ length ideal coherent bound false fun _ =>
    ⟨_, _, different, ?_, ?_⟩
  · apply updated_within
    intro k kSized some
    exact (prefix_append common _).trans (within k kSized some)
  · rw [update_self]
    exact fun impossible => by cases impossible
  · rwa [update_of_ne different.symm, update_self]

omit coherent in
theorem child_changed_spec {ptr : Hash} {value : Option Hash} {result : Option (Item Hash)}
    {compaction : Bool} {middle : RadixTree Hash} (grown : Grown blake tree middle)
    (length : m = common.length + (rest + 1)) (bound : m ≤ 127)
    (found : tree.nodes blake ptr = some node)
    (within : ∀ k, k.length = m → f k ≠ none → common <+: k)
    (children : NodeDenotes (tree.nodes blake) rest node fun k => f (common ++ k))
    (branching : ∃ c d, c ≠ d ∧ node c ≠ .empty ∧ node d ≠ .empty)
    (updated : Denotes (middle.nodes blake) rest (result.getD (node a))
      (Function.update (fun k => f (common ++ a :: k)) key value))
    (present : compaction = false → result.getD (node a) ≠ .empty) :
    Yields middle (mapItem (fun newItem => saveNodeAndCreateItem blake
        (Function.update node a newItem) common compaction) result)
      fun result next => Grown blake tree next ∧
        Denotes (next.nodes blake) m (result.getD (.nodePtr common ptr))
          (Function.update f (common ++ a :: key) value) := by
  have changed := pointer_updated (fun b => (children b).mono grown.more) updated
  cases result with
  | none =>
    rw [getD_none, update_eq_self] at changed
    apply yields_pure
    exact ⟨grown, .nodePtr length (grown.more _ _ found) (updated_within within) changed branching⟩
  | some newItem =>
    apply yields_map
    refine (create_item_spec changed (updated_within within) length ideal grown.coherent bound
      compaction fun keeps => ?_).weaken fun _ _ holds => ⟨grown.trans holds.1, holds.2⟩
    obtain ⟨c, d, different, presentC, presentD⟩ := branching
    have stays (e : Byte) (was : node e ≠ .empty) : Function.update node a newItem e ≠ .empty := by
      rw [update_apply]
      split_ifs
      · exact present keeps
      · exact was
    exact ⟨c, d, different, stays c presentC, stays d presentD⟩

section

variable (fuel : Nat) (denotes : Denotes (tree.nodes blake) m item f) (sized : key.length = m)
  (bound : m ≤ 127) (enough : m < fuel)
include fuel denotes sized bound enough

theorem update_spec :
    Yields tree (update blake fuel item key value) fun result next => Grown blake tree next ∧
      Denotes (next.nodes blake) m (result.getD item) (Function.update f key (some value)) := by
  induction fuel generalizing tree m item f key with
  | zero => omega
  | succ _ ih =>
    cases denotes with
    | empty nothing =>
      rw [update]
      apply yields_pure
      refine ⟨.refl coherent, .leaf sized fun k kSized => ?_⟩
      rw [update_apply]
      split_ifs
      · rfl
      · exact nothing k kSized
    | @leaf _ segment leafValue _ length only =>
      rw [update, if_neg (not_not.mpr (length.trans sized.symm))]
      by_cases same : segment = key
      · subst same
        rw [if_pos rfl]
        apply yields_pure
        refine ⟨.refl coherent, ?_⟩
        have result : (if value = leafValue then none else some (Item.leaf segment value)).getD
            (Item.leaf segment leafValue) = .leaf segment value := by
          split_ifs with equal
          · rw [equal, getD_none]
          · rw [getD_some]
        rw [result]
        refine .leaf sized fun k kSized => ?_
        rw [update_apply]
        split_ifs with here
        · rfl
        · rw [only k kSized, if_neg here]
      · rw [if_neg same]
        rcases split : commonPrefix key segment with ⟨_, left, right⟩
        obtain ⟨keyEq, segmentEq, apart⟩ := common_prefix_eq split
        have lengths : left.length = right.length := by
          have total := sized.trans length.symm
          rw [keyEq, segmentEq, length_append, length_append] at total
          omega
        cases left with
        | nil =>
          have none : right = [] := length_eq_zero_iff.mp lengths.symm
          exact absurd (segmentEq.trans (by rw [none, keyEq])) same
        | cons a left =>
          cases right with
          | nil => cases lengths
          | cons b right =>
            have different : a ≠ b := apart a left b right rfl rfl
            rw [length_cons, length_cons] at lengths
            subst keyEq
            subst segmentEq
            refine branch_off_spec ideal coherent different
              (fun impossible => by cases impossible) ?_ ?_ ?_ bound
            · refine .leaf (by omega) fun k kSized => ?_
              rw [only _ (by rw [← sized]; simp [kSized])]
              simp
            · intro k kSized some
              rw [only k kSized] at some
              split_ifs at some with here
              · rw [here]
                exact ⟨right, by simp⟩
              · exact absurd rfl some
            · rw [← sized, length_append, length_cons]
    | @nodePtr _ rest segment ptr node _ length found within children branching =>
      rw [update, if_neg (not_not.mpr (by omega))]
      rcases split : commonPrefix key segment with ⟨common, left, right⟩
      obtain ⟨keyEq, segmentEq, apart⟩ := common_prefix_eq split
      cases left with
      | nil =>
        have short := congrArg List.length keyEq
        have long := congrArg List.length segmentEq
        rw [length_append] at short long
        rw [length_nil] at short
        omega
      | cons a left =>
        subst keyEq
        rw [length_append, length_cons] at sized
        cases right with
        | nil =>
          rw [append_nil] at segmentEq
          subst segmentEq
          refine yields_bind (load_node_spec ideal coherent found false) ?_
          rintro _ _ ⟨rfl, grown⟩
          refine yields_bind (ih grown.coherent ((children a).mono grown.more)
            (show left.length = rest by omega) (by omega) (by omega)) ?_
          rintro _ _ ⟨grownMore, updated⟩
          refine child_changed_spec ideal (grown.trans grownMore) length bound found within children
            branching updated fun _ gone => ?_
          rw [gone] at updated
          have missing := denotes_empty updated left (by omega)
          rw [update_self] at missing
          cases missing
        | cons b right =>
          have different : a ≠ b := apart a left b right rfl rfl
          subst segmentEq
          rw [length_append, length_cons] at length
          rw [append_cons] at within
          refine branch_off_spec ideal coherent different
            (fun impossible => by cases impossible) ?_ (fun k kSized some =>
              (prefix_append _ right).trans (within k kSized some)) (by omega) bound
          refine .nodePtr (show left.length = right.length + (rest + 1) by omega) found
            ?_ (fun c => ?_) branching
          · intro k _ some
            have front := within _ (by
              rw [length_append, length_cons]
              omega) some
            rw [append_cons common b k, prefix_append_right_inj] at front
            exact front
          · refine (children c).congr fun k _ => ?_
            rw [append_assoc, cons_append]

theorem delete_spec :
    Yields tree (delete blake fuel item key) fun result next => Grown blake tree next ∧
      Denotes (next.nodes blake) m (result.getD item) (Function.update f key none) := by
  induction fuel generalizing tree m item f key with
  | zero => omega
  | succ _ ih =>
    cases denotes with
    | empty nothing =>
      rw [delete, update_eq_self_iff.mpr (nothing key sized).symm]
      apply yields_pure
      exact ⟨.refl coherent, .empty nothing⟩
    | @leaf _ segment leafValue _ length only =>
      rw [delete]
      apply yields_pure
      refine ⟨.refl coherent, ?_⟩
      by_cases same : segment = key
      · rw [if_pos same, getD_some]
        refine .empty fun k kSized => ?_
        rw [update_apply]
        split_ifs with here
        · rfl
        · rw [only k kSized, if_neg (same ▸ here)]
      · rw [if_neg same, getD_none,
          update_eq_self_iff.mpr (by rw [only key sized, if_neg (Ne.symm same)])]
        exact .leaf length only
    | @nodePtr _ rest segment ptr node _ length found within children branching =>
      have pointer : Denotes (tree.nodes blake) m (.nodePtr segment ptr) f :=
        .nodePtr length found within children branching
      rw [delete]
      rcases split : commonPrefix key segment with ⟨common, left, right⟩
      obtain ⟨keyEq, segmentEq, apart⟩ := common_prefix_eq split
      cases left with
      | nil =>
        have absent : f key = none := by
          by_contra some
          have longer := (within key sized some).length_le
          have short := congrArg List.length keyEq
          have long := congrArg List.length segmentEq
          rw [length_append] at short long
          rw [length_nil] at short
          omega
        rw [update_eq_self_iff.mpr absent.symm]
        apply yields_pure
        exact ⟨.refl coherent, pointer⟩
      | cons a left =>
        subst keyEq
        cases right with
        | cons b right =>
          have absent : f (common ++ a :: left) = none := by
            by_contra some
            have front := within _ sized some
            rw [segmentEq] at front
            exact front_apart (apart a left b right rfl rfl) front
          rw [update_eq_self_iff.mpr absent.symm]
          apply yields_pure
          exact ⟨.refl coherent, pointer⟩
        | nil =>
          rw [append_nil] at segmentEq
          subst segmentEq
          rw [length_append, length_cons] at sized
          refine yields_bind (load_node_spec ideal coherent found false) ?_
          rintro _ _ ⟨rfl, grown⟩
          refine yields_bind (ih grown.coherent ((children a).mono grown.more)
            (show left.length = rest by omega) (by omega) (by omega)) ?_
          rintro _ _ ⟨grownMore, updated⟩
          exact child_changed_spec ideal (grown.trans grownMore) length bound found within children
            branching updated fun impossible => by cases impossible

end

theorem read_spec (fuel : Nat) (denotes : NodeDenotes (tree.nodes blake) m node f)
    (sized : key.length = m + 1) (enough : m + 1 < fuel) :
    Yields tree (readFrom blake fuel node key) fun result _ => result = f key := by
  induction fuel generalizing tree m node f key with
  | zero => omega
  | succ _ ih =>
    cases key with
    | nil => cases sized
    | cons first tail =>
      rw [length_cons] at sized
      have slot := denotes first
      rw [readFrom]
      cases item : node first with
      | empty =>
        rw [item] at slot
        apply yields_pure
        exact (denotes_empty slot tail (by omega)).symm
      | leaf =>
        rw [item] at slot
        apply yields_pure
        cases slot with
        | leaf _ only =>
          have read := only tail (by omega)
          dsimp only at read
          rw [read]
          simp only [eq_comm]
      | nodePtr segment =>
        rw [item] at slot
        cases slot with
        | @nodePtr _ rest _ _ child _ length found within children branching =>
          dsimp only
          rcases split : commonPrefix tail segment with ⟨_, left, right⟩
          obtain ⟨tailEq, segmentEq, apart⟩ := common_prefix_eq split
          cases right with
          | nil =>
            rw [append_nil] at segmentEq
            subst segmentEq
            subst tailEq
            rw [length_append] at sized
            refine yields_bind (load_node_spec ideal coherent found false) ?_
            rintro loaded next ⟨rfl, grown⟩
            have below : NodeDenotes (next.nodes blake) rest loaded
                fun k => f (first :: (segment ++ k)) :=
              fun b => (children b).mono grown.more
            exact ih grown.coherent below (by omega) (by omega)
          | cons b right =>
            apply yields_pure
            by_contra some
            have front := within tail (by omega) fun missing => some missing.symm
            rw [segmentEq, tailEq, prefix_append_right_inj] at front
            cases left with
            | nil => exact absurd front.length_le (by simp)
            | cons a left =>
              exact apart a left b right rfl rfl (cons_prefix_cons.mp front).1.symm

theorem construct_spec (denotes : Denotes (tree.nodes blake) (m + 1) item f) :
    Yields tree (constructNodeFromItem blake item) fun node next => Grown blake tree next ∧
      NodeDenotes (next.nodes blake) m node f := by
  have alone {first : Byte} {below : Item Hash}
      (slot : Denotes (tree.nodes blake) m below fun k => f (first :: k))
      (others : ∀ c k, c ≠ first → k.length = m → f (c :: k) = none) :
      NodeDenotes (tree.nodes blake) m (Function.update emptyNode first below) f := by
    intro c
    by_cases here : c = first
    · subst here
      rwa [update_self]
    · rw [update_of_ne here]
      exact .empty fun k sized => others c k here sized
  cases denotes with
  | empty nothing =>
    apply yields_pure
    exact ⟨.refl coherent, fun b => .empty fun k sized => nothing (b :: k) (by
      rw [length_cons, sized])⟩
  | @leaf _ segment value _ length only =>
    cases segment with
    | nil => cases length
    | cons first =>
      apply yields_pure
      refine ⟨.refl coherent, alone (.leaf (Nat.succ.inj length) fun k sized => ?_) ?_⟩
      · rw [only (first :: k) (by rw [length_cons, sized])]
        simp
      · intro c k other sized
        rw [only (c :: k) (by rw [length_cons, sized]), if_neg]
        intro same
        exact other (cons.inj same).1
  | @nodePtr _ rest segment ptr node _ length found within children branching =>
    cases segment with
    | nil =>
      rw [length_nil] at length
      obtain rfl : m = rest := by omega
      refine (load_node_spec ideal coherent found false).weaken ?_
      rintro _ _ ⟨rfl, grown⟩
      exact ⟨grown, fun b => (children b).mono grown.more⟩
    | cons first tail =>
      rw [length_cons] at length
      apply yields_pure
      refine ⟨.refl coherent, alone (.nodePtr (show m = tail.length + (rest + 1) by omega) found
        ?_ children branching) ?_⟩
      · intro k sized some
        have front := within (first :: k) (by rw [length_cons, sized]) some
        exact (cons_prefix_cons.mp front).2
      · intro c k other sized
        by_contra some
        have front := within (c :: k) (by rw [length_cons, sized]) some
        exact other (cons_prefix_cons.mp front).1.symm

end

end Single

end RChain.Radix
