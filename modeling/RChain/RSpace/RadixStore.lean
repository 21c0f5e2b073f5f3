import RChain.Lib.Total
import RChain.RSpace.RadixDenotes

/-!
# Nodes in the store

Segments of at most 127 bytes survive the encoding, so a node can be read back from its
bytes, and its hash identifies it. The caches and the store then hold one node for a hash,
and saving and committing only add nodes.
-/

namespace RChain.Radix

open BitCodec Sorted Total TupleSpace List Function Finmap Option

/-- The segment fits the seven bits of its length. -/
def Item.Short {Hash : Type} : Item Hash → Prop
  | .empty => True
  | .leaf segment _ => segment.length ≤ 127
  | .nodePtr segment _ => segment.length ≤ 127

def Node.Short {Hash : Type} (node : Node Hash) : Prop := ∀ b, (node b).Short

theorem Denotes.short {Hash : Type} {nodes : Hash → Option (Node Hash)} {m : Nat}
    {item : Item Hash} {f : Values Hash} (denotes : Denotes nodes m item f) (bound : m ≤ 127) :
    item.Short := by
  cases denotes with
  | empty => trivial
  | leaf | nodePtr =>
    rw [Item.Short]
    omega

section Codec

variable {Hash : Type} {blake : Blake2b256 Hash}

def ReadsBack (blake : Blake2b256 Hash) : Prop :=
  ∀ hash rest, blake.fromBytes (blake.asBytes hash ++ rest) = some (hash, rest)

theorem read_record_encode (readsBack : ReadsBack blake) {seen : List Byte} {idx : Byte} {item : Item Hash}
    (present : item ≠ .empty) (short : item.Short) (fresh : idx ∉ seen) (rest : List Byte) :
    readRecord blake seen (encodeItem blake idx item ++ rest) = .ok ((idx, item), rest) := by
  cases item with
  | empty => exact absurd rfl present
  | leaf segment =>
    rw [Item.Short] at short
    have small : segment.length % 128 = segment.length := Nat.mod_eq_of_lt (by omega)
    have byte : (Fin.ofNat 256 segment.length).val = segment.length :=
      Nat.mod_eq_of_lt (by omega)
    simp only [encodeItem, cons_append, readRecord, small, byte, if_neg fresh]
    rw [if_neg (by simp), append_assoc, drop_left, readsBack, take_left]
    dsimp only
    rw [if_pos (by omega)]
  | nodePtr segment =>
    rw [Item.Short] at short
    have small : segment.length % 128 = segment.length := Nat.mod_eq_of_lt (by omega)
    have byte : (Fin.ofNat 256 (128 + segment.length)).val = 128 + segment.length :=
      Nat.mod_eq_of_lt (by omega)
    have cut : (128 + segment.length) % 128 = segment.length := by omega
    simp only [encodeItem, cons_append, readRecord, small, byte, cut, if_neg fresh]
    rw [if_neg (by simp), append_assoc, drop_left, readsBack, take_left]
    dsimp only
    rw [if_neg (by omega)]

variable [DecidableEq Hash]

def recordOf (node : Node Hash) (idx : Byte) : Option (Byte × Item Hash) :=
  if node idx = .empty then none else some (idx, node idx)

variable {node : Node Hash}

theorem read_records_encode (readsBack : ReadsBack blake) (short : node.Short) (slots : List Byte)
    (distinct : slots.Nodup) (seen : List Byte) (fresh : ∀ idx ∈ slots, idx ∉ seen) (fuel : Nat)
    (enough : (slots.flatMap fun idx => encodeItem blake idx (node idx)).length ≤ fuel) :
    readRecords blake fuel seen (slots.flatMap fun idx => encodeItem blake idx (node idx)) =
      .ok (slots.filterMap (recordOf node)) := by
  induction slots generalizing seen fuel with
  | nil =>
    cases fuel with
    | zero | succ => rfl
  | cons idx slots ih =>
    obtain ⟨apart, distinctRest⟩ := nodup_cons.mp distinct
    have freshRest : ∀ other ∈ slots, other ∉ seen := fun other mem =>
      fresh other (mem_cons_of_mem idx mem)
    rw [flatMap_cons] at enough ⊢
    by_cases present : node idx = .empty
    · have skipped : recordOf node idx = none := if_pos present
      rw [present, encodeItem, nil_append] at enough ⊢
      rw [filterMap_cons_none skipped]
      exact ih distinctRest seen freshRest fuel enough
    · have listed : recordOf node idx = some (idx, node idx) := if_neg present
      have shape : ∃ second tail, encodeItem blake idx (node idx) = idx :: second :: tail := by
        cases item : node idx with
        | empty => exact absurd item present
        | leaf | nodePtr => exact ⟨_, _, rfl⟩
      obtain ⟨_, _, bytes⟩ := shape
      have read := read_record_encode readsBack present (short idx)
        (fresh idx mem_cons_self) (slots.flatMap fun other => encodeItem blake other (node other))
      rw [bytes] at enough read ⊢
      simp only [cons_append, length_cons] at enough
      obtain ⟨fuel, rfl⟩ : ∃ less, fuel = less + 1 := ⟨fuel - 1, by omega⟩
      rw [cons_append, cons_append] at read ⊢
      simp only [readRecords, read, filterMap_cons_some listed]
      have rest := ih distinctRest (idx :: seen) (fun other mem => by
          rw [mem_cons, not_or]
          refine ⟨?_, freshRest other mem⟩
          rintro rfl
          exact apart mem) fuel (by
          rw [length_append] at enough
          omega)
      simp only [bind, Except.bind, rest, pure, Except.pure]

theorem replace_records {start : Node Hash} (slots : List Byte) (b : Byte) :
    ((slots.filterMap (recordOf node)).foldl
      (fun node record => Function.update node record.1 record.2) start) b =
      if b ∈ slots ∧ node b ≠ .empty then node b else start b := by
  induction slots generalizing start with
  | nil => simp
  | cons idx slots ih =>
    by_cases present : node idx = .empty
    · have skipped : recordOf node idx = none := if_pos present
      rw [filterMap_cons_none skipped, ih]
      by_cases here : b = idx
      · subst here
        simp [present]
      · simp [here]
    · have listed : recordOf node idx = some (idx, node idx) := if_neg present
      rw [filterMap_cons_some listed, foldl_cons, ih]
      by_cases here : b = idx
      · subst here
        by_cases later : b ∈ slots
        · simp [later, present]
        · simp [later, present]
      · simp [here]

theorem decode_encode (readsBack : ReadsBack blake) (short : node.Short) :
    decode blake (encode blake node) = .ok node := by
  unfold decode
  rw [encode, read_records_encode readsBack short _ (nodup_finRange 256) []
    (fun _ _ => not_mem_nil) _ le_rfl]
  simp only [bind, Except.bind, pure, Except.pure, Except.ok.injEq]
  funext b
  rw [replace_records]
  by_cases present : node b = .empty
  · simp [present, emptyNode]
  · simp [present]

theorem hash_node_injective (ideal : blake.Ideal) {left right : Node Hash} (leftShort : left.Short)
    (rightShort : right.Short) (same : hashNode blake left = hashNode blake right) :
    left = right := by
  have bytes := ideal.create_injective same
  have decoded := decode_encode ideal.read_back leftShort
  rw [bytes, decode_encode ideal.read_back rightShort] at decoded
  exact (Except.ok.inj decoded).symm

end Codec

section State

variable {Hash : Type} [LinearOrder Hash] (blake : Blake2b256 Hash)

/-- The node that a hash leads to, from the cache or from the store. -/
def RadixTree.nodes (tree : RadixTree Hash) (ptr : Hash) : Option (Node Hash) :=
  (tree.cacheRead ptr).or ((tree.store ptr).bind fun bytes => (decode blake bytes).toOption)

def Addressed (ptr : Hash) (bytes : List Byte) : Prop :=
  ∃ node : Node Hash, node.Short ∧ bytes = encode blake node ∧ ptr = hashNode blake node

/-- Every cache entry and every stored value is under the hash of its node, and a cached node is
in the store or waits for it. -/
structure Coherent (tree : RadixTree Hash) : Prop where
  cached : ∀ ptr node, tree.cacheRead ptr = some node → node.Short ∧ ptr = hashNode blake node ∧
    (tree.store ptr = some (encode blake node) ∨
      tree.cacheWrite.lookup ptr = some (encode blake node))
  stored : ∀ ptr bytes, tree.store ptr = some bytes → Addressed blake ptr bytes
  written : ∀ ptr bytes, tree.cacheWrite.lookup ptr = some bytes → Addressed blake ptr bytes

/-- The second tree has all nodes of the first and the same store, and is coherent. -/
structure Grown (tree next : RadixTree Hash) : Prop where
  coherent : Coherent blake next
  more : ∀ ptr node, tree.nodes blake ptr = some node → next.nodes blake ptr = some node
  store : next.store = tree.store

variable {blake} {tree next last : RadixTree Hash}

theorem Grown.refl (coherent : Coherent blake tree) : Grown blake tree tree :=
  ⟨coherent, fun _ _ found => found, rfl⟩

theorem Grown.trans (first : Grown blake tree next) (second : Grown blake next last) :
    Grown blake tree last :=
  ⟨second.coherent, fun ptr node found => second.more ptr node (first.more ptr node found),
    second.store.trans first.store⟩

variable {ptr : Hash} {node : Node Hash}

theorem addressed_decode (ideal : blake.Ideal) {bytes : List Byte}
    (addressed : Addressed blake ptr bytes) : ∃ node : Node Hash, node.Short ∧
      decode blake bytes = .ok node ∧ ptr = hashNode blake node ∧ bytes = encode blake node := by
  obtain ⟨node, short, rfl, rfl⟩ := addressed
  exact ⟨node, short, decode_encode ideal.read_back short, rfl, rfl⟩

omit [LinearOrder Hash] in
theorem nodes_cached (cached : tree.cacheRead ptr = some node) :
    tree.nodes blake ptr = some node := by
  rw [RadixTree.nodes, cached, some_or]

omit [LinearOrder Hash] in
theorem nodes_stored (missing : tree.cacheRead ptr = none) :
    tree.nodes blake ptr = (tree.store ptr).bind fun bytes => (decode blake bytes).toOption := by
  rw [RadixTree.nodes, missing, none_or]

section

variable (ideal : blake.Ideal) (coherent : Coherent blake tree)

include ideal coherent

theorem Coherent.hashed (found : tree.nodes blake ptr = some node) :
    node.Short ∧ ptr = hashNode blake node := by
  cases cached : tree.cacheRead ptr with
  | some =>
    rw [nodes_cached cached] at found
    cases found
    obtain ⟨short, hash, _⟩ := coherent.cached ptr node cached
    exact ⟨short, hash⟩
  | none =>
    rw [nodes_stored cached, bind_eq_some_iff] at found
    obtain ⟨bytes, stored, decoded⟩ := found
    obtain ⟨_, short, read, hash, _⟩ := addressed_decode ideal (coherent.stored ptr bytes stored)
    rw [read] at decoded
    cases decoded
    exact ⟨short, hash⟩

theorem load_node_spec (found : tree.nodes blake ptr = some node) (noAssert : Bool) :
    Yields tree (loadNode blake ptr noAssert) fun loaded next =>
      loaded = node ∧ Grown blake tree next := by
  cases cached : tree.cacheRead ptr with
  | some =>
    rw [nodes_cached cached] at found
    cases found
    refine ⟨node, tree, ?_, rfl, .refl coherent⟩
    simp only [StateT.run, loadNode, cached]
  | none =>
    have origin := found
    rw [nodes_stored cached, bind_eq_some_iff] at found
    obtain ⟨bytes, stored, decoded⟩ := found
    obtain ⟨other, short, read, hash, encoded⟩ :=
      addressed_decode ideal (coherent.stored ptr bytes stored)
    rw [read] at decoded
    cases decoded
    refine ⟨node, { tree with cacheRead := Function.update tree.cacheRead ptr (some node) }, ?_,
      rfl, ?_, ?_, rfl⟩
    · simp only [StateT.run, loadNode, cached, stored, map_some, read]
    · refine ⟨?_, coherent.stored, coherent.written⟩
      intro other otherNode held
      dsimp only at held
      by_cases here : other = ptr
      · subst here
        rw [update_self] at held
        cases held
        exact ⟨short, hash, .inl (encoded ▸ stored)⟩
      · rw [update_of_ne here] at held
        exact coherent.cached other otherNode held
    · intro other _ held
      by_cases here : other = ptr
      · subst here
        rw [origin] at held
        cases held
        exact nodes_cached (update_self other (some node) tree.cacheRead)
      · rw [RadixTree.nodes] at held ⊢
        dsimp only
        rwa [update_of_ne here]

theorem save_node_spec (short : node.Short) :
    Yields tree (saveNode blake node) fun hash next => hash = hashNode blake node ∧
      Grown blake tree next ∧ next.nodes blake hash = some node := by
  have writtenNext : ∀ ptr bytes, (tree.cacheWrite.insert (hashNode blake node)
      (encode blake node)).lookup ptr = some bytes → Addressed blake ptr bytes := by
    intro ptr bytes held
    by_cases here : ptr = hashNode blake node
    · subst here
      rw [lookup_insert] at held
      cases held
      exact ⟨node, short, rfl, rfl⟩
    · rw [lookup_insert_of_ne _ here] at held
      exact coherent.written ptr bytes held
  have kept : ∀ ptr other, tree.cacheRead ptr = some other → other.Short ∧
      ptr = hashNode blake other ∧ (tree.store ptr = some (encode blake other) ∨
        (tree.cacheWrite.insert (hashNode blake node) (encode blake node)).lookup ptr =
          some (encode blake other)) := by
    intro ptr other held
    obtain ⟨otherShort, hash, _⟩ := coherent.cached ptr other held
    refine ⟨otherShort, hash, ?_⟩
    by_cases here : ptr = hashNode blake node
    · have same := hash_node_injective ideal short otherShort (here.symm.trans hash)
      subst same
      rw [here, lookup_insert]
      exact .inr rfl
    · rwa [lookup_insert_of_ne _ here]
  cases cached : tree.cacheRead (hashNode blake node) with
  | some existing =>
    obtain ⟨existingShort, hash, _⟩ := coherent.cached _ existing cached
    have same := hash_node_injective ideal short existingShort hash
    subst same
    refine ⟨hashNode blake node, { tree with
      cacheWrite := tree.cacheWrite.insert (hashNode blake node) (encode blake node) }, ?_, rfl,
      ⟨⟨kept, coherent.stored, writtenNext⟩, fun _ _ found => found, rfl⟩, nodes_cached cached⟩
    simp only [StateT.run, saveNode, cached, if_true]
  | none =>
    refine ⟨hashNode blake node, { tree with
      cacheRead := Function.update tree.cacheRead (hashNode blake node) (some node)
      cacheWrite := tree.cacheWrite.insert (hashNode blake node) (encode blake node) }, ?_, rfl,
      ⟨⟨?_, coherent.stored, writtenNext⟩, ?_, rfl⟩, nodes_cached (update_self _ _ _)⟩
    · simp only [StateT.run, saveNode, cached]
    · intro ptr other held
      dsimp only at held
      by_cases here : ptr = hashNode blake node
      · subst here
        rw [update_self] at held
        cases held
        exact ⟨short, rfl, .inr (lookup_insert _)⟩
      · rw [update_of_ne here] at held
        exact kept ptr other held
    · intro ptr _ found
      by_cases here : ptr = hashNode blake node
      · subst here
        obtain ⟨otherShort, hash⟩ := coherent.hashed ideal found
        have same := hash_node_injective ideal short otherShort hash
        subst same
        exact nodes_cached (update_self _ _ _)
      · rw [RadixTree.nodes] at found ⊢
        dsimp only
        rwa [update_of_ne here]

theorem commit_spec : Yields tree commit fun _ next =>
      Coherent blake { next with cacheRead := fun _ => none, cacheWrite := ∅ } ∧
        ∀ ptr node, tree.nodes blake ptr = some node →
          RadixTree.nodes blake { next with cacheRead := fun _ => none, cacheWrite := ∅ } ptr =
            some node := by
  have agree : ∀ hash ∈ tree.cacheWrite.keys, ∀ stored ∈ tree.store hash,
      tree.cacheWrite.lookup hash = some stored := by
    intro hash isKey stored held
    obtain ⟨bytes, written⟩ := mem_iff.mp (mem_keys.mp isKey)
    obtain ⟨_, _, storedEq, storedHash⟩ := coherent.stored hash stored held
    obtain ⟨_, _, writtenEq, writtenHash⟩ := coherent.written hash bytes written
    have bytesEq := ideal.create_injective (storedHash.symm.trans writtenHash)
    rw [written, writtenEq, storedEq, bytesEq]
  refine ⟨⟨⟩, { tree with store := fun hash => (tree.store hash).or (tree.cacheWrite.lookup hash) },
    ?_, ⟨⟨?_, ?_, ?_⟩, ?_⟩⟩
  · simp only [StateT.run, commit]
    rw [if_pos agree]
  · intro _ _ impossible
    cases impossible
  · intro ptr bytes held
    rcases or_eq_some_iff.mp held with old | ⟨_, written⟩
    · exact coherent.stored ptr bytes old
    · exact coherent.written ptr bytes written
  · intro _ _ impossible
    rw [lookup_empty] at impossible
    cases impossible
  · intro ptr node found
    obtain ⟨short, _⟩ := coherent.hashed ideal found
    rw [nodes_stored rfl, bind_eq_some_iff]
    refine ⟨encode blake node, ?_, by rw [decode_encode ideal.read_back short]; rfl⟩
    cases cached : tree.cacheRead ptr with
    | some =>
      rw [nodes_cached cached] at found
      cases found
      rcases (coherent.cached ptr node cached).2.2 with stored | written
      · exact or_eq_some_iff.mpr (.inl stored)
      · cases stored : tree.store ptr with
        | none => exact or_eq_some_iff.mpr (.inr ⟨stored, written⟩)
        | some bytes =>
          have same := agree ptr (mem_keys.mpr (mem_iff.mpr ⟨_, written⟩)) bytes stored
          rw [written] at same
          cases same
          exact or_eq_some_iff.mpr (.inl stored)
    | none =>
      rw [nodes_stored cached, bind_eq_some_iff] at found
      obtain ⟨bytes, stored, decoded⟩ := found
      obtain ⟨_, _, read, _, encoded⟩ :=
        addressed_decode ideal (coherent.stored ptr bytes stored)
      rw [read] at decoded
      cases decoded
      exact or_eq_some_iff.mpr (.inl (encoded ▸ stored))

end

end State

end RChain.Radix
