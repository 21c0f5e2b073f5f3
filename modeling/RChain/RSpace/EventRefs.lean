import RChain.RSpace.Internal

/-!
# What the references of events tell

The hash of a produce covers its channel, its datum and its persistence. The hash of a consume
covers the channels and the patterns, each sorted on their own, so it tells both up to their
order and not which pattern belongs to which channel.
-/

namespace RChain.TupleSpace

open BitCodec List

variable {C P A K Hash : Type} [LinearOrder Hash] {config : Config C P A K Hash}

theorem to_be_bytes_length (width value : Nat) : (toBeBytes width value).length = width := by
  induction width with
  | zero => rfl
  | succ _ ih => rw [toBeBytes, length_cons, ih]

omit [LinearOrder Hash] in
theorem produce_hash_injective (lawful : config.Lawful) {channel other : C} {data datum : A}
    {persist kept : Bool}
    (same : (Produce.apply config channel data persist).hash =
      (Produce.apply config other datum kept).hash) :
    channel = other ∧ data = datum ∧ persist = kept := by
  have bytes := lawful.blake.create_injective same
  simp only [encodeSeqByteVectors, flatMap_cons, flatMap_nil, append_nil,
    append_assoc, bool8] at bytes
  have tail := (append_inj bytes (by simp [to_be_bytes_length])).2
  have framed := (append_inj tail (by simp [to_be_bytes_length])).2
  have read := lawful.blake.read_back (hashChannel config.blake config.channels channel)
  have first := read (toBeBytes 8 (config.data.encode data).length ++
    (config.data.encode data ++ (toBeBytes 8 1 ++ [if persist then 1 else 0])))
  have second := lawful.blake.read_back (hashChannel config.blake config.channels other)
    (toBeBytes 8 (config.data.encode datum).length ++
      (config.data.encode datum ++ (toBeBytes 8 1 ++ [if kept then 1 else 0])))
  have equal := first.symm.trans ((congrArg config.blake.fromBytes framed).trans second)
  have pair := Prod.ext_iff.mp (Option.some.inj equal)
  have body := (append_inj pair.2 (by simp [to_be_bytes_length])).2
  have parts := append_inj' body (by simp [to_be_bytes_length])
  have flags := (append_inj parts.2 rfl).2
  refine ⟨hash_channel_injective lawful.blake lawful.channels pair.1,
    lawful.data.injective parts.1, ?_⟩
  cases persist <;> cases kept <;> simp_all

theorem be_bytes_injective {width left right : Nat} (leftFits : left < 2 ^ (8 * width))
    (rightFits : right < 2 ^ (8 * width)) (same : toBeBytes width left = toBeBytes width right) :
    left = right := by
  have bits := congrArg writeBytes same
  rw [write_be_bytes, write_be_bytes] at bits
  have first := reads_bits leftFits []
  rw [bits, reads_bits rightFits] at first
  exact (Prod.mk.inj (Option.some.inj first)).1.symm

theorem framed_injective {left right : List (List Byte)}
    (leftFits : ∀ element ∈ left, element.length < 2 ^ 64)
    (rightFits : ∀ element ∈ right, element.length < 2 ^ 64)
    (same : (left.flatMap fun element => toBeBytes 8 element.length ++ element) =
      right.flatMap fun element => toBeBytes 8 element.length ++ element) : left = right := by
  induction left generalizing right with
  | nil =>
    cases right with
    | nil => rfl
    | cons =>
      have lengths := congrArg List.length same
      simp only [flatMap_nil, flatMap_cons, length_append, to_be_bytes_length,
        length_nil] at lengths
      omega
  | cons _ _ ih =>
    cases right with
    | nil =>
      have lengths := congrArg List.length same
      simp [to_be_bytes_length] at lengths
    | cons =>
      rw [forall_mem_cons] at leftFits rightFits
      simp only [flatMap_cons, append_assoc] at same
      have parts := append_inj same (by simp [to_be_bytes_length])
      have length := be_bytes_injective leftFits.1 rightFits.1 parts.1
      have rest := append_inj parts.2 length
      rw [rest.1, ih leftFits.2 rightFits.2 rest.2]

theorem sorted_map_eq_iff {Item Image Key : Type} [LinearOrder Key] {key : Image → Key}
    {map : Item → Image} (keys : Function.Injective key) (images : Function.Injective map)
    (left right : List Item) :
    sortByKey key (left.map map) = sortByKey key (right.map map) ↔ left.Perm right := by
  rw [← map_perm_map_iff images]
  constructor
  · intro same
    exact (sort_by_key_perm key _).symm.trans (same ▸ sort_by_key_perm key _)
  · intro perm
    exact sort_eq_of_perm key perm fun item _ other _ equal => keys equal

/-- The byte vectors that the hash of a consume covers have lengths of 64 bits. -/
structure Consume.Fits (config : Config C P A K Hash) (channels : List C) (patterns : List P)
    (continuation : K) : Prop where
  channels : ∀ channel ∈ channels,
    (config.blake.asBytes (hashChannel config.blake config.channels channel)).length < 2 ^ 64
  patterns : ∀ pattern ∈ patterns, (config.patterns.encode pattern).length < 2 ^ 64
  continuation : (config.continuations.encode continuation).length < 2 ^ 64

def Consume.vectors (config : Config C P A K Hash) (channels : List C) (patterns : List P)
    (continuation : K) (persist : Bool) : List (List Byte) :=
  (hashSeq config.blake config.channels channels).map config.blake.asBytes ++
    toOrderedByteVectors config.patterns patterns ++
    [config.continuations.encode continuation, bool8 persist]

theorem Consume.Fits.vectors {channels : List C} {patterns : List P} {continuation : K}
    (fits : Consume.Fits config channels patterns continuation) (persist : Bool) :
    ∀ vector ∈ Consume.vectors config channels patterns continuation persist,
      vector.length < 2 ^ 64 := by
  intro _ mem
  simp only [Consume.vectors, mem_append, mem_map, mem_cons, not_mem_nil, or_false] at mem
  rcases mem with (⟨_, sorted, rfl⟩ | pattern) | rfl | rfl
  · rw [hashSeq, (sort_by_key_perm id _).mem_iff, mem_map] at sorted
    rcases sorted with ⟨channel, listed, rfl⟩
    exact fits.channels channel listed
  · rw [toOrderedByteVectors, (sort_by_key_perm vecKey _).mem_iff, mem_map] at pattern
    rcases pattern with ⟨pattern, listed, rfl⟩
    exact fits.patterns pattern listed
  · exact fits.continuation
  · exact Nat.lt_of_sub_eq_succ rfl

theorem bool8_injective : Function.Injective bool8 := by decide

/-- References of produces are equal exactly when channel, datum and persistence are. References of
consumes are equal exactly when the channels and the patterns are the same up to their order, and
continuation and persistence are equal. -/
theorem references_tell (lawful : config.Lawful) :
    (∀ (channel other : C) (data datum : A) (persist kept : Bool),
      (Produce.apply config channel data persist).hash =
        (Produce.apply config other datum kept).hash ↔
      channel = other ∧ data = datum ∧ persist = kept) ∧
    ∀ (channels others : List C) (patterns wanted : List P) (continuation body : K)
      (persist kept : Bool), channels.length = patterns.length → others.length = wanted.length →
      Consume.Fits config channels patterns continuation → Consume.Fits config others wanted body →
      ((Consume.apply config channels patterns continuation persist).hash =
          (Consume.apply config others wanted body kept).hash ↔
        channels.Perm others ∧ patterns.Perm wanted ∧ continuation = body ∧ persist = kept) := by
  constructor
  · intro _ _ _ _ _ _
    constructor
    · exact produce_hash_injective lawful
    · rintro ⟨rfl, rfl, rfl⟩
      rfl
  · intro channels others patterns wanted _ _ persist kept _ _ fits fitsToo
    have hashes := sorted_map_eq_iff Function.injective_id
      (hash_channel_injective lawful.blake lawful.channels) channels others
    have encoded := sorted_map_eq_iff vec_key_injective lawful.patterns.injective patterns wanted
    constructor
    · intro same
      have bytes := lawful.blake.create_injective same
      have framed := (append_inj bytes (by simp [to_be_bytes_length])).2
      have vectors := framed_injective (fits.vectors persist) (fitsToo.vectors kept) framed
      have lengths := congrArg List.length vectors
      simp only [Consume.vectors, hashSeq, toOrderedByteVectors, length_append, length_map,
        (sort_by_key_perm _ _).length_eq, length_cons, length_nil] at lengths
      have parts := append_inj' vectors rfl
      have halves := append_inj parts.1 (by
        simp only [hashSeq, length_map, (sort_by_key_perm _ _).length_eq]
        omega)
      have last := List.cons.inj parts.2
      exact ⟨hashes.mp ((as_bytes_injective lawful.blake).list_map halves.1),
        encoded.mp halves.2, lawful.continuations.injective last.1,
        bool8_injective (List.cons.inj last.2).1⟩
    · rintro ⟨permuted, rearranged, rfl, rfl⟩
      simp only [Consume.apply, hashConsume, hashSeq, toOrderedByteVectors, hashes.mpr permuted,
        encoded.mpr rearranged]

/-- A join is known by its reference in either order. -/
theorem reordered_join_one_reference :
    Consume.Fits naturalConfig [1, 2] [3, 4] 0 ∧ Consume.Fits naturalConfig [2, 1] [4, 3] 0 ∧
      (Consume.apply naturalConfig [1, 2] [3, 4] 0 false).hash =
        (Consume.apply naturalConfig [2, 1] [4, 3] 0 false).hash := by
  have fits : Consume.Fits naturalConfig [1, 2] [3, 4] 0 := ⟨by decide, by decide, by decide⟩
  have fitsToo : Consume.Fits naturalConfig [2, 1] [4, 3] 0 := ⟨by decide, by decide, by decide⟩
  exact ⟨fits, fitsToo, ((references_tell natural_lawful).2 [1, 2] [2, 1] [3, 4] [4, 3] 0 0 false
    false rfl rfl fits fitsToo).mpr ⟨List.Perm.swap 2 1 [], List.Perm.swap 4 3 [], rfl, rfl⟩⟩

/-- Two consumes on the channels 1 and 2 with the patterns of these exchanged have one
reference. -/
theorem exchanged_patterns_one_reference :
    (Consume.apply naturalConfig [1, 2] [3, 4] 0 false).hash =
        (Consume.apply naturalConfig [1, 2] [4, 3] 0 false).hash ∧
      ¬ ([1, 2].zip [3, 4]).Perm ([1, 2].zip [4, 3]) := by
  decide

end RChain.TupleSpace
