import RChain.RSpace.Serializers

/-!
# Round trips of stored rows

Which rows of data and of continuations come back from their encoding. A vector of bytes has at
most `isize::MAX` elements, so a length always fits into 64 bits. The 32 bits of a count and the
8 bits of a peeked index can be too few: what does not fit is cut off without an error.
-/

namespace RChain.TupleSpace

open BitCodec List Option

variable {C P A K Hash : Type} [LinearOrder Hash]

/-- The bytes that a vector of the code can hold. -/
def InMemory (bytes : List Byte) : Prop := bytes.length < 2 ^ 63

/-- The continuation is inside the counts of the format and the range of a peeked index. -/
structure WaitingContinuation.Countable (wc : WaitingContinuation P K Hash) : Prop where
  patterns : wc.patterns.length < 2 ^ 32
  channels : wc.source.channelsHashes.length < 2 ^ 32
  peeks : ∀ peek ∈ wc.peeks.elements, peek < 2 ^ 8

/-- A row comes back from its encoding up to the order, and its order does not show. -/
structure RowRoundTrip {Item : Type} (encode : List Item → List Byte)
    (decode : List Byte → Option (List Item)) (row : List Item) : Prop where
  decoded : ∃ items, decode (encode row) = some items ∧ items.Perm row
  canonical : ∀ other : List Item, other.Perm row → encode other = encode row

section Decoded

variable {config : Config C P A K Hash} {Item Image : Type} {decode : Image → Option Item}
  {images : List Image} {items : List Item} {item : Item} {bytes : List Byte}
  {bits rest : List Bool}

theorem mem_map_m (mapped : images.mapM decode = some items) (mem : item ∈ items) :
    ∃ image, decode image = some item := by
  induction images generalizing items with
  | nil =>
    cases mapped
    cases mem
  | cons image _ ih =>
    rw [mapM_cons] at mapped
    obtain ⟨_, first, rest⟩ := bind_eq_some_iff.mp mapped
    obtain ⟨_, others, done⟩ := bind_eq_some_iff.mp rest
    cases done
    rcases mem_cons.mp mem with rfl | later
    · exact ⟨image, first⟩
    · exact ih others later

theorem length_map_m (mapped : images.mapM decode = some items) : items.length = images.length := by
  induction images generalizing items with
  | nil =>
    cases mapped
    rfl
  | cons _ _ ih =>
    rw [mapM_cons] at mapped
    obtain ⟨_, _, rest⟩ := bind_eq_some_iff.mp mapped
    obtain ⟨_, others, done⟩ := bind_eq_some_iff.mp rest
    cases done
    rw [length_cons, length_cons, ih others]

theorem decoded_row_short {decode : List Byte → Option Item}
    (decoded : decodeRow decode bytes = some items) :
    items.length < 2 ^ 32 := by
  obtain ⟨_, split, mapped⟩ := bind_eq_some_iff.mp decoded
  obtain ⟨⟨_, _⟩, read, same⟩ := map_eq_some_iff.mp split
  obtain ⟨_, _, counted, many⟩ := read_bind read
  cases same
  rw [length_map_m mapped, read_many_length many]
  exact read_bits_lt counted

omit [LinearOrder Hash] in
theorem read_consume_short {blake : Blake2b256 Hash} {consume : Consume Hash}
    (read : readConsume blake bits = some (consume, rest)) :
    consume.channelsHashes.length < 2 ^ 32 := by
  obtain ⟨_, _, counted, read⟩ := read_bind read
  obtain ⟨_, _, many, read⟩ := read_bind read
  obtain ⟨_, _, _, read⟩ := read_bind read
  obtain ⟨_, _, _, read⟩ := read_bind read
  rw [read_pure read, read_many_length many]
  exact read_bits_lt counted

omit [LinearOrder Hash] in
theorem read_continuation_countable {wc : WaitingContinuation P K Hash}
    (read : readWaitingContinuation config bits = some (wc, rest)) : wc.Countable := by
  obtain ⟨_, _, patternsCounted, read⟩ := read_bind read
  obtain ⟨_, _, manyPatterns, read⟩ := read_bind read
  obtain ⟨_, _, _, read⟩ := read_bind read
  obtain ⟨_, _, _, read⟩ := read_bind read
  obtain ⟨_, _, _, read⟩ := read_bind read
  obtain ⟨_, _, manyPeeks, read⟩ := read_bind read
  obtain ⟨_, _, consume, read⟩ := read_bind read
  rw [read_pure read]
  refine ⟨?_, read_consume_short consume, ?_⟩
  · rw [read_many_length manyPatterns]
    exact read_bits_lt patternsCounted
  · intro _ mem
    obtain ⟨_, _, single⟩ := mem_read_many manyPeeks
      (mem_dedup.mp ((mem_insertionSort _).mp mem))
    exact read_bits_lt single

end Decoded

section Sizes

variable {config : Config C P A K Hash}

theorem length_le_finish (bits : List Bool) : bits.length ≤ 8 * (finish bits).length := by
  obtain ⟨_, same⟩ := write_finish bits
  have lengths := congrArg List.length same
  rw [write_bytes_length, length_append] at lengths
  omega

theorem write_size_head_length (bytes : List Byte) :
    (writeSizeHead bytes).length = 64 + 8 * bytes.length := by
  rw [writeSizeHead, length_append, write_bits_length, write_bytes_length]

omit [LinearOrder Hash] in
theorem datum_fits {datum : Datum A Hash} (held : InMemory (encodeDatumBytes config datum)) :
    datum.Fits config := by
  have whole := length_le_finish (encodeDatum config datum)
  have part : (writeSizeHead (config.data.encode datum.a)).length ≤
      (encodeDatum config datum).length := by
    rw [encodeDatum, length_append]
    omega
  rw [write_size_head_length] at part
  unfold InMemory at held
  unfold encodeDatumBytes at held
  exact ⟨by omega, by unfold encodeDatumBytes; omega⟩

variable {wc : WaitingContinuation P K Hash}

omit [LinearOrder Hash] in
theorem pattern_length_le (config : Config C P A K Hash) {pattern : P}
    (mem : pattern ∈ wc.patterns) :
    8 * (config.patterns.encode pattern).length ≤ (encodeWaitingContinuation config wc).length := by
  have single : (writeSizeHead (config.patterns.encode pattern)).length ≤
      (wc.patterns.flatMap fun other => writeSizeHead (config.patterns.encode other)).length := by
    obtain ⟨_, _, split⟩ := append_of_mem mem
    rw [split, flatMap_append, flatMap_cons, length_append, length_append]
    omega
  rw [write_size_head_length] at single
  rw [encodeWaitingContinuation, length_append, length_append]
  omega

omit [LinearOrder Hash] in
theorem continuation_fits (countable : wc.Countable)
    (held : InMemory (encodeContinuationBytes config wc)) : wc.Fits config := by
  have whole := length_le_finish (encodeWaitingContinuation config wc)
  unfold InMemory encodeContinuationBytes at held
  constructor
  · exact countable.patterns
  · intro _ mem
    have part := pattern_length_le config mem
    omega
  · have part : 8 * (config.continuations.encode wc.continuation).length ≤
        (encodeWaitingContinuation config wc).length := by
      rw [encodeWaitingContinuation, length_append, length_append, length_append,
        write_size_head_length]
      omega
    omega
  · exact countable.peeks
  · exact countable.channels
  · unfold encodeContinuationBytes
    omega

end Sizes

omit [LinearOrder Hash] in
/-- Rows of data and continuations survive their encoding exactly if the rows, and for
continuations the patterns, the channels and the peeked indices, are inside the format. -/
theorem stored_rows_round_trip_iff {config : Config C P A K Hash} (lawful : config.Lawful)
    (datums : List (Datum A Hash)) (konts : List (WaitingContinuation P K Hash))
    (datumsHeld : ∀ datum ∈ datums, InMemory (encodeDatumBytes config datum))
    (kontsHeld : ∀ wc ∈ konts, InMemory (encodeContinuationBytes config wc)) :
    (RowRoundTrip (encodeDatums config) (decodeDatums config) datums ∧
      RowRoundTrip (encodeContinuations config) (decodeContinuations config) konts) ↔
    datums.length < 2 ^ 32 ∧ konts.length < 2 ^ 32 ∧ ∀ wc ∈ konts, wc.Countable := by
  constructor
  · rintro ⟨⟨⟨_, decodedData, permData⟩, _⟩, ⟨_, decoded, perm⟩, _⟩
    refine ⟨permData.length_eq ▸ decoded_row_short decodedData,
      perm.length_eq ▸ decoded_row_short decoded, ?_⟩
    intro _ member
    obtain ⟨_, _, mapped⟩ := bind_eq_some_iff.mp decoded
    obtain ⟨_, read⟩ := mem_map_m mapped (perm.mem_iff.mpr member)
    obtain ⟨⟨_, _⟩, result, same⟩ := map_eq_some_iff.mp read
    cases same
    exact read_continuation_countable result
  · rintro ⟨dataCount, kontCount, countable⟩
    constructor
    · refine ⟨⟨_, decode_datums_encode lawful datums dataCount ?_, sort_by_key_perm _ _⟩, ?_⟩
      · exact fun datum member => datum_fits (datumsHeld datum member)
      · exact fun other perm => encode_row_perm _ perm
    · refine ⟨⟨_, decode_continuations_encode lawful konts kontCount ?_, sort_by_key_perm _ _⟩, ?_⟩
      · exact fun wc member => continuation_fits (countable wc member) (kontsHeld wc member)
      · exact fun other perm => encode_row_perm _ perm

/-- A persistent continuation on one channel that peeks at the given index. -/
def peekAt (index : Nat) : WaitingContinuation Nat Nat (List Byte) where
  patterns := [0]
  continuation := 2
  persist := true
  peeks := ⟨[index], List.pairwise_singleton _ index⟩
  source := Consume.apply naturalConfig [1] [0] 2 true

theorem stored_rows_of_peek : RowRoundTrip (encodeDatums naturalConfig) (decodeDatums naturalConfig)
        [⟨3, false, Produce.apply naturalConfig 1 3 false⟩] ∧
      RowRoundTrip (encodeContinuations naturalConfig) (decodeContinuations naturalConfig)
        [peekAt 255, peekAt 0] := by
  apply (stored_rows_round_trip_iff natural_lawful _ _ ?_ ?_).mpr
  · refine ⟨by decide, by decide, ?_⟩
    intro _ member
    rcases mem_pair.mp member with rfl | rfl
    · exact ⟨by decide, by decide, by decide⟩
    · exact ⟨by decide, by decide, by decide⟩
  · unfold InMemory
    decide +kernel
  · unfold InMemory
    decide +kernel

/-- An index that needs more than eight bits comes back as another one. -/
theorem peek_index_cut_off :
    decodeContinuations naturalConfig (encodeContinuations naturalConfig [peekAt 256]) =
        some [peekAt 0] ∧
      ¬ [peekAt 0].Perm [peekAt 256] := by
  decide +kernel

end RChain.TupleSpace
