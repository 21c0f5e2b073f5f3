import RChain.RSpace.Internal

/-!
# Row codecs

Source: `rspace/src/serializers/scodec_serialize.rs`.

A row of data, continuations or joins is written as a sequence of byte vectors in
`veccmp` order, so a decoded row is the row sorted by encoding. Each join is itself
sorted by the encoding of its channels. Counts are cut to 32 bits, lengths to 64 and
peeks to 8; the round trips hold for rows that fit. Reading past the end of a vector
or an element that does not decode is a failed read.
-/

namespace RChain.TupleSpace

open BitCodec List

variable {C P A K Hash : Type}

def writeSizeHead (bytes : List Byte) : List Bool :=
  writeBits 64 bytes.length ++ writeBytes bytes

def readSizeHead : Reader (List Byte) := do
  let length ← readBits 64
  readBytes length

def encodeProduce (blake : Blake2b256 Hash) (produce : Produce Hash) : List Bool :=
  writeBytes (blake.asBytes produce.channelsHash) ++
    (writeBytes (blake.asBytes produce.hash) ++ [produce.persistent])

def encodeConsume (blake : Blake2b256 Hash) (consume : Consume Hash) : List Bool :=
  writeBits 32 consume.channelsHashes.length ++
    (consume.channelsHashes.flatMap (fun hash => writeBytes (blake.asBytes hash)) ++
      (writeBytes (blake.asBytes consume.hash) ++ [consume.persistent]))

variable (config : Config C P A K Hash)

def encodeDatum (datum : Datum A Hash) : List Bool :=
  writeSizeHead (config.data.encode datum.a) ++
    ([datum.persist] ++ encodeProduce config.blake datum.source)

def encodeWaitingContinuation (wc : WaitingContinuation P K Hash) : List Bool :=
  writeBits 32 wc.patterns.length ++
    (wc.patterns.flatMap (fun pattern => writeSizeHead (config.patterns.encode pattern)) ++
      (writeSizeHead (config.continuations.encode wc.continuation) ++
        ([wc.persist] ++
          (writeBits 32 wc.peeks.elements.length ++
            (wc.peeks.elements.flatMap (writeBits 8) ++ encodeConsume config.blake wc.source)))))

def readHash (blake : Blake2b256 Hash) : Reader Hash := fun bits =>
  (blake.fromBytes (wholeBytes bits)).map fun read =>
    (read.1, bits.drop (8 * ((wholeBytes bits).length - read.2.length)))

def readProduce (blake : Blake2b256 Hash) : Reader (Produce Hash) := do
  let channelsHash ← readHash blake
  let hash ← readHash blake
  let persistent ← readBit
  pure ⟨channelsHash, hash, persistent⟩

def readConsume (blake : Blake2b256 Hash) : Reader (Consume Hash) := do
  let count ← readBits 32
  let channelsHashes ← readMany (readHash blake) count
  let hash ← readHash blake
  let persistent ← readBit
  pure ⟨channelsHashes, hash, persistent⟩

def readItem {Item : Type} (serialize : Serialize Item) : Reader Item := do
  let bytes ← readSizeHead
  StateT.lift (serialize.decode bytes)

def readDatum : Reader (Datum A Hash) := do
  let a ← readItem config.data
  let persist ← readBit
  let source ← readProduce config.blake
  pure ⟨a, persist, source⟩

/-- Collecting numbers into a `BTreeSet`. -/
def IndexSet.ofList (elements : List Nat) : IndexSet where
  elements := elements.dedup.insertionSort (· ≤ ·)
  sorted := by
    have nodup : (elements.dedup.insertionSort (· ≤ ·)).Nodup :=
      (List.perm_insertionSort _ _).nodup_iff.mpr (List.nodup_dedup elements)
    have ordered := List.pairwise_insertionSort (fun left right : Nat => left ≤ right)
      elements.dedup
    exact (ordered.and nodup).imp fun both => lt_of_le_of_ne both.1 both.2

def readWaitingContinuation : Reader (WaitingContinuation P K Hash) := do
  let patternCount ← readBits 32
  let patterns ← readMany (readItem config.patterns) patternCount
  let continuation ← readItem config.continuations
  let persist ← readBit
  let peekCount ← readBits 32
  let peeks ← readMany (readBits 8) peekCount
  let source ← readConsume config.blake
  pure ⟨patterns, continuation, persist, IndexSet.ofList peeks, source⟩

def encodeDatumBytes (datum : Datum A Hash) : List Byte :=
  finish (encodeDatum config datum)

def encodeContinuationBytes (wc : WaitingContinuation P K Hash) : List Byte :=
  finish (encodeWaitingContinuation config wc)

def encodeJoin (join : List C) : List Byte :=
  encodeSeqByteVectors (toOrderedByteVectors config.channels join)

/-- A row: the elements encoded, in `veccmp` order. -/
def encodeRow {Item : Type} (encode : Item → List Byte) (row : List Item) : List Byte :=
  encodeSeqByteVectors (sortByKey vecKey (row.map encode))

def encodeDatums (datums : List (Datum A Hash)) : List Byte :=
  encodeRow (encodeDatumBytes config) datums

def encodeContinuations (konts : List (WaitingContinuation P K Hash)) : List Byte :=
  encodeRow (encodeContinuationBytes config) konts

def encodeJoins (joins : List (List C)) : List Byte :=
  encodeRow (encodeJoin config) joins

def decodeSeqByteVectors (bytes : List Byte) : Option (List (List Byte)) :=
  StateT.run' (do
    let count ← readBits 32
    readMany readSizeHead count) (writeBytes bytes)

def decodeRow {Item : Type} (decode : List Byte → Option Item) (bytes : List Byte) :
    Option (List Item) := do
  let elements ← decodeSeqByteVectors bytes
  elements.mapM decode

def decodeDatums : List Byte → Option (List (Datum A Hash)) :=
  decodeRow fun bytes => StateT.run' (readDatum config) (writeBytes bytes)

def decodeContinuations : List Byte → Option (List (WaitingContinuation P K Hash)) :=
  decodeRow fun bytes => StateT.run' (readWaitingContinuation config) (writeBytes bytes)

def decodeJoins : List Byte → Option (List (List C)) :=
  decodeRow (decodeRow config.channels.decode)

section RoundTrips

theorem reads_size_head {bytes : List Byte} (fits : bytes.length < 2 ^ 64) :
    Reads readSizeHead (writeSizeHead bytes) bytes :=
  reads_bind (reads_bits fits) (reads_bytes bytes)

variable {blake : Blake2b256 Hash} {Item : Type} {config : Config C P A K Hash} {Image : Type}

theorem reads_hash (ideal : blake.Ideal) (hash : Hash) :
    Reads (readHash blake) (writeBytes (blake.asBytes hash)) hash := by
  intro rest
  have used : 8 * ((blake.asBytes hash ++ wholeBytes rest).length - (wholeBytes rest).length) =
      (writeBytes (blake.asBytes hash)).length := by
    rw [length_append, Nat.add_sub_cancel, write_bytes_length]
  rw [readHash, whole_bytes_append, ideal.read_back, Option.map_some, used, drop_left]

theorem reads_produce (ideal : blake.Ideal) (produce : Produce Hash) :
    Reads (readProduce blake) (encodeProduce blake produce) produce := by
  apply reads_bind (reads_hash ideal produce.channelsHash)
  apply reads_bind (reads_hash ideal produce.hash)
  exact reads_map (Produce.mk produce.channelsHash produce.hash) (reads_bit produce.persistent)

theorem reads_consume (ideal : blake.Ideal) (consume : Consume Hash)
    (fits : consume.channelsHashes.length < 2 ^ 32) :
    Reads (readConsume blake) (encodeConsume blake consume) consume := by
  apply reads_bind (reads_bits fits)
  apply reads_bind (reads_many (fun hash => writeBytes (blake.asBytes hash))
    consume.channelsHashes fun hash _ => reads_hash ideal hash)
  apply reads_bind (reads_hash ideal consume.hash)
  exact reads_map (Consume.mk consume.channelsHashes consume.hash) (reads_bit consume.persistent)

theorem reads_item {serialize : Serialize Item} (lawful : serialize.Lawful) (item : Item)
    (fits : (serialize.encode item).length < 2 ^ 64) :
    Reads (readItem serialize) (writeSizeHead (serialize.encode item)) item := by
  have decoded : Reads (StateT.lift (serialize.decode (serialize.encode item))) [] item := by
    intro _
    rw [lawful.round_trip]
    rfl
  have read : Reads (readItem serialize) (writeSizeHead (serialize.encode item) ++ []) item :=
    reads_bind (reads_size_head fits) decoded
  rwa [append_nil] at read

/-- The datum is small enough for its length fields. -/
structure Datum.Fits (config : Config C P A K Hash) (datum : Datum A Hash) : Prop where
  value : (config.data.encode datum.a).length < 2 ^ 64
  whole : (encodeDatumBytes config datum).length < 2 ^ 64

/-- The continuation is small enough for its count and length fields. -/
structure WaitingContinuation.Fits (config : Config C P A K Hash)
    (wc : WaitingContinuation P K Hash) : Prop where
  patternCount : wc.patterns.length < 2 ^ 32
  patterns : ∀ pattern ∈ wc.patterns, (config.patterns.encode pattern).length < 2 ^ 64
  continuation : (config.continuations.encode wc.continuation).length < 2 ^ 64
  peeks : ∀ peek ∈ wc.peeks.elements, peek < 2 ^ 8
  channelCount : wc.source.channelsHashes.length < 2 ^ 32
  whole : (encodeContinuationBytes config wc).length < 2 ^ 64

/-- The join is small enough for its count and length fields. -/
structure JoinFits (config : Config C P A K Hash) (join : List C) : Prop where
  count : join.length < 2 ^ 32
  channels : ∀ channel ∈ join, (config.channels.encode channel).length < 2 ^ 64
  whole : (encodeJoin config join).length < 2 ^ 64

theorem reads_datum (lawful : config.Lawful) (datum : Datum A Hash) (fits : datum.Fits config) :
    Reads (readDatum config) (encodeDatum config datum) datum := by
  apply reads_bind (reads_item lawful.data datum.a fits.value)
  apply reads_bind (reads_bit datum.persist)
  exact reads_map (Datum.mk datum.a datum.persist) (reads_produce lawful.blake datum.source)

theorem index_set_of_elements (set : IndexSet) : IndexSet.ofList set.elements = set := by
  have nodup : set.elements.Nodup := set.sorted.imp fun less => ne_of_lt less
  have ordered : set.elements.Pairwise (· ≤ ·) := set.sorted.imp fun less => le_of_lt less
  have same : set.elements.dedup.insertionSort (· ≤ ·) = set.elements := by
    rw [nodup.dedup]
    exact ordered.insertionSort_eq
  cases set
  simp only [IndexSet.ofList, IndexSet.mk.injEq]
  exact same

theorem peek_count_fits (set : IndexSet) (small : ∀ peek ∈ set.elements, peek < 2 ^ 8) :
    set.elements.length < 2 ^ 32 := by
  have nodup : set.elements.Nodup := set.sorted.imp fun less => ne_of_lt less
  have within : set.elements ⊆ List.range (2 ^ 8) := fun peek mem =>
    mem_range.mpr (small peek mem)
  have bound := (subperm_of_subset nodup within).length_le
  rw [length_range] at bound
  omega

theorem reads_waiting_continuation (lawful : config.Lawful) (wc : WaitingContinuation P K Hash)
    (fits : wc.Fits config) :
    Reads (readWaitingContinuation config) (encodeWaitingContinuation config wc) wc := by
  apply reads_bind (reads_bits fits.patternCount)
  apply reads_bind (reads_many (fun pattern => writeSizeHead (config.patterns.encode pattern))
    wc.patterns fun pattern mem => reads_item lawful.patterns pattern (fits.patterns pattern mem))
  apply reads_bind (reads_item lawful.continuations wc.continuation fits.continuation)
  apply reads_bind (reads_bit wc.persist)
  apply reads_bind (reads_bits (peek_count_fits wc.peeks fits.peeks))
  apply reads_bind (reads_many (writeBits 8) wc.peeks.elements fun peek mem =>
    reads_bits (fits.peeks peek mem))
  rw [index_set_of_elements]
  exact reads_map (WaitingContinuation.mk wc.patterns wc.continuation wc.persist wc.peeks)
    (reads_consume lawful.blake wc.source fits.channelCount)

theorem write_seq_byte_vectors (elements : List (List Byte)) :
    writeBytes (encodeSeqByteVectors elements) =
      writeBits 32 elements.length ++ elements.flatMap writeSizeHead := by
  rw [encodeSeqByteVectors, write_bytes_append, write_be_bytes]
  congr 1
  induction elements with
  | nil => rfl
  | cons _ _ ih =>
    rw [flatMap_cons, flatMap_cons, write_bytes_append, write_bytes_append, write_be_bytes, ih]
    rfl

theorem decode_seq_byte_vectors (elements : List (List Byte)) (count : elements.length < 2 ^ 32)
    (fits : ∀ element ∈ elements, element.length < 2 ^ 64) :
    decodeSeqByteVectors (encodeSeqByteVectors elements) = some elements := by
  have read : Reads (do
      let count ← readBits 32
      readMany readSizeHead count)
      (writeBits 32 elements.length ++ elements.flatMap writeSizeHead) elements :=
    reads_bind (reads_bits count)
      (reads_many writeSizeHead elements fun element mem => reads_size_head (fits element mem))
  have whole := read []
  rw [append_nil] at whole
  rw [decodeSeqByteVectors, write_seq_byte_vectors]
  exact congrArg (Option.map Prod.fst) whole

theorem map_sort_by_key {Key : Type} [LinearOrder Key] (key : Image → Key) (map : Item → Image)
    (items : List Item) :
    sortByKey key (items.map map) = (sortByKey (fun item => key (map item)) items).map map :=
  (map_insertionSort _ _ map items fun _ _ _ _ => Iff.rfl).symm

theorem map_m_some (decode : Image → Option Item) (encode : Item → Image) (items : List Item)
    (each : ∀ item ∈ items, decode (encode item) = some item) :
    (items.map encode).mapM decode = some items := by
  induction items with
  | nil => rfl
  | cons item _ ih =>
    have tail := ih fun other mem => each other (mem_cons_of_mem _ mem)
    rw [map_cons, mapM_cons, each item mem_cons_self, tail]
    rfl

theorem encode_row_perm (encode : Item → List Byte) {row other : List Item} (perm : row.Perm other) :
    encodeRow encode row = encodeRow encode other := by
  unfold encodeRow
  rw [sort_eq_of_perm vecKey (perm.map encode) fun _ _ _ _ same => vec_key_injective same]

theorem decode_row_encode {encode : Item → List Byte} {decode : List Byte → Option Item}
    (row : List Item) (count : row.length < 2 ^ 32)
    (fits : ∀ item ∈ row, (encode item).length < 2 ^ 64)
    (each : ∀ item ∈ row, decode (encode item) = some item) :
    decodeRow decode (encodeRow encode row) =
      some (sortByKey (fun item => vecKey (encode item)) row) := by
  have perm := sort_by_key_perm (fun item => vecKey (encode item)) row
  rw [decodeRow, encodeRow, map_sort_by_key, decode_seq_byte_vectors]
  · apply map_m_some
    intro item mem
    exact each item (perm.mem_iff.mp mem)
  · rwa [length_map, perm.length_eq]
  · intro _ mem
    rcases mem_map.mp mem with ⟨item, listed, same⟩
    rw [← same]
    exact fits item (perm.mem_iff.mp listed)

theorem run_finished {Value : Type} {reader : Reader Value} {bits : List Bool} {value : Value}
    (read : Reads reader bits value) : StateT.run' reader (writeBytes (finish bits)) = some value := by
  rcases read_finish read with ⟨_, same⟩
  exact congrArg (Option.map Prod.fst) same

theorem decode_datums_encode (lawful : config.Lawful) (row : List (Datum A Hash))
    (count : row.length < 2 ^ 32) (fits : ∀ datum ∈ row, datum.Fits config) :
    decodeDatums config (encodeDatums config row) =
      some (sortByKey (fun datum => vecKey (encodeDatumBytes config datum)) row) := by
  apply decode_row_encode row count
  · exact fun datum mem => (fits datum mem).whole
  · exact fun datum mem => run_finished (reads_datum lawful datum (fits datum mem))

theorem decode_continuations_encode (lawful : config.Lawful)
    (row : List (WaitingContinuation P K Hash)) (count : row.length < 2 ^ 32)
    (fits : ∀ wc ∈ row, wc.Fits config) :
    decodeContinuations config (encodeContinuations config row) =
      some (sortByKey (fun wc => vecKey (encodeContinuationBytes config wc)) row) := by
  apply decode_row_encode row count
  · exact fun wc mem => (fits wc mem).whole
  · exact fun wc mem => run_finished (reads_waiting_continuation lawful wc (fits wc mem))

/-- The order the channels of a join have after a round trip. -/
def channelOrder (config : Config C P A K Hash) (join : List C) : List C :=
  sortByKey (fun channel => vecKey (config.channels.encode channel)) join

theorem decode_joins_encode (lawful : config.Lawful) (row : List (List C))
    (count : row.length < 2 ^ 32) (fits : ∀ join ∈ row, JoinFits config join)
    (ordered : ∀ join ∈ row, channelOrder config join = join) :
    decodeJoins config (encodeJoins config row) =
      some (sortByKey (fun join => vecKey (encodeJoin config join)) row) := by
  apply decode_row_encode row count
  · exact fun join mem => (fits join mem).whole
  · intro join mem
    have decoded := decode_row_encode join (fits join mem).count (fits join mem).channels
      fun channel _ => lawful.channels.round_trip channel
    exact decoded.trans (congrArg some (ordered join mem))

end RoundTrips

end RChain.TupleSpace
