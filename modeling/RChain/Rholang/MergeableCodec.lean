import RChain.RSpace.Export

/-!
# The store of mergeable channels

Source: `encode_mergeable_key`, `encode_deploy_mergeable_data_seq` and
`decode_deploy_mergeable_data_seq` of `rholang/src/merging.rs`; `get` and `put` of the mergeable
store in `casper/src/runtime_manager.rs`.

The reader goes over the bits of the bytes; it fails in one way only, at the end of the input. Counts
are written in 16 bits: what does not fit is cut off.
-/

namespace RChain.Rholang

open BitCodec Radix List

structure NumberChannel where
  hash : Hash32
  diff : Int64

structure DeployMergeableData where
  channels : List NumberChannel

/-- `((n << 1) ^ (n >> 63)) as u64`. -/
def zigzagEncode (n : Int64) : UInt64 := ((n <<< 1) ^^^ (n >>> 63)).toUInt64

/-- The byte pushed by the loop, `(n as u8 & 0x7f) | 0x80`, is `128 + n % 128`. -/
def varintEncode (n : Nat) : List Byte :=
  if 128 ≤ n then Fin.ofNat 256 (128 + n % 128) :: varintEncode (n / 128) else [Fin.ofNat 256 n]

def vlongEncode (n : Int64) : List Byte := varintEncode (zigzagEncode n).toNat

def uint16Be (n : Nat) : List Byte := toBeBytes 2 n

def int64Be (n : Int64) : List Byte := toBeBytes 8 n.toUInt64.toNat

def varSizeU16 (bytes : List Byte) : List Byte := uint16Be bytes.length ++ bytes

def encodeMergeableKey (stateHash : Hash32) (creator : List Byte) (seqNum : Int64) : List Byte :=
  varSizeU16 stateHash.bytes ++ varSizeU16 creator ++ vlongEncode seqNum

def encodeNumberChannel (ch : NumberChannel) : List Byte := ch.hash.bytes ++ int64Be ch.diff

def encodeDeployMergeableData (data : DeployMergeableData) : List Byte :=
  uint16Be data.channels.length ++ data.channels.flatMap encodeNumberChannel

def encodeDeployMergeableDataSeq (seq : List DeployMergeableData) : List Byte :=
  uint16Be seq.length ++ seq.flatMap encodeDeployMergeableData

def readU16 : Reader Nat := readBits 16

def readI64 : Reader Int64 := do
  let value ← readBits 64
  pure (UInt64.ofNat value).toInt64

def readHash32 : Reader Hash32 := do
  let bytes ← readBytes 32
  StateT.lift (Hash32.fromByteArray bytes)

def readNumberChannel : Reader NumberChannel := do
  let hash ← readHash32
  let diff ← readI64
  pure ⟨hash, diff⟩

def readDeployMergeableData : Reader DeployMergeableData := do
  let channelCount ← readU16
  let channels ← readMany readNumberChannel channelCount
  pure ⟨channels⟩

def decodeDeployMergeableDataSeq (bytes : List Byte) : Except String (List DeployMergeableData) :=
  match (readU16 >>= readMany readDeployMergeableData) (writeBytes bytes) with
  | some (seq, _) => .ok seq
  | none => .error "mergeable data: unexpected end of input"

section Store

/-- The block a record of the mergeable store belongs to. -/
structure MergeableKey where
  stateHash : Hash32
  creator : List Byte
  seqNum : Int64

def MergeableKey.encode (key : MergeableKey) : List Byte :=
  encodeMergeableKey key.stateHash key.creator key.seqNum

def putMergeable (store : List Byte → Option (List Byte)) (key : MergeableKey)
    (seq : List DeployMergeableData) : List Byte → Option (List Byte) :=
  Function.update store key.encode (some (encodeDeployMergeableDataSeq seq))

def getMergeable (store : List Byte → Option (List Byte)) (key : MergeableKey) :
    Option (Except String (List DeployMergeableData)) :=
  (store key.encode).map decodeDeployMergeableDataSeq

end Store

section RoundTrip

theorem reads_u16 {n : Nat} (fits : n < 2 ^ 16) : Reads readU16 (writeBytes (uint16Be n)) n := by
  rw [uint16Be, write_be_bytes]
  exact reads_bits fits

theorem reads_i64 (n : Int64) : Reads readI64 (writeBytes (int64Be n)) n := by
  have bound : n.toUInt64.toNat < 2 ^ 64 := n.toUInt64.toNat_lt
  have read := reads_map (fun value => (UInt64.ofNat value).toInt64) (reads_bits bound)
  rw [UInt64.ofNat_toNat, Int64.toInt64_toUInt64] at read
  rwa [int64Be, write_be_bytes]

theorem reads_hash (hash : Hash32) : Reads readHash32 (writeBytes hash.bytes) hash := by
  have bytes := reads_bytes hash.bytes
  have made : Reads (StateT.lift (Hash32.fromByteArray hash.bytes) : Reader Hash32) [] hash := by
    rw [Hash32.fromByteArray, dif_pos hash.size]
    exact reads_pure hash
  rw [hash.size] at bytes
  have read : Reads readHash32 (writeBytes hash.bytes ++ []) hash := reads_bind bytes made
  rwa [append_nil] at read

theorem reads_number_channel (ch : NumberChannel) :
    Reads readNumberChannel (writeBytes (encodeNumberChannel ch)) ch := by
  rw [encodeNumberChannel, write_bytes_append]
  exact reads_bind (reads_hash ch.hash) (reads_map _ (reads_i64 ch.diff))

/-- Every count of the list is one that 16 bits hold. -/
def CountsFit (seq : List DeployMergeableData) : Prop :=
  seq.length < 2 ^ 16 ∧ ∀ data ∈ seq, data.channels.length < 2 ^ 16

theorem write_bytes_flat {Value : Type} (write : Value → List Byte) (values : List Value) :
    writeBytes (values.flatMap write) = values.flatMap fun value => writeBytes (write value) := by
  rw [writeBytes, flatMap_assoc]
  rfl

theorem reads_deploy_data {data : DeployMergeableData} (fits : data.channels.length < 2 ^ 16) :
    Reads readDeployMergeableData (writeBytes (encodeDeployMergeableData data)) data := by
  rw [encodeDeployMergeableData, write_bytes_append, write_bytes_flat]
  exact reads_bind (reads_u16 fits) (reads_map _
    (reads_many _ data.channels fun ch _ => reads_number_channel ch))

theorem decode_encoded {seq : List DeployMergeableData} (fits : CountsFit seq) :
    decodeDeployMergeableDataSeq (encodeDeployMergeableDataSeq seq) = .ok seq := by
  have read : Reads (readU16 >>= readMany readDeployMergeableData)
      (writeBytes (encodeDeployMergeableDataSeq seq)) seq := by
    rw [encodeDeployMergeableDataSeq, write_bytes_append, write_bytes_flat]
    exact reads_bind (reads_u16 fits.1)
      (reads_many _ seq fun data mem => reads_deploy_data (fits.2 data mem))
  have whole := read []
  rw [append_nil] at whole
  rw [decodeDeployMergeableDataSeq, whole]

/-- What is decoded has the counts that were read. -/
theorem decoded_fits {bytes : List Byte} {seq : List DeployMergeableData}
    (decoded : decodeDeployMergeableDataSeq bytes = .ok seq) : CountsFit seq := by
  unfold decodeDeployMergeableDataSeq at decoded
  split at decoded
  · rename_i found
    cases decoded
    obtain ⟨_, _, counted, read⟩ := read_bind found
    refine ⟨read_many_length read ▸ read_bits_lt counted, fun data mem => ?_⟩
    obtain ⟨_, _, read⟩ := mem_read_many read mem
    obtain ⟨_, _, counted, read⟩ := read_bind read
    obtain ⟨_, _, read, made⟩ := read_bind read
    cases made
    exact read_many_length read ▸ read_bits_lt counted
  · cases decoded

end RoundTrip

section Keys

theorem varint_length {n k : Nat} (small : n < 128 ^ (k + 1)) :
    0 < (varintEncode n).length ∧ (varintEncode n).length ≤ k + 1 := by
  induction k generalizing n with
  | zero =>
    rw [varintEncode, if_neg (by omega)]
    exact ⟨Nat.one_pos, le_rfl⟩
  | succ k ih =>
    rw [varintEncode]
    split_ifs
    · have shorter := ih (Nat.div_lt_of_lt_mul (Nat.pow_succ' ▸ small) : n / 128 < 128 ^ (k + 1))
      rw [length_cons]
      omega
    · exact ⟨Nat.one_pos, Nat.succ_le_succ (Nat.zero_le _)⟩

theorem varint_injective {n m : Nat} (same : varintEncode n = varintEncode m) : n = m := by
  induction n using Nat.strongRecOn generalizing m with
  | ind n ih =>
    rw [varintEncode, varintEncode.eq_def m] at same
    split_ifs at same with left right right
    · obtain ⟨low, high⟩ := cons_eq_cons.mp same
      have high := ih _ (by omega) high
      simp only [Fin.ext_iff, Fin.ofNat] at low
      omega
    all_goals
      have low := (cons_eq_cons.mp same).1
      simp only [Fin.ext_iff, Fin.ofNat] at low
      omega

theorem zigzag_injective {n m : Int64} (same : zigzagEncode n = zigzagEncode m) : n = m := by
  have bits (i : Nat) : ((n.toBitVec <<< 1) ^^^ n.toBitVec.sshiftRight 63).getLsbD i =
      ((m.toBitVec <<< 1) ^^^ m.toBitVec.sshiftRight 63).getLsbD i :=
    congrArg (fun z => z.toBitVec.getLsbD i) same
  have sign : n.toBitVec.msb = m.toBitVec.msb := by
    simpa [BitVec.getElem_sshiftRight, BitVec.msb_eq_getLsbD_last] using bits 0
  refine Int64.toBitVec_inj.mp (BitVec.eq_of_getLsbD_eq fun i inside => ?_)
  rcases Nat.lt_or_ge i 63 with low | high
  · have above : i + 1 < 64 ∧ ¬ 63 + (i + 1) < 64 := by omega
    simpa [BitVec.getElem_sshiftRight, above, inside, sign] using bits (i + 1)
  · rw [show i = 64 - 1 by omega, ← BitVec.msb_eq_getLsbD_last, ← BitVec.msb_eq_getLsbD_last, sign]

theorem uint16_congr {n m : Nat} (same : uint16Be n = uint16Be m) : n % 65536 = m % 65536 := by
  simp only [uint16Be, toBeBytes, cons_eq_cons, Fin.ext_iff, Fin.ofNat] at same
  omega

/-- The length of a creator is cut to 16 bits, but the number behind it has at most ten bytes. -/
theorem mergeable_key_injective : Function.Injective MergeableKey.encode := by
  rintro ⟨hash, creator, n⟩ ⟨hash', creator', n'⟩ same
  simp only [MergeableKey.encode, encodeMergeableKey, varSizeU16, append_assoc] at same
  obtain ⟨_, same⟩ := append_inj same rfl
  obtain ⟨sameHash, same⟩ := append_inj same (hash.size.trans hash'.size.symm)
  obtain ⟨sizes, same⟩ := append_inj same rfl
  have cut := uint16_congr sizes
  have total := congrArg length same
  have bound := varint_length (k := 9) ((zigzagEncode n).toNat_lt.trans (by decide))
  have bound' := varint_length (k := 9) ((zigzagEncode n').toNat_lt.trans (by decide))
  simp only [length_append, vlongEncode] at total
  obtain ⟨rfl, sameNumber⟩ := append_inj same (by omega)
  cases Hash32.bytes_injective sameHash
  rw [zigzag_injective (UInt64.toNat_inj.mp (varint_injective sameNumber))]

end Keys

/-- A record of the mergeable store is read back for its block, and no other block's reading changes,
exactly when its counts fit. -/
theorem mergeable_round_trip_iff (store : List Byte → Option (List Byte)) (key : MergeableKey)
    (seq : List DeployMergeableData) :
    (decodeDeployMergeableDataSeq (encodeDeployMergeableDataSeq seq) = .ok seq ∧
      Function.Injective MergeableKey.encode ∧
      getMergeable (putMergeable store key seq) key = some (.ok seq) ∧
      ∀ other ≠ key, getMergeable (putMergeable store key seq) other = getMergeable store other) ↔
    CountsFit seq := by
  constructor
  · intro holds
    exact decoded_fits holds.1
  · intro fits
    refine ⟨decode_encoded fits, mergeable_key_injective, ?_, fun other different => ?_⟩
    · rw [getMergeable, putMergeable, Function.update_self, Option.map_some, decode_encoded fits]
    · rw [getMergeable, putMergeable, Function.update_of_ne (mergeable_key_injective.ne different)]
      rfl

/-- The count of 65536 deploys is written as zero. -/
theorem many_deploys_lost :
    decodeDeployMergeableDataSeq (encodeDeployMergeableDataSeq (replicate 65536 ⟨[]⟩)) = .ok [] := by
  rw [decodeDeployMergeableDataSeq, encodeDeployMergeableDataSeq, length_replicate,
    write_bytes_append]
  rfl

end RChain.Rholang
