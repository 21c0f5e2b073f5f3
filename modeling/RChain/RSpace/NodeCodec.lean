import RChain.Lib.Blocks
import RChain.Lib.Steps
import RChain.RSpace.RadixStore

/-!
# The bytes of a radix node

Source: `encode`, `SerializedNode::try_from` and `decode` of `rspace/src/history/radix_tree.rs`.

The two loops over the bytes of a node, with their positions and with hashes of 32 bytes. An
index or a slice out of bounds is a panic, and a panic is `none`; so is a loop that does not end
within as many rounds as there are bytes. Both loops do the same as the reader of records that
the model of the tree uses.
-/

namespace RChain.Radix

open BitCodec Blocks Sorted TupleSpace List Function
open Option (bind_some)

/-- A `Blake2b256Hash`. -/
structure Hash32 where
  bytes : List Byte
  size : bytes.length = 32
deriving DecidableEq

/-- `from_byte_array`, which panics on another length. -/
def Hash32.fromByteArray (bytes : List Byte) : Option Hash32 :=
  if size : bytes.length = 32 then some ⟨bytes, size⟩ else none

theorem take_hash_size {bytes : List Byte} (enough : 32 ≤ bytes.length) :
    (bytes.take 32).length = 32 := by
  rw [length_take]
  omega

def zeroHash : Hash32 := ⟨List.replicate 32 0, List.length_replicate⟩

/-- Hashes of 32 bytes, read from the front of a byte string. -/
def fixedHash (create : List Byte → Hash32) : Blake2b256 Hash32 where
  create := create
  asBytes := Hash32.bytes
  fromBytes bytes :=
    if enough : 32 ≤ bytes.length then
      some (⟨bytes.take 32, take_hash_size enough⟩, bytes.drop 32)
    else none

/-- The loop of `try_from`, which remembers the indices it has seen. -/
def checkFrom (bytes : List Byte) : Nat → Nat → List Byte → Option (Except String Unit)
  | 0, pos, _ => if pos < bytes.length then none else some (.ok ())
  | fuel + 1, pos, seen =>
    if ¬ pos < bytes.length then some (.ok ())
    else if bytes.length < pos + 2 then some (.error "truncated radix node header")
    else
      (bytes[pos]?).bind fun idx =>
        if seen.contains idx then some (.error s!"duplicate item index {idx.val}")
        else
          (bytes[pos + 1]?).bind fun second =>
            let valStart := pos + 2 + second.val % 128
            if bytes.length < valStart then some (.error "truncated radix node prefix")
            else if bytes.length < valStart + 32 then
              some (.error "truncated radix node value")
            else checkFrom bytes fuel (valStart + 32) (idx :: seen)

/-- Bytes that `try_from` has accepted. -/
structure SerializedNode where
  bytes : List Byte
  valid : checkFrom bytes bytes.length 0 [] = some (.ok ())

def SerializedNode.tryFrom (bytes : List Byte) : Option (Except String SerializedNode) :=
  match result : checkFrom bytes bytes.length 0 [] with
  | none => none
  | some (.error message) => some (.error message)
  | some (.ok ()) => some (.ok ⟨bytes, result⟩)

/-- The loop of `decode`. -/
def decodeFrom (bytes : List Byte) : Nat → Nat → Node Hash32 → Option (Node Hash32)
  | 0, pos, result => if pos < bytes.length then none else some result
  | fuel + 1, pos, result =>
    if ¬ pos < bytes.length then some result
    else
      (bytes[pos]?).bind fun idx =>
        (bytes[pos + 1]?).bind fun second =>
          let valStart := pos + 2 + second.val % 128
          (slice bytes (pos + 2) valStart).bind fun segment =>
            ((slice bytes valStart (valStart + 32)).bind Hash32.fromByteArray).bind fun val =>
              decodeFrom bytes fuel (valStart + 32) (Function.update result idx
                (if second.val < 128 then .leaf segment val else .nodePtr segment val))

def SerializedNode.decode (node : SerializedNode) : Option (Node Hash32) :=
  decodeFrom node.bytes node.bytes.length 0 emptyNode

section Loops

variable {bytes : List Byte} (create : List Byte → Hash32)

theorem fixed_reads_back : ReadsBack (fixedHash create) := by
  intro hash rest
  have enough : 32 ≤ (hash.bytes ++ rest).length := by
    rw [length_append, hash.size]
    omega
  have front : (hash.bytes ++ rest).take 32 = hash.bytes := take_left' hash.size
  have back : (hash.bytes ++ rest).drop 32 = rest := drop_left' hash.size
  simp only [fixedHash, dif_pos enough, front, back]

variable {pos : Nat}

theorem drop_at (header : pos + 2 ≤ bytes.length) :
    ∃ idx second, bytes[pos]? = some idx ∧ bytes[pos + 1]? = some second ∧
      bytes.drop pos = idx :: second :: bytes.drop (pos + 2) := by
  refine ⟨bytes[pos], bytes[pos + 1], getElem?_eq_getElem _, getElem?_eq_getElem _, ?_⟩
  rw [drop_eq_getElem_cons (by omega), drop_eq_getElem_cons (by omega)]

theorem hash_at {start : Nat} (enough : start + 32 ≤ bytes.length) :
    ∃ val, (slice bytes start (start + 32)).bind Hash32.fromByteArray = some val ∧
      (fixedHash create).fromBytes (bytes.drop start) = some (val, bytes.drop (start + 32)) := by
  have room : 32 ≤ (bytes.drop start).length := by
    rw [length_drop]
    omega
  refine ⟨⟨(bytes.drop start).take 32, take_hash_size room⟩, ?_, ?_⟩
  · rw [slice, if_pos ⟨Nat.le_add_right _ _, enough⟩, bind_some, Nat.add_sub_cancel_left,
      Hash32.fromByteArray, dif_pos (take_hash_size room)]
  · simp only [fixedHash, dif_pos room, drop_drop]

/-- One round of both loops: they fail as the reader of records does, or go on behind the record
that it reads. -/
theorem record_step (seen : List Byte) (inside : pos < bytes.length) :
    (∃ message, readRecord (fixedHash create) seen (bytes.drop pos) = .error message ∧
      ∀ fuel, checkFrom bytes (fuel + 1) pos seen = some (.error message)) ∨
    ∃ idx item stop, readRecord (fixedHash create) seen (bytes.drop pos) =
        .ok ((idx, item), bytes.drop stop) ∧ pos < stop ∧
      (∀ fuel, checkFrom bytes (fuel + 1) pos seen = checkFrom bytes fuel stop (idx :: seen)) ∧
      ∀ fuel result, decodeFrom bytes (fuel + 1) pos result =
        decodeFrom bytes fuel stop (Function.update result idx item) := by
  by_cases header : pos + 2 ≤ bytes.length
  · obtain ⟨idx, second, here, next, dropped⟩ := drop_at header
    have remaining : (bytes.drop (pos + 2)).length = bytes.length - (pos + 2) :=
      length_drop
    by_cases known : idx ∈ seen
    · refine .inl ⟨s!"duplicate item index {idx.val}", ?_, fun fuel => ?_⟩
      · rw [dropped, readRecord, if_pos known]
      · rw [checkFrom, if_neg (not_not_intro inside), if_neg (not_lt.mpr header), here,
          bind_some, if_pos (contains_iff_mem.mpr known)]
    · have round (fuel : Nat) : checkFrom bytes (fuel + 1) pos seen =
          if bytes.length < pos + 2 + second.val % 128 then
            some (.error "truncated radix node prefix")
          else if bytes.length < pos + 2 + second.val % 128 + 32 then
            some (.error "truncated radix node value")
          else checkFrom bytes fuel (pos + 2 + second.val % 128 + 32) (idx :: seen) := by
        rw [checkFrom, if_neg (not_not_intro inside), if_neg (not_lt.mpr header), here,
          bind_some, if_neg (mt contains_iff_mem.mp known), next, bind_some]
      by_cases short : bytes.length < pos + 2 + second.val % 128
      · refine .inl ⟨"truncated radix node prefix", ?_, fun fuel => ?_⟩
        · rw [dropped, readRecord, if_neg known, remaining, if_pos (by omega)]
        · rw [round, if_pos short]
      · have fits : ¬ bytes.length - (pos + 2) < second.val % 128 := by omega
        by_cases missing : bytes.length < pos + 2 + second.val % 128 + 32
        · have none : (fixedHash create).fromBytes (bytes.drop (pos + 2 + second.val % 128)) =
              Option.none := by
            have room : ¬ 32 ≤ (bytes.drop (pos + 2 + second.val % 128)).length := by
              rw [length_drop]
              omega
            simp only [fixedHash, dif_neg room]
          refine .inl ⟨"truncated radix node value", ?_, fun fuel => ?_⟩
          · rw [dropped, readRecord, if_neg known, remaining, if_neg fits, drop_drop, none]
          · rw [round, if_neg short, if_pos missing]
        · obtain ⟨val, sliced, read⟩ := hash_at create (not_lt.mp missing)
          have segment : slice bytes (pos + 2) (pos + 2 + second.val % 128) =
              some ((bytes.drop (pos + 2)).take (second.val % 128)) := by
            rw [slice, if_pos ⟨Nat.le_add_right _ _, not_lt.mp short⟩, Nat.add_sub_cancel_left]
          refine .inr ⟨idx,
            if second.val < 128 then .leaf ((bytes.drop (pos + 2)).take (second.val % 128)) val
            else .nodePtr ((bytes.drop (pos + 2)).take (second.val % 128)) val,
            pos + 2 + second.val % 128 + 32, ?_, by omega, fun fuel => ?_, fun fuel result => ?_⟩
          · rw [dropped, readRecord, if_neg known, remaining, if_neg fits, drop_drop, read]
          · rw [round, if_neg short, if_neg missing]
          · rw [decodeFrom, if_neg (not_not_intro inside), here, bind_some, next,
              bind_some]
            dsimp only
            rw [segment, bind_some, sliced, bind_some]
  · have single : ∃ idx, bytes.drop pos = [idx] := by
      refine ⟨bytes[pos], ?_⟩
      rw [drop_eq_getElem_cons inside, drop_eq_nil_of_le (by omega)]
    obtain ⟨_, dropped⟩ := single
    refine .inl ⟨"truncated radix node header", ?_, fun fuel => ?_⟩
    · rw [dropped, readRecord]
      intro _ _ _ impossible
      simp at impossible
    · rw [checkFrom, if_neg (not_not_intro inside), if_pos (by omega)]

theorem read_records_drop (ended : ¬ pos < bytes.length) (fuel : Nat) (seen : List Byte) :
    readRecords (fixedHash create) fuel seen (bytes.drop pos) = .ok [] := by
  rw [drop_eq_nil_of_le (not_lt.mp ended), readRecords]

theorem read_records_step {fuel : Nat} (inside : pos < bytes.length) (seen : List Byte) :
    readRecords (fixedHash create) (fuel + 1) seen (bytes.drop pos) =
      (readRecord (fixedHash create) seen (bytes.drop pos)).bind fun read =>
        (readRecords (fixedHash create) fuel (read.1.1 :: seen) read.2).bind fun others =>
          .ok (read.1 :: others) := by
  rw [drop_eq_getElem_cons inside]
  rfl

theorem check_eq_read (fuel pos : Nat) (seen : List Byte) (enough : bytes.length - pos ≤ fuel) :
    checkFrom bytes fuel pos seen =
      some ((readRecords (fixedHash create) fuel seen (bytes.drop pos)).map fun _ => ()) := by
  induction fuel generalizing pos seen with
  | zero =>
    rw [checkFrom, if_neg (by omega), read_records_drop create (by omega)]
    rfl
  | succ fuel ih =>
    by_cases inside : pos < bytes.length
    · rw [read_records_step create inside]
      rcases record_step create seen inside with ⟨_, read, round⟩ |
        ⟨idx, item, stop, read, _, round, _⟩
      · rw [round, read]
        rfl
      · rw [round, read, ih stop (idx :: seen) (by omega)]
        change _ = some (Except.map _ ((readRecords (fixedHash create) fuel (idx :: seen)
          (bytes.drop stop)).bind fun others => .ok ((idx, item) :: others)))
        cases readRecords (fixedHash create) fuel (idx :: seen) (bytes.drop stop) with
        | error | ok => rfl
    · rw [checkFrom, if_pos inside, read_records_drop create inside]
      rfl

/-- The loop of `decode` writes the records that the reader reads. -/
theorem decode_eq_read (fuel pos : Nat) (seen : List Byte) (enough : bytes.length - pos ≤ fuel)
    {records : List (Byte × Item Hash32)} (result : Node Hash32)
    (read : readRecords (fixedHash create) fuel seen (bytes.drop pos) = .ok records) :
    decodeFrom bytes fuel pos result =
      some (records.foldl (fun node record => Function.update node record.1 record.2) result) := by
  induction fuel generalizing pos seen records result with
  | zero =>
    rw [read_records_drop create (by omega)] at read
    cases read
    rw [decodeFrom, if_neg (by omega)]
    rfl
  | succ _ ih =>
    by_cases inside : pos < bytes.length
    · rw [read_records_step create inside] at read
      rcases record_step create seen inside with ⟨_, failed, _⟩ | ⟨idx, _, stop, found, _, _, round⟩
      · rw [failed] at read
        cases read
      · rw [found] at read
        obtain ⟨_, first, read⟩ := Steps.bind_eq_ok.mp read
        cases first
        obtain ⟨_, rest, same⟩ := Steps.bind_eq_ok.mp read
        cases same
        rw [round, foldl_cons]
        exact ih stop (idx :: seen) (by omega) _ rest
    · rw [read_records_drop create inside] at read
      cases read
      rw [decodeFrom, if_pos inside]
      rfl

end Loops

section Framing

/-- A record of the format. Its segment fits the seven bits of its length. -/
structure Record where
  index : Byte
  isPtr : Bool
  segment : List Byte
  value : Hash32
  short : segment.length ≤ 127

/-- The index, the byte with the kind and the length, the segment and the hash. -/
def Record.bytes (record : Record) : List Byte :=
  record.index :: Fin.ofNat 256 ((if record.isPtr then 128 else 0) + record.segment.length) ::
    (record.segment ++ record.value.bytes)

def Record.item (record : Record) : Item Hash32 :=
  if record.isPtr then .nodePtr record.segment record.value
  else .leaf record.segment record.value

def WellFramed (bytes : List Byte) : Prop :=
  ∃ records : List Record, bytes = records.flatMap Record.bytes ∧ (records.map Record.index).Nodup

/-- A sequence of records in increasing order of their indices. -/
def Ascending (bytes : List Byte) : Prop :=
  ∃ records : List Record, bytes = records.flatMap Record.bytes ∧
    (records.map Record.index).Pairwise (· < ·)

variable (create : List Byte → Hash32)

theorem encode_record (record : Record) :
    encodeItem (fixedHash create) record.index record.item = record.bytes := by
  have short := record.short
  have small : record.segment.length % 128 = record.segment.length := Nat.mod_eq_of_lt (by omega)
  unfold Record.item Record.bytes
  cases record.isPtr with
  | true =>
    simp only [if_true, encodeItem, small]
    rfl
  | false =>
    simp only [Bool.false_eq_true, if_false, encodeItem, small, Nat.zero_add]
    rfl

variable {seen : List Byte} {records : List (Byte × Item Hash32)} {start : Node Hash32}

theorem read_record_framed {bytes rest : List Byte} {idx : Byte} {item : Item Hash32}
    (read : readRecord (fixedHash create) seen bytes = .ok ((idx, item), rest)) :
    idx ∉ seen ∧ ∃ record : Record, record.index = idx ∧ record.item = item ∧
      bytes = record.bytes ++ rest := by
  match bytes with
  | [] | [_] => cases read
  | first :: second :: tail =>
    by_cases known : first ∈ seen
    · rw [readRecord, if_pos known] at read
      cases read
    by_cases long : tail.length < second.val % 128
    · rw [readRecord, if_neg known, if_pos long] at read
      cases read
    rw [readRecord, if_neg known, if_neg long] at read
    have enough : 32 ≤ (tail.drop (second.val % 128)).length := by
      by_contra missing
      have absent : (fixedHash create).fromBytes (tail.drop (second.val % 128)) = none :=
        dif_neg missing
      rw [absent] at read
      cases read
    have value : (fixedHash create).fromBytes (tail.drop (second.val % 128)) = some
        (⟨(tail.drop (second.val % 128)).take 32, take_hash_size enough⟩,
          (tail.drop (second.val % 128)).drop 32) := dif_pos enough
    rw [value] at read
    cases read
    have sized : (tail.take (second.val % 128)).length = second.val % 128 := by
      rw [length_take]
      omega
    refine ⟨known, ⟨idx, decide (128 ≤ second.val), tail.take (second.val % 128),
      ⟨(tail.drop (second.val % 128)).take 32, take_hash_size enough⟩, by omega⟩, rfl, ?_, ?_⟩
    · unfold Record.item
      by_cases leaf : second.val < 128
      · simp [leaf]
      · simp [leaf, not_lt.mp leaf]
    · have byte : Fin.ofNat 256 ((if decide (128 ≤ second.val) then 128 else 0) +
          (tail.take (second.val % 128)).length) = second := by
        apply Fin.ext
        have bound := second.isLt
        rw [sized]
        change (_ : Nat) % 256 = _
        split_ifs with pointer
        · rw [decide_eq_true_eq] at pointer
          omega
        · rw [decide_eq_true_eq] at pointer
          omega
      simp only [Record.bytes, byte, cons_append, append_assoc, take_append_drop]

theorem read_records_framed {fuel : Nat} {bytes : List Byte} {found : List (Byte × Item Hash32)}
    (read : readRecords (fixedHash create) fuel seen bytes = .ok found) :
    ∃ records : List Record, found = records.map (fun record => (record.index, record.item)) ∧
      bytes = records.flatMap Record.bytes ∧ (records.map Record.index).Nodup ∧
      ∀ record ∈ records, record.index ∉ seen := by
  induction fuel generalizing seen bytes found with
  | zero =>
    cases bytes with
    | nil =>
      cases read
      exact ⟨[], rfl, rfl, nodup_nil, by simp⟩
    | cons => cases read
  | succ _ ih =>
    cases bytes with
    | nil =>
      cases read
      exact ⟨[], rfl, rfl, nodup_nil, by simp⟩
    | cons =>
      obtain ⟨⟨⟨_, _⟩, _⟩, one, read⟩ := Steps.bind_eq_ok.mp read
      obtain ⟨_, many, same⟩ := Steps.bind_eq_ok.mp read
      cases same
      obtain ⟨fresh, record, rfl, rfl, split⟩ := read_record_framed create one
      obtain ⟨records, listed, joined, distinct, unseen⟩ := ih many
      refine ⟨record :: records, by rw [listed]; rfl, ?_, ?_, ?_⟩
      · rw [split, joined, flatMap_cons]
      · rw [map_cons, nodup_cons]
        refine ⟨fun mem => ?_, distinct⟩
        obtain ⟨other, inside, equal⟩ := mem_map.mp mem
        exact unseen other inside (equal ▸ mem_cons_self)
      · intro other mem
        rcases mem_cons.mp mem with rfl | later
        · exact fresh
        · exact fun inside => unseen other later (mem_cons_of_mem _ inside)

theorem encode_records (node : Node Hash32) : encode (fixedHash create) node =
    ((finRange 256).filterMap (recordOf node)).flatMap fun record =>
      encodeItem (fixedHash create) record.1 record.2 := by
  unfold encode
  induction finRange 256 with
  | nil => rfl
  | cons idx _ ih =>
    rw [flatMap_cons, ih]
    by_cases present : node idx = .empty
    · have skipped : recordOf node idx = none := if_pos present
      rw [filterMap_cons_none skipped, present, encodeItem, nil_append]
    · have listed : recordOf node idx = some (idx, node idx) := if_neg present
      rw [filterMap_cons_some listed, flatMap_cons]

/-- Write records into a node, as `decode` does. -/
def writeRecords (start : Node Hash32) (records : List (Byte × Item Hash32)) : Node Hash32 :=
  records.foldl (fun node record => Function.update node record.1 record.2) start

theorem write_records_of_not_mem {b : Byte} (absent : b ∉ records.map Prod.fst) :
    writeRecords start records b = start b := by
  induction records generalizing start with
  | nil => rfl
  | cons _ _ ih =>
    rw [map_cons, mem_cons, not_or] at absent
    rw [writeRecords, foldl_cons, ← writeRecords, ih absent.2, update_of_ne absent.1]

theorem write_records_of_mem (distinct : (records.map Prod.fst).Nodup) {record : Byte × Item Hash32}
    (mem : record ∈ records) : writeRecords start records record.1 = record.2 := by
  induction records generalizing start with
  | nil => cases mem
  | cons _ _ ih =>
    obtain ⟨apart, rest⟩ := nodup_cons.mp (map_cons ▸ distinct)
    rw [writeRecords, foldl_cons, ← writeRecords]
    rcases mem_cons.mp mem with rfl | later
    · rw [write_records_of_not_mem apart, update_self]
    · exact ih rest later

theorem records_of_written (ascending : (records.map Prod.fst).Pairwise (· < ·))
    (present : ∀ record ∈ records, record.2 ≠ .empty) :
    (finRange 256).filterMap (recordOf (writeRecords emptyNode records)) = records := by
  have distinct : (records.map Prod.fst).Nodup := ascending.imp ne_of_lt
  have among (record : Byte × Item Hash32) :
      record ∈ (finRange 256).filterMap (recordOf (writeRecords emptyNode records)) ↔
        record ∈ records := by
    rw [mem_filterMap]
    constructor
    · rintro ⟨idx, _, found⟩
      unfold recordOf at found
      split_ifs at found with vacant
      cases found
      by_cases listed : idx ∈ records.map Prod.fst
      · obtain ⟨_, inside, rfl⟩ := mem_map.mp listed
        rw [write_records_of_mem distinct inside]
        exact inside
      · exact absurd (write_records_of_not_mem listed) vacant
    · intro inside
      refine ⟨record.1, mem_finRange _, ?_⟩
      rw [recordOf, write_records_of_mem distinct inside, if_neg (present record inside)]
  have ordered : ((finRange 256).filterMap
      (recordOf (writeRecords emptyNode records))).Pairwise fun left right => left.1 < right.1 := by
    rw [pairwise_filterMap]
    apply (pairwise_lt_finRange 256).imp
    intro _ _ less _ found _ other
    unfold recordOf at found other
    split_ifs at found other
    cases found
    cases other
    exact less
  have sorted : records.Pairwise fun left right => left.1 < right.1 :=
    pairwise_map.mp ascending
  have different {list : List (Byte × Item Hash32)}
      (pairs : list.Pairwise fun left right => left.1 < right.1) : list.Nodup :=
    pairs.imp fun less same => absurd (congrArg Prod.fst same) (ne_of_lt less)
  apply List.Perm.eq_of_pairwise _ ordered sorted
    ((perm_ext_iff_of_nodup (different ordered) (different sorted)).mpr among)
  intro _ _ _ _ less greater
  exact absurd (less.trans greater) (lt_irrefl _)

end Framing

section Codec

variable {bytes : List Byte} (create : List Byte → Hash32)

theorem try_from_ok {serialized : SerializedNode}
    (accepted : SerializedNode.tryFrom bytes = some (.ok serialized)) : serialized.bytes = bytes := by
  unfold SerializedNode.tryFrom at accepted
  split at accepted
  · cases accepted
  · cases accepted
  · cases accepted
    rfl

theorem accepted_of_read {node : Node Hash32} (read : decode (fixedHash create) bytes = .ok node) :
    ∃ serialized, SerializedNode.tryFrom bytes = some (.ok serialized) ∧
      serialized.decode = some node := by
  obtain ⟨_, found, written⟩ := Steps.bind_eq_ok.mp read
  cases written
  have valid : checkFrom bytes bytes.length 0 [] = some (.ok ()) := by
    rw [check_eq_read create _ _ _ (Nat.sub_le _ _), drop_zero, found]
    rfl
  refine ⟨⟨bytes, valid⟩, ?_, decode_eq_read create _ 0 [] (Nat.sub_le _ _) emptyNode found⟩
  unfold SerializedNode.tryFrom
  split
  · rename_i stuck
    rw [valid] at stuck
    cases stuck
  · rename_i refused
    rw [valid] at refused
    cases refused
  · rfl

theorem read_of_serialized (serialized : SerializedNode) : ∃ records,
    readRecords (fixedHash create) serialized.bytes.length [] serialized.bytes = .ok records ∧
      serialized.decode = some (writeRecords emptyNode records) := by
  have checked := serialized.valid
  rw [check_eq_read create _ _ _ (Nat.sub_le _ _), drop_zero] at checked
  cases read : readRecords (fixedHash create) serialized.bytes.length [] serialized.bytes with
  | error =>
    rw [read] at checked
    cases checked
  | ok records => exact ⟨records, rfl, decode_eq_read create _ 0 [] (Nat.sub_le _ _) emptyNode read⟩

theorem try_from_returns (bytes : List Byte) :
    ∃ result, SerializedNode.tryFrom bytes = some result := by
  have checked : checkFrom bytes bytes.length 0 [] = _ :=
    check_eq_read (fun _ => zeroHash) _ _ _ (Nat.sub_le _ _)
  unfold SerializedNode.tryFrom
  split
  · rename_i stuck
    rw [checked] at stuck
    cases stuck
  · exact ⟨_, rfl⟩
  · exact ⟨_, rfl⟩

theorem encode_written {records : List Record}
    (ascending : (records.map Record.index).Pairwise (· < ·)) :
    ∃ node : Node Hash32, node.Short ∧
      encode (fixedHash create) node = records.flatMap Record.bytes := by
  have order : ((records.map fun record => (record.index, record.item)).map Prod.fst).Pairwise
      (· < ·) := by
    rwa [map_map]
  have present : ∀ record ∈ records.map fun record => (record.index, record.item),
      record.2 ≠ Item.empty := by
    intro _ mem
    obtain ⟨record, _, rfl⟩ := mem_map.mp mem
    simp only [Record.item]
    split_ifs <;> simp
  refine ⟨writeRecords emptyNode (records.map fun record => (record.index, record.item)), ?_, ?_⟩
  · intro idx
    by_cases listed : idx ∈ (records.map fun record => (record.index, record.item)).map Prod.fst
    · obtain ⟨_, inside, rfl⟩ := mem_map.mp listed
      rw [write_records_of_mem (order.imp ne_of_lt) inside]
      obtain ⟨record, _, rfl⟩ := mem_map.mp inside
      simp only [Record.item]
      split_ifs
      · exact record.short
      · exact record.short
    · rw [write_records_of_not_mem listed]
      trivial
  · rw [encode_records, records_of_written order present, flatMap_map]
    exact flatMap_congr fun record _ => encode_record create record

/-- Encoded nodes with short prefixes are accepted and decode to themselves; what is accepted is a
sequence of records; neither loop leaves the bytes; and accepted bytes with ascending records are
the encoding of what they decode to. -/
theorem node_bytes_round_trip : (∀ node : Node Hash32, node.Short → ∃ serialized,
      SerializedNode.tryFrom (encode (fixedHash create) node) = some (.ok serialized) ∧
        serialized.decode = some node) ∧
    (∀ bytes serialized, SerializedNode.tryFrom bytes = some (.ok serialized) →
      serialized.bytes = bytes ∧ WellFramed bytes) ∧
    (∀ bytes, ∃ result, SerializedNode.tryFrom bytes = some result) ∧
    (∀ serialized : SerializedNode, ∃ node, serialized.decode = some node) ∧
    ∀ (serialized : SerializedNode) (node : Node Hash32), Ascending serialized.bytes →
      serialized.decode = some node → encode (fixedHash create) node = serialized.bytes := by
  refine ⟨fun node short => accepted_of_read create
      (decode_encode (fixed_reads_back create) short), ?_, try_from_returns, ?_, ?_⟩
  · intro _ serialized accepted
    have same := try_from_ok accepted
    obtain ⟨_, read, _⟩ := read_of_serialized create serialized
    obtain ⟨records, _, joined, distinct, _⟩ := read_records_framed create read
    exact ⟨same, records, same ▸ joined, distinct⟩
  · intro serialized
    obtain ⟨_, _, decoded⟩ := read_of_serialized create serialized
    exact ⟨_, decoded⟩
  · rintro serialized _ ⟨_, joined, ascending⟩ decoded
    obtain ⟨_, short, encoded⟩ := encode_written create ascending
    obtain ⟨again, accepted, decodedAgain⟩ :=
      accepted_of_read create (decode_encode (fixed_reads_back create) short)
    have same : again = serialized := by
      have bytesSame := try_from_ok accepted
      rw [encoded, ← joined] at bytesSame
      cases again
      cases serialized
      cases bytesSame
      rfl
    rw [same, decoded, Option.some.injEq] at decodedAgain
    rw [decodedAgain, encoded, joined]

theorem one_leaf_round_trip : ∃ serialized,
    SerializedNode.tryFrom (encode (fixedHash fun _ => zeroHash)
      (Function.update emptyNode 5 (.leaf [1, 2] zeroHash))) = some (.ok serialized) ∧
    serialized.decode = some (Function.update emptyNode 5 (.leaf [1, 2] zeroHash)) := by
  apply (node_bytes_round_trip fun _ => zeroHash).1
  intro idx
  by_cases here : idx = 5
  · rw [here, update_self]
    exact Nat.le_of_ble_eq_true rfl
  · rw [update_of_ne here]
    trivial

end Codec

end RChain.Radix
